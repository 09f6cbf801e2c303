import Perp.PerplsPanel
import Perp.Runlimit

set_option autoImplicit false

/-!
# One status, three clients

`report()` of `perpstat`, the tests of `perpok`, and the panel of `perpls`: what
each of the three says of the same answer.
-/
namespace Perp.StatusVerdicts
open FlagByte Pkt PerpdState PerpdConn PerpdMainloop PerpdClient StatusClients PerplsPanel
open Runlimit (Piece)

/-! ## perpstat -/

/-- `report()`, for one of the pair -/
def subsvReport (v : SubsvStatus) (age : UInt64) : List Piece :=
  let once : List Piece :=
    if has v.flags SubsvFlag.isonce then [.text ", flagged once"] else []
  if v.pid = 0 then
    [.text "down ", .number age.toNat, .text " seconds"] ++
      (if has v.flags SubsvFlag.wantdown = false then [.text ", want up!"] else []) ++ once
  else if age < 1 ∧ has v.flags SubsvFlag.isreset = false then .text "down, want up!" :: once
  else
    [.text (if has v.flags SubsvFlag.isreset then "resetting " else "up "), .number age.toNat,
      .text " seconds", .text " (pid ", .number (v.pid % 2 ^ 32).toNat, .text ")"] ++
      (if has v.flags SubsvFlag.ispaused then [.text ", paused"] else []) ++ once

/-- `report()`, with what it says of one of the pair -/
def reportOf (say : SubsvStatus → List Piece) (name status : List UInt8) (now : Tain) :
    List Piece :=
  let f := reportFields status
  [.str name, .text ": activated ", .number (TainMath.uptime now f.when).toNat, .text " seconds"] ++
    (if has f.flags SvdefFlag.cull then [.text ", deactivation in progress"] else []) ++
    (if has f.flags SvdefFlag.cycle then [.text ", flagged for reactivation"] else []) ++
    [.text "\n", .text "  main: "] ++ say f.main ++ [.text "\n   log: "] ++
    f.log.elim [.text "(no log)\n"] fun log => say log ++ [.text "\n"]

def report (name status : List UInt8) (now : Tain) : List Piece :=
  reportOf (fun v => subsvReport v (age v now)) name status now

/-- What `perpstat` writes for one service: to its output, or to `stderr` -/
inductive Perpstat where
  | out (mesg : List Piece)
  | err (mesg : List Piece)
  /-- with the text of `errno` behind it -/
  | syserr (errno : UInt32) (mesg : List Piece)
  deriving DecidableEq, Repr

/-- The body of the loop in `main()` of `perpstat` -/
def perpstat (name : List UInt8) (q : Asked) (now : Tain) : Perpstat :=
  match ask q with
  | .noStat _ => .err [.str name, .text ": error: service directory not found"]
  | .noDirectory => .err [.str name, .text ": error: not a directory"]
  | .inactive => .out [.str name, .text ": not activated\n"]
  | .unwritten e => .syserr e [.text "error: ", .str name, .text ": error writing query"]
  | .unread e => .syserr e [.text "error: ", .str name, .text ": error reading response"]
  | .protocol => .err [.text "error: ", .str name, .text ": unknown packet protocol in reply"]
  | .refused e => .syserr e [.text "error: ", .str name, .text ": error reported in reply"]
  | .otherType => .err [.text "error: ", .str name, .text ": unknown packet type in reply"]
  | .status payload => .out (report name payload now)

/-! ## perpok -/

/-- How `perpok` ends: `report_ok()`, `report_fail()`, or one of the errors -/
inductive Perpok where
  | ok (mesg : String)
  | fail (mesg : List Piece)
  | usage (mesg : List Piece)
  | syserr (errno : UInt32) (mesg : List Piece)
  | fatal (mesg : String)
  deriving DecidableEq, Repr

/-- Its exit status; `die_usage()` ends with 100. -/
def Perpok.exit : Perpok → ℕ
  | .ok _ => 0
  | .fail _ => 1
  | .usage _ => 100
  | .syserr _ _ => 111
  | .fatal _ => 111

/-- The tests of `perpok -u`, in their order -/
def subsvVerdict (upsecs : UInt32) (v : SubsvStatus) (age : UInt64) : Perpok :=
  if ¬ v.pid > 0 then .fail [.text "service not running (pid is 0)"]
  else if has v.flags SubsvFlag.isreset then .fail [.text "service is resetting"]
  else if has v.flags SubsvFlag.wantdown then .fail [.text "service wants down"]
  else if age < upsecs.toUInt64 then .fail [.text "service uptime not met"]
  else .ok "service uptime ok"

/-- What `perpok` finds in a status, with `upsecs` of the option `-u` -/
def verdict (upsecs : UInt32) (status : List UInt8) (now : Tain) : Perpok :=
  if upsecs = 0 then .ok "service is activated/ok"
  else subsvVerdict upsecs (perpokFields status) (age (perpokFields status) now)

/-- `main()` of `perpok`, from the `stat()` of the directory on -/
def perpok (svdir : List UInt8) (upsecs : UInt32) (q : Asked) (now : Tain) : Perpok :=
  match ask q with
  | .noStat e => .syserr e [.text "failure stat() on service directory ", .str svdir]
  | .noDirectory => .usage [.text "argument not a directory: ", .str svdir]
  | .inactive => .fail [.text "service directory ", .str svdir, .text " not activated"]
  | .unwritten e => .syserr e [.text "failure pkt_write() to perpd control socket"]
  | .unread e => .syserr e [.text "failure pkt_read() from perpd control socket"]
  | .protocol => .fatal "unknown protocol found in reply from perpd control socket"
  | .refused e => .syserr e [.text "error reported in reply from perpd control socket"]
  | .otherType => .fatal "unknown packet reply type from perpd control socket"
  | .status payload => verdict upsecs payload now

/-! ## The same told -/

/-- The words of `perpstat` for a condition -/
def words (c : Condition) (pid : ℤ) (age : UInt64) : List Piece :=
  let once (b : Bool) : List Piece := if b then [.text ", flagged once"] else []
  match c with
  | .down wanted o => [.text "down ", .number age.toNat, .text " seconds"] ++
      (if wanted then [.text ", want up!"] else []) ++ once o
  | .starting o => .text "down, want up!" :: once o
  | .alive _ resetting paused o =>
    [.text (if resetting then "resetting " else "up "), .number age.toNat,
      .text " seconds", .text " (pid ", .number (pid % 2 ^ 32).toNat, .text ")"] ++
      (if paused then [.text ", paused"] else []) ++ once o

theorem subsvReport_condition (v : SubsvStatus) (now : Tain) :
    subsvReport v (age v now) = words (condition v now) v.pid (age v now) := by
  unfold subsvReport condition conditionAt words
  by_cases h0 : v.pid = 0
  · cases has v.flags SubsvFlag.wantdown <;> simp [h0]
  · by_cases hyoung : age v now < 1 ∧ has v.flags SubsvFlag.isreset = false
    · simp [h0, hyoung]
    · simp only [h0, hyoung, if_false]

theorem byteAt_take {l : List UInt8} {n i : ℕ} (h : i < n) : byteAt (l.take n) i = byteAt l i := by
  simp [byteAt, List.getD_eq_getElem?_getD, h]

theorem subsvAt_take (l : List UInt8) {pid when flags : ℕ} (hp : pid + 4 ≤ 66)
    (hw : when + 12 ≤ 66) (hf : flags < 66) :
    subsvAt (l.take 66) pid when flags = subsvAt l pid when flags := by
  have hget : ∀ k i : ℕ, k + i < 66 → ((l.take 66).drop k).getD i 0 = (l.drop k).getD i 0 := by
    intro k i h
    simp [List.getD_eq_getElem?_getD, List.getElem?_drop, h]
  have hpid : upak32Unpack ((l.take 66).drop pid) = upak32Unpack (l.drop pid) := by
    simp only [upak32Unpack, byteAt, List.foldl_cons, List.foldl_nil]
    rw [hget _ _ (by omega), hget _ _ (by omega), hget _ _ (by omega), hget _ _ (by omega)]
  have hwhen : Tain.unpack ((l.take 66).drop when) = Tain.unpack (l.drop when) := by
    simp only [Tain.unpack, List.foldl_cons, List.foldl_nil]
    rw [hget _ _ (by omega), hget _ _ (by omega), hget _ _ (by omega), hget _ _ (by omega),
      hget _ _ (by omega), hget _ _ (by omega), hget _ _ (by omega), hget _ _ (by omega),
      hget _ _ (by omega), hget _ _ (by omega), hget _ _ (by omega), hget _ _ (by omega)]
  rw [subsvAt, subsvAt, hpid, hwhen, byteAt_take hf]

/-- perpls copies the bytes that hold the status, and reads them at the same places. -/
theorem svstatFields_take (l : List UInt8) :
    svstatFields (l.take binstatSize) = svstatFields l := by
  have hflags : byteAt (l.take binstatSize) 28 = byteAt l 28 := byteAt_take (by decide)
  have hmain : subsvAt (l.take binstatSize) 30 34 46 = subsvAt l 30 34 46 :=
    subsvAt_take l (by decide) (by decide) (by decide)
  have hlog : subsvAt (l.take binstatSize) 48 52 64 = subsvAt l 48 52 64 :=
    subsvAt_take l (by decide) (by decide) (by decide)
  simp only [svstatFields, hflags, hmain, hlog]

/-- What perpls has of a service before it prints the line -/
def perpls (raw : PerplsPanel.Svstat) (name : List UInt8) (q : Asked) (now : Tain) :
    PerplsPanel.Svstat :=
  svstatSetcap (svstatUnpack (svstatQuery q (svstatInit raw name)) now)

/-- An error is reported. -/
def Perpstat.failed : Perpstat → Bool
  | .out _ => false
  | .err _ => true
  | .syserr _ _ => true

section
variable {raw : PerplsPanel.Svstat} {name : List UInt8} {q : Asked} {now : Tain}

theorem report_told (status : List UInt8) : report name status now =
    reportOf (fun v => words (condition v now) v.pid (age v now)) name status now := by
  have hsay : (fun v => subsvReport v (age v now)) =
      fun v => words (condition v now) v.pid (age v now) := by
    funext v
    exact subsvReport_condition v now
  rw [report, hsay]

/-- What `svstat_unpack()` makes of a service that has answered -/
theorem unpack_told {S : PerplsPanel.Svstat} (hstate : S.panel.state = '+')
    (hdashes : S.panel.log = ⟨'-', '-', '-'⟩) (hpids : PidsOk S.binstat) :
    let f := svstatFields S.binstat
    let S' := svstatUnpack S now
    S'.panel = (told S.binstat now).panel ∧ S'.pidMain = shown f.main now ∧
      S'.uptimeMain = age f.main now := by
  intro f S'
  have hgo : ¬ (S.panel.state = 'E' ∨ S.panel.state = '-') := by
    rw [hstate]
    decide
  have hmain : subsvMarks f.main (age f.main now) =
      (shown f.main now, (condition f.main now).marks) := subsvMarks_condition hpids.1
  have hlog : ∀ log, f.log = some log → subsvMarks log (age log now) =
      (shown log now, (condition log now).marks) := by
    intro log hlog
    apply subsvMarks_condition
    have h := hpids.2
    simp only [f, svstatFields] at hlog
    split at hlog
    · obtain rfl := Option.some.inj hlog
      exact h
    · cases hlog
  have htold : told S.binstat now =
      ⟨if has f.flags SvdefFlag.cull then some (has f.flags SvdefFlag.cycle) else none,
        condition f.main now, f.log.map (condition · now)⟩ := rfl
  have hS : S' = f.log.elim ((S.setFlags f.flags).setMain (age f.main now) (shown f.main now,
      (condition f.main now).marks)) fun log => ((S.setFlags f.flags).setMain (age f.main now)
        (shown f.main now, (condition f.main now).marks)).setLog (age log now)
          (subsvMarks log (age log now)) := by
    rw [← hmain]
    exact if_neg hgo
  have hflags : (S.setFlags f.flags).panel = ⟨(if has f.flags SvdefFlag.cull then
      some (has f.flags SvdefFlag.cycle) else none).elim '+' fun back => if back then 'R' else '!',
      S.panel.main, ⟨'-', '-', '-'⟩⟩ := by
    rw [← hstate, ← hdashes]
    cases hcull : has f.flags SvdefFlag.cull <;>
      simp only [Svstat.setFlags, hcull, Bool.false_eq_true, if_true, if_false, Option.elim_some,
        Option.elim_none]
  rw [htold, hS]
  cases hl : f.log with
  | none =>
    simp only [Svstat.setMain, hflags, Told.panel, Option.elim_none, Option.map_none, and_self]
  | some log =>
    rw [Option.elim_some, hlog log hl]
    simp only [Svstat.setMain, Svstat.setLog, hflags, Told.panel, Option.elim_some, Option.map_some,
      and_self]

theorem told_take (payload : List UInt8) :
    told (payload.take binstatSize) now = told payload now := by
  rw [told, svstatFields_take, told]

variable (raw name now) in
/-- What perpls has of a service that has answered -/
theorem perpls_status {payload : List UInt8} (hq : ask q = .status payload)
    (hpids : PidsOk payload) :
    let S := perpls raw name q now
    let f := svstatFields payload
    S.panel = (told payload now).panel ∧ S.capId = (told payload now).cap ∧
      S.pidMain = shown f.main now ∧ S.uptimeMain = age f.main now := by
  intro S f
  let S₁ := svstatQuery q (svstatInit raw name)
  have hquery : S₁.panel = ⟨'+', ⟨'-', '-', '-'⟩, ⟨'-', '-', '-'⟩⟩ ∧
      S₁.binstat = payload.take binstatSize := by
    simp [S₁, svstatQuery, hq, svstatInit, perpPanel]
  have htake : PidsOk S₁.binstat := by
    have hmain : subsvAt (payload.take 66) 30 34 46 = subsvAt payload 30 34 46 :=
      subsvAt_take payload (by decide) (by decide) (by decide)
    have hlog : subsvAt (payload.take 66) 48 52 64 = subsvAt payload 48 52 64 :=
      subsvAt_take payload (by decide) (by decide) (by decide)
    rw [hquery.2, PidsOk, binstatSize, hmain, hlog]
    exact hpids
  obtain ⟨hpanel, hpid, huptime⟩ := unpack_told (S := S₁) (by rw [hquery.1])
    (by rw [hquery.1]) htake
  rw [hquery.2, told_take] at hpanel
  rw [hquery.2, svstatFields_take] at hpid huptime
  refine ⟨hpanel, ?_, hpid, huptime⟩
  have hcap : S.capId = panelCap S.panel := rfl
  have hsame : S.panel = (told payload now).panel := hpanel
  rw [hcap, hsame, panelCap_told]

variable (raw name now) in
/-- perpls marks no one of the pair where nothing was answered. -/
theorem perpls_none (hq : ∀ payload, ask q ≠ .status payload) :
    (perpls raw name q now).panel =
      ⟨if ask q = .inactive then '-' else 'E', ⟨'-', '-', '-'⟩, ⟨'-', '-', '-'⟩⟩ := by
  have hunpack : ∀ S : PerplsPanel.Svstat, S.panel.state = 'E' ∨ S.panel.state = '-' →
      (svstatUnpack S now).panel = S.panel := by
    intro S hS
    rw [svstatUnpack, if_pos hS]
  have hsame : (perpls raw name q now).panel =
      (svstatUnpack (svstatQuery q (svstatInit raw name)) now).panel := rfl
  rw [hsame]
  cases h : ask q with
  | status payload => exact absurd h (hq payload)
  | inactive =>
    rw [hunpack _ (by simp [svstatQuery, h])]
    simp [svstatQuery, h, svstatInit, perpPanel]
  | noStat e | noDirectory | unwritten e | unread e | protocol | refused e | otherType =>
    rw [hunpack _ (by simp [svstatQuery, h, PerplsPanel.fail])]
    simp [svstatQuery, h, PerplsPanel.fail, svstatInit, perpPanel]

theorem upsecs_pos {upsecs : UInt32} (h : upsecs ≠ 0) : 1 ≤ upsecs.toUInt64 := by
  have hne : upsecs.toNat ≠ 0 := fun h0 => h (UInt32.toNat_inj.mp h0)
  rw [UInt64.le_iff_toNat_le, UInt32.toNat_toUInt64]
  change 1 ≤ upsecs.toNat
  omega

/-- `perpok -u` looks for a process that is wanted, is not resetting, and is old enough. -/
theorem subsvVerdict_condition {v : SubsvStatus} (hv : 0 ≤ v.pid) {upsecs : UInt32}
    (hu : upsecs ≠ 0) (age : UInt64) :
    (subsvVerdict upsecs v age).exit = 0 ↔ (conditionAt v age).marks.want = '+' ∧
      (conditionAt v age).marks.mode ≠ 'r' ∧ upsecs.toUInt64 ≤ age := by
  have hone := upsecs_pos hu
  rw [subsvVerdict, conditionAt]
  by_cases h0 : v.pid = 0
  · rw [if_pos (by omega), if_pos h0]
    cases has v.flags SubsvFlag.wantdown <;> simp [Perpok.exit, Condition.marks]
  rw [if_neg (by omega), if_neg h0]
  by_cases hreset : has v.flags SubsvFlag.isreset = true
  · rw [if_pos hreset, if_neg (by simp [hreset])]
    simp [Perpok.exit, Condition.marks, hreset]
  rw [if_neg hreset]
  have hr : has v.flags SubsvFlag.isreset = false := by simpa using hreset
  by_cases hdown : has v.flags SubsvFlag.wantdown = true
  · rw [if_pos hdown]
    split <;> simp [Perpok.exit, Condition.marks, hdown]
  rw [if_neg hdown]
  have hd : has v.flags SubsvFlag.wantdown = false := by simpa using hdown
  by_cases hage : age < upsecs.toUInt64
  · have hle : ¬ upsecs.toUInt64 ≤ age := UInt64.not_le.mpr hage
    rw [if_pos hage]
    simp [Perpok.exit, hle]
  · have hle : upsecs.toUInt64 ≤ age := UInt64.not_lt.mp hage
    have hold : ¬ age < 1 := UInt64.not_lt.mpr (UInt64.le_trans hone hle)
    rw [if_neg hage, if_neg (fun h => hold h.1)]
    simp only [Perpok.exit, Condition.marks, hd, hr]
    cases has v.flags SubsvFlag.ispaused <;> simp [hle]

end

/-- What the three clients say of one answer -/
structure Agree (raw : PerplsPanel.Svstat) (name : List UInt8) (q : Asked) (now : Tain) : Prop where
  /-- They report an error together. -/
  failed : (perpls raw name q now).panel.state = 'E' ↔ (perpstat name q now).failed = true
  unanswered : (perpls raw name q now).panel.state = 'E' ↔
    ∀ upsecs, 100 ≤ (perpok name upsecs q now).exit
  inactive : (perpls raw name q now).panel.state = '-' ↔ (perpok name 0 q now).exit = 1
  /-- `perpok -u` -/
  up : ∀ upsecs, upsecs ≠ 0 → ((perpok name upsecs q now).exit = 0 ↔
    (perpls raw name q now).panel.main.want = '+' ∧ (perpls raw name q now).panel.main.mode ≠ 'r' ∧
      upsecs.toUInt64 ≤ (perpls raw name q now).uptimeMain)
  /-- Marks, color and words are of one condition. -/
  same : ∀ payload, ask q = .status payload →
    (perpls raw name q now).panel = (told payload now).panel ∧
    (perpls raw name q now).capId = (told payload now).cap ∧
    perpstat name q now = .out (reportOf (fun v => words (condition v now) v.pid (age v now))
      name payload now)

/-- perpls, perpstat and perpok tell the same of every answer whose process numbers are
not negative. -/
theorem clients_agree (raw : PerplsPanel.Svstat) (name : List UInt8) (q : Asked) (now : Tain)
    (hpids : ∀ payload, ask q = .status payload → PidsOk payload) : Agree raw name q now := by
  by_cases hq : ∃ payload, ask q = .status payload
  · obtain ⟨payload, hq⟩ := hq
    obtain ⟨hpanel, hcap, -, huptime⟩ := perpls_status raw name now hq
      (hpids payload hq)
    have hstate : (told payload now).panel.state ≠ 'E' ∧ (told payload now).panel.state ≠ '-' := by
      simp only [Told.panel]
      rcases (told payload now).culled with _ | _ | _ <;> simp
    have hverdict : ∀ upsecs, perpok name upsecs q now = verdict upsecs payload now := by
      intro upsecs
      simp only [perpok, hq]
    have hok0 : (verdict 0 payload now).exit = 0 := rfl
    have hstat : perpstat name q now = .out (report name payload now) := by
      simp only [perpstat, hq]
    refine ⟨?_, ?_, ?_, fun upsecs hu => ?_, fun payload' hq' => ?_⟩
    · rw [hpanel, hstat]
      simp [hstate.1, Perpstat.failed]
    · rw [hpanel]
      refine ⟨fun h => absurd h hstate.1, fun h => ?_⟩
      have h0 := h 0
      rw [hverdict, hok0] at h0
      exact absurd h0 (by decide)
    · rw [hpanel, hverdict, hok0]
      exact ⟨fun h => absurd h hstate.2, fun h => absurd h (by decide)⟩
    · have hsame : (svstatFields payload).main = perpokFields payload := by
        simp only [svstatFields, perpokFields]
      rw [hverdict, hpanel, huptime, verdict, if_neg hu, Told.panel_main, told_main, hsame,
        condition]
      generalize age (perpokFields payload) now = age
      exact subsvVerdict_condition (hpids payload hq).1 hu age
    · obtain rfl := Answer.status.inj (hq.symm.trans hq')
      rw [hstat, report_told]
      exact ⟨hpanel, hcap, rfl⟩
  · have hnone : ∀ payload, ask q ≠ .status payload := fun payload h => hq ⟨payload, h⟩
    have hpanel := perpls_none raw name now hnone
    have hok : ∀ upsecs, ask q ≠ .inactive → 100 ≤ (perpok name upsecs q now).exit := by
      intro upsecs hne
      cases h : ask q with
      | status payload => exact absurd h (hnone payload)
      | inactive => exact absurd h hne
      | noStat e | noDirectory | unwritten e | unread e | protocol | refused e | otherType =>
        simp [perpok, h, Perpok.exit]
    have hin : ask q = .inactive → ∀ upsecs, (perpok name upsecs q now).exit = 1 := by
      intro h upsecs
      simp [perpok, h, Perpok.exit]
    by_cases hina : ask q = .inactive
    · rw [if_pos hina] at hpanel
      refine ⟨?_, ?_, ?_, fun upsecs hu => ?_, fun payload h => absurd h (hnone payload)⟩
      · simp [hpanel, perpstat, hina, Perpstat.failed]
      · simp [hpanel, hin hina]
      · simp [hpanel, hin hina]
      · simp [hpanel, hin hina]
    · rw [if_neg hina] at hpanel
      refine ⟨?_, ?_, ?_, fun upsecs hu => ?_, fun payload h => absurd h (hnone payload)⟩
      · have hfailed : (perpstat name q now).failed = true := by
          cases h : ask q with
          | status payload => exact absurd h (hnone payload)
          | inactive => exact absurd h hina
          | noStat e | noDirectory | unwritten e | unread e | protocol | refused e | otherType =>
            simp [perpstat, h, Perpstat.failed]
        simp [hpanel, hfailed]
      · simp [hpanel, fun upsecs => hok upsecs hina]
      · have h0 := hok 0 hina
        simp only [hpanel]
        constructor
        · intro h
          exact absurd h (by decide)
        · intro h
          omega
      · have hu' := hok upsecs hina
        simp only [hpanel]
        constructor
        · intro h
          omega
        · intro h
          exact absurd h.1 (by decide)

/-- A query that is answered with the status of a service with a log -/
def answered : Asked where
  stat := .ok ⟨1, 2, true, true⟩
  writes := [.wrote 19]
  writeErrno := 0
  reads := [.data [2, 83, 66], .data (statusPayload (perpdStart (plain [])).sys running)]
  readErrno := 0

/-- The memory that `malloc()` gives -/
def unset : PerplsPanel.Svstat :=
  svstatInit ⟨.df, [], perpPanel, [], 0, 0, false, 0, 0, 0, ""⟩ []

theorem clients_agree_running :
    Agree unset [102, 111, 111] answered (.load 300 0) ∧
      (perpls unset [102, 111, 111] answered (.load 300 0)).panel.text = "[+ +++ !..]".toList := by
  have hpids : ∀ payload, ask answered = .status payload → PidsOk payload := by
    have hpayload : ask answered =
        .status (statusPayload (perpdStart (plain [])).sys running ++ List.replicate 189 0) := by
      decide +kernel
    intro payload h
    obtain rfl := Answer.status.inj (hpayload.symm.trans h)
    exact ⟨by decide +kernel, by decide +kernel⟩
  exact ⟨clients_agree unset [102, 111, 111] answered (.load 300 0) hpids, by decide +kernel⟩

end Perp.StatusVerdicts
