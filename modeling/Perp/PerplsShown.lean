import Perp.PerpdSupervise
import Perp.StatusVerdicts

set_option autoImplicit false

/-!
# What is shown of a service

A run of perpd, a query of one of its services, and the panel that perpls makes
of the answer: the marks against the table and the children.
-/
namespace Perp.PerplsShown
open FlagByte Pkt PktOutcome PerpdState PerpdConn PerpdMainloop PerpdClient PerpdMoves PerpdPhases
open PerpdRuns
  PerpdService PerpdRequests PerpdReplies PerpdLife PerpdSupervise StatusClients PerplsPanel
  StatusVerdicts
open PerpctlControl (received reading_congr)

/-- The query packet of a service has come to perpd, which has answered it as it
stands, and the answer has come back. -/
structure Asks (p : Perpd) (sd : Svdef) (q : Asked) (c : Conn) : Prop where
  stat : q.stat = .ok ⟨sd.dev, sd.ino, true, true⟩
  sent : (pktWrite q.writes (query ⟨sd.dev, sd.ino, true, true⟩) 0).1 ≠ -1
  length : c.n = 19
  arrived : c.pkt.take c.n = queryRequest sd.key
  answered : received q.reads = ((perpdConnExec p.sys p.svdefs c).2.pkt.take
    (perpdConnExec p.sys p.svdefs c).2.n, .whole)

/-- The marks of one of the pair -/
def Panel.marks (m : Panel) : Which → Marks
  | .main => m.main
  | .log => m.log

/-- The marks are true of the table and of the children that are not reaped. -/
structure Shown (p : Perpd) (sd : Svdef) (now : Tain) (m : Panel) : Prop where
  state : m.state = if sd.has .cull then if sd.has .cycle then 'R' else '!' else '+'
  /-- What is shown as running is a child of perpd. -/
  running : ∀ w, (Panel.marks m w).up = '+' ∨ (Panel.marks m w).up = 'o' →
    p.sys.children (sd.sv w).pid = some (sd.key, w)
  /-- What is shown as not running has no child, or one that has only just been started. -/
  down : ∀ w, Present sd w → (Panel.marks m w).up = '.' →
    (∀ n, p.sys.children n ≠ some (sd.key, w)) ∨
      TainMath.uptime now (sd.sv w).when < 1 ∧ (sd.sv w).has .isreset = false
  /-- What is to be down is marked, as long as it runs. -/
  leaving : ∀ w, Present sd w → (sd.sv w).has .wantdown = true →
    (Panel.marks m w).want = '!' ∨ ∀ n, p.sys.children n ≠ some (sd.key, w)
  /-- What is neither running nor marked is to be down. -/
  idle : ∀ w, Present sd w → (Panel.marks m w).want = '.' → (sd.sv w).has .wantdown = true
  /-- What is marked and has no child could not be forked. -/
  owed : ∀ w, Present sd w → (Panel.marks m w).want = '!' →
    (∀ n, p.sys.children n ≠ some (sd.key, w)) → (sd.sv w).has .failing = true
  nolog : m.log = ⟨'-', '-', '-'⟩ ↔ sd.has .haslog = false

section
variable {p : Perpd} {sd : Svdef} {q : Asked} {c : Conn}

theorem lookup_of_mem {svdefs : List Svdef} (hn : (svdefs.map Svdef.key).Nodup)
    (h : sd ∈ svdefs) : (perpdLookup svdefs sd.dev sd.ino).bind (svdefs[·]?) = some sd := by
  cases hl : perpdLookup svdefs sd.dev sd.ino with
  | none => exact absurd (List.mem_map_of_mem h) (lookup_eq_none hl)
  | some i =>
    obtain ⟨x, hi, hkey⟩ := lookup_some hl
    obtain ⟨j, hj⟩ := List.getElem?_of_mem h
    have hij : j = i := by
      by_contra hne
      exact key_ne_of_ne hn hi hj hne hkey
    rw [hij] at hj
    exact hj

theorem asks_queries (h : Asks p sd q c) (hn : (p.svdefs.map Svdef.key).Nodup)
    (hsd : sd ∈ p.svdefs) : Queries c.pkt c.n p.svdefs sd := by
  have hpkt : c.pkt = queryRequest sd.key ++ c.pkt.drop 19 := by
    have harrived := h.arrived
    rw [h.length] at harrived
    rw [← harrived, List.take_append_drop]
  have hkey : ctlKey c.pkt = sd.key := by
    have hparts : ctlKey c.pkt =
        (upak64Unpack (upak64Pack sd.dev ++ (upak64Pack sd.ino ++ c.pkt.drop 19)),
          upak64Unpack (upak64Pack sd.ino ++ c.pkt.drop 19)) := by
      rw [hpkt]
      rfl
    rw [hparts, upak64Unpack_pack, upak64Unpack_pack]
    rfl
  have hlen : pktLen c.pkt = 19 := by
    rw [hpkt]
    rfl
  refine ⟨⟨?_, ?_, h.length, hlen.trans h.length.symm⟩, ?_⟩
  · rw [hpkt]
    rfl
  · rw [hpkt]
    rfl
  · rw [hkey]
    exact lookup_of_mem hn hsd

theorem query_length (st : PerpctlControl.Stat) : (query st).length = pktSize := by
  rw [query, List.length_append, List.length_replicate]
  rfl

/-- The client has the status as perpd has put it together. -/
theorem asks_status (h : Asks p sd q c) (hn : (p.svdefs.map Svdef.key).Nodup)
    (hsd : sd ∈ p.svdefs) :
    ∃ s rest, s.myPid = p.sys.myPid ∧ s.myWhen = p.sys.myWhen ∧
      ask q = .status (statusPayload s sd ++ rest) := by
  let s := p.sys.emit (.request (c.pkt.take c.n))
  have hexec := exec_queries p.sys (asks_queries h hn hsd)
  have hgot : received q.reads = (statusPacket s sd, .whole) := by
    rw [h.answered, hexec, (statusReply_replied s sd c).pkt]
  have hread : pktRead q.reads (query ⟨sd.dev, sd.ino, true, true⟩) 0 =
      (ReadStop.whole.ret 0 (statusPacket s sd).length,
        bufWrite (query ⟨sd.dev, sd.ino, true, true⟩) 0 (statusPacket s sd)) := by
    have hsame : PktOutcome.reading q.reads (query ⟨sd.dev, sd.ino, true, true⟩) 0 =
        received q.reads :=
      reading_congr (query_length _) List.length_replicate (Nat.zero_le _) rfl
    rw [pktRead_eq q.reads (query_length _) (Nat.zero_le _), hsame, hgot, Nat.zero_add]
  refine ⟨s, (query ⟨sd.dev, sd.ino, true, true⟩).drop 69, rfl, rfl, ?_⟩
  have hbuf : bufWrite (query ⟨sd.dev, sd.ino, true, true⟩) 0 (statusPacket s sd) =
      2 :: 83 :: 66 :: (statusPayload s sd ++ (query ⟨sd.dev, sd.ino, true, true⟩).drop 69) := by
    simp [bufWrite, statusPacket, statusPayload_length]
  have hret : ReadStop.whole.ret 0 (statusPacket s sd).length ≠ -1 := by
    simp [ReadStop.ret]
  simp only [ask, h.stat, hread, hbuf]
  rw [if_neg (by simp), if_neg (by simp), if_neg h.sent, if_neg hret]
  rfl

/-- What the client reads is the table's. -/
theorem asks_fields (h : Asks p sd q c) (hn : (p.svdefs.map Svdef.key).Nodup) (hsd : sd ∈ p.svdefs)
    (hpid : ∀ w, (sd.sv w).pid < 2 ^ 31) :
    ∃ payload, ask q = .status payload ∧ PidsOk payload ∧ svstatFields payload =
      ⟨sd.bitflags, recorded sd.svMain,
        if sd.has .haslog then some (recorded sd.svLog) else none⟩ := by
  obtain ⟨s, rest, -, -, hask⟩ := asks_status h hn hsd
  have hlen : (statusPayload s sd).length = binstatSize := statusPayload_length s sd
  have htake : (statusPayload s sd ++ rest).take binstatSize = statusPayload s sd := by
    rw [← hlen, List.take_left]
  have hmain : subsvAt (statusPayload s sd ++ rest) 30 34 46 = recorded sd.svMain := by
    rw [← subsvAt_take _ (by decide) (by decide) (by decide), ← binstatSize, htake]
    exact subsvAt_main s sd (hpid .main)
  have hlog : subsvAt (statusPayload s sd ++ rest) 48 52 64 =
      if sd.has .haslog then recorded sd.svLog else ⟨0, .zero, 0⟩ := by
    rw [← subsvAt_take _ (by decide) (by decide) (by decide), ← binstatSize, htake]
    exact subsvAt_log s sd (hpid .log)
  have hflags : byteAt (statusPayload s sd ++ rest) 28 = sd.bitflags := rfl
  refine ⟨_, hask, ⟨?_, ?_⟩, ?_⟩
  · rw [hmain]
    exact Int.natCast_nonneg _
  · rw [hlog]
    split
    · exact Int.natCast_nonneg _
    · exact le_refl _
  · simp only [svstatFields, hmain, hflags, hlog]
    by_cases hl : sd.has .haslog = true
    · have hl' : has sd.bitflags SvdefFlag.haslog = true := hl
      rw [if_pos hl', if_pos hl, if_pos hl]
    · have hl' : ¬ has sd.bitflags SvdefFlag.haslog = true := hl
      rw [if_neg hl', if_neg hl]

end

/-! ## The marks of a record -/

section
variable {u : Subsv} {now : Tain}

theorem recorded_running (h : (condition (recorded u) now).marks.up = '+' ∨
    (condition (recorded u) now).marks.up = 'o') : 0 < u.pid := by
  by_contra h0
  have hpid : (recorded u).pid = 0 := by
    simp only [recorded]
    omega
  rw [condition, conditionAt, if_pos hpid] at h
  revert h
  cases has (recorded u).flags SubsvFlag.wantdown <;> simp [Condition.marks]

theorem recorded_down (h : (condition (recorded u) now).marks.up = '.') :
    u.pid = 0 ∨ TainMath.uptime now u.when < 1 ∧ u.has .isreset = false := by
  by_cases hpid : (recorded u).pid = 0
  · exact .inl (by simpa [recorded] using hpid)
  · rw [condition, conditionAt, if_neg hpid] at h
    by_cases hyoung : age (recorded u) now < 1 ∧ has (recorded u).flags SubsvFlag.isreset = false
    · exact .inr hyoung
    · rw [if_neg hyoung] at h
      revert h
      cases has (recorded u).flags SubsvFlag.isonce <;> simp [Condition.marks]

theorem recorded_leaving (h : u.has .wantdown = true) :
    (condition (recorded u) now).marks.want = '!' ∨ u.pid = 0 := by
  have hflag : has (recorded u).flags SubsvFlag.wantdown = true := h
  by_cases hpid : (recorded u).pid = 0
  · exact .inr (by simpa [recorded] using hpid)
  · refine .inl ?_
    rw [condition, conditionAt, if_neg hpid, hflag]
    split <;> simp [Condition.marks]

theorem recorded_idle (h : (condition (recorded u) now).marks.want = '.') :
    u.has .wantdown = true := by
  change has (recorded u).flags SubsvFlag.wantdown = true
  revert h
  rw [condition, conditionAt]
  split
  · cases has (recorded u).flags SubsvFlag.wantdown <;> simp [Condition.marks]
  · split
    · simp [Condition.marks]
    · cases has (recorded u).flags SubsvFlag.wantdown <;> simp [Condition.marks]

theorem recorded_owed (h : (condition (recorded u) now).marks.want = '!') (hpid : u.pid = 0) :
    u.has .wantdown = false := by
  have h0 : (recorded u).pid = 0 := by simp [recorded, hpid]
  change has (recorded u).flags SubsvFlag.wantdown = false
  rw [condition, conditionAt, if_pos h0] at h
  revert h
  cases has (recorded u).flags SubsvFlag.wantdown <;> simp [Condition.marks]

theorem marks_dashes (c : Condition) : c.marks ≠ ⟨'-', '-', '-'⟩ := by
  rcases c with ⟨_ | _, _⟩ | _ | ⟨_ | _, _, _, _⟩ <;> simp [Condition.marks]

end

/-- In every run what perpls shows of a service, once it has been answered, is true:
of the service, and of each of the pair. -/
theorem service_shown (cfg : Config) (inputs : List IterIn) {sd : Svdef} {q : Asked} {c : Conn}
    (raw : PerplsPanel.Svstat) (name : List UInt8) (now : Tain)
    (hsd : sd ∈ (perpdRun cfg inputs).svdefs) (hpid : ∀ w, (sd.sv w).pid < 2 ^ 31)
    (hasks : Asks (perpdRun cfg inputs) sd q c) :
    Shown (perpdRun cfg inputs) sd now (perpls raw name q now).panel := by
  have hok := (run_phase cfg inputs).ok.ok
  have hsv := hok.ok sd hsd
  obtain ⟨payload, hask, hpids, hfields⟩ := asks_fields hasks hok.nodup hsd hpid
  obtain ⟨hpanel, -⟩ := perpls_status raw name now hask hpids
  have htold : told payload now = ⟨if has sd.bitflags SvdefFlag.cull then
      some (has sd.bitflags SvdefFlag.cycle) else none, condition (recorded sd.svMain) now,
      if sd.has .haslog then some (condition (recorded sd.svLog) now) else none⟩ := by
    simp only [told, hfields]
    cases sd.has .haslog <;> rfl
  have hmarks : ∀ w, Present sd w →
      Panel.marks (told payload now).panel w = (condition (recorded (sd.sv w)) now).marks := by
    intro w hw
    rw [htold]
    cases w with
    | main => rfl
    | log =>
      rw [hw rfl]
      rfl
  have hlog : sd.has .haslog = false →
      (told payload now).panel.log = ⟨'-', '-', '-'⟩ := by
    intro hl
    rw [htold, hl]
    rfl
  have hchild : ∀ w, (sd.sv w).pid = 0 →
      ∀ n, (perpdRun cfg inputs).sys.children n ≠ some (sd.key, w) := by
    intro w h0 n hn
    obtain ⟨hpos, hpid⟩ := hsv.slot n w hn
    omega
  rw [hpanel]
  refine ⟨?_, fun w hup => ?_, fun w hw hup => ?_, fun w hw hdown => ?_, fun w hw hwant => ?_,
    fun w hw hwant hnone => ?_, ?_⟩
  · rw [htold]
    by_cases hc : has sd.bitflags SvdefFlag.cull = true <;>
      by_cases hy : has sd.bitflags SvdefFlag.cycle = true <;>
      simp [Told.panel, Svdef.has, hc, hy]
  · apply hsv.owned
    by_cases hw : Present sd w
    · rw [hmarks w hw] at hup
      exact recorded_running hup
    · obtain ⟨rfl, hl⟩ : w = .log ∧ sd.has .haslog = false := by
        simpa [Present] using hw
      have hdash : Panel.marks (told payload now).panel .log = ⟨'-', '-', '-'⟩ := hlog hl
      rw [hdash] at hup
      simp at hup
  · rw [hmarks w hw] at hup
    rcases recorded_down hup with h0 | hyoung
    · exact .inl (hchild w h0)
    · exact .inr hyoung
  · rw [hmarks w hw]
    rcases recorded_leaving hdown with h | h0
    · exact .inl h
    · exact .inr (hchild w h0)
  · rw [hmarks w hw] at hwant
    exact recorded_idle hwant
  · rw [hmarks w hw] at hwant
    have h0 : (sd.sv w).pid = 0 := by
      by_contra hne
      exact hnone _ (hsv.owned w (by omega))
    rcases wanted_up cfg inputs hsd hw (recorded_owed hwant h0) with hrun | hfail
    · exact absurd hrun (hnone _)
    · exact hfail
  · refine ⟨fun hdash => ?_, hlog⟩
    by_contra hl
    have hw : Present sd .log := fun _ => by simpa using hl
    have h := hmarks .log hw
    rw [show Panel.marks (told payload now).panel .log = _ from hdash] at h
    exact marks_dashes _ h.symm

/-- perpd with the service `foo` -/
def fooUp : Perpd := perpdRun (plain [some 100]) [scans quiet [foo]]

/-- The connection on which the query for `foo` is read -/
def fooConn : Conn :=
  ⟨some 9, .zero, .reading, queryRequest (1, 2) ++ List.replicate (pktSize - 19) 0, 19, 0⟩

/-- perpls's side of it -/
def fooAsked : Asked where
  stat := .ok ⟨1, 2, true, true⟩
  writes := [.wrote 19]
  writeErrno := 0
  reads :=
    let reply := (perpdConnExec fooUp.sys fooUp.svdefs fooConn).2.pkt.take 69
    [.data (reply.take 3), .data (reply.drop 3)]
  readErrno := 0

theorem service_shown_foo :
    ∃ sd, fooUp.svdefs = [sd] ∧
      Shown fooUp sd (.load 10 0) (perpls unset [102, 111, 111] fooAsked (.load 10 0)).panel := by
  have hlen : fooUp.svdefs.length = 1 := by decide +kernel
  obtain ⟨sd, hsd⟩ := List.length_eq_one_iff.mp hlen
  have hmem : sd ∈ fooUp.svdefs := by simp [hsd]
  have hkeys : ∀ x ∈ fooUp.svdefs,
      x.key = (1, 2) ∧ x.svMain.pid < 2 ^ 31 ∧ x.svLog.pid < 2 ^ 31 := by
    decide +kernel
  obtain ⟨hkey, hmain, hlog⟩ := hkeys sd hmem
  have hdev : sd.dev = 1 := congrArg Prod.fst hkey
  have hino : sd.ino = 2 := congrArg Prod.snd hkey
  refine ⟨sd, hsd, service_shown (plain [some 100]) [scans quiet [foo]] (c := fooConn) unset
    [102, 111, 111] (.load 10 0) hmem (fun w => ?_) ⟨?_, ?_, rfl, ?_, by decide +kernel⟩⟩
  · cases w with
    | main => exact hmain
    | log => exact hlog
  · rw [hdev, hino]
    rfl
  · rw [hdev, hino]
    decide +kernel
  · rw [hkey]
    decide

end Perp.PerplsShown
