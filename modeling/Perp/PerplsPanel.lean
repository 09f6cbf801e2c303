import Perp.PerpctlControl
import Perp.StatusClients
import Perp.TainMath

set_option autoImplicit false

/-!
# The panel of perpls

What comes of a query, and what perpls makes of the answer, mark by mark:
`svstat_query()`, `svstat_unpack()` and `svstat_setcap()`.
-/
namespace Perp.PerplsPanel
open FlagByte Pkt PktOutcome PerpdState PerpdConn PerpdClient StatusClients TainMath

/-! ## The query -/

/-- A query, as far as the system has a hand in it: `stat()`, or its `errno`; the returns
of `write()` and `read()`, with the `errno` of a failure. -/
structure Asked where
  stat : Except UInt32 PerpctlControl.Stat
  writes : List WriteRet
  writeErrno : UInt32
  reads : List ReadRet
  readErrno : UInt32

/-- What has come of a query, in the order in which the three clients look for it -/
inductive Answer where
  | noStat (errno : UInt32)
  | noDirectory
  | inactive
  | unwritten (errno : UInt32)
  | unread (errno : UInt32)
  | protocol
  | refused (errno : UInt32)
  | otherType
  | status (payload : List UInt8)
  deriving DecidableEq, Repr

/-- The query packet, on its own buffer -/
def query (st : PerpctlControl.Stat) : List UInt8 :=
  queryRequest (st.dev, st.ino) ++ List.replicate (pktSize - 19) 0

def ask (q : Asked) : Answer :=
  match q.stat with
  | .error e => .noStat e
  | .ok st =>
    if ¬ st.isDir then .noDirectory
    else if ¬ st.sticky then .inactive
    else if (pktWrite q.writes (query st) 0).1 = -1 then .unwritten q.writeErrno
    else
      let r := pktRead q.reads (query st) 0
      if r.1 = -1 then .unread q.readErrno
      else if byteAt r.2 0 ≠ 2 then .protocol
      else if byteAt r.2 1 ≠ 83 then
        if byteAt r.2 1 = 69 then .refused (upak32Unpack (r.2.drop 3)) else .otherType
      else .status (pktData r.2)

/-! ## What there is to tell of one of the pair -/

/-- What a status says of a subservice, at some time after it. -/
inductive Condition where
  /-- No process. -/
  | down (wanted once : Bool)
  /-- Started less than a second before, and not for a reset. -/
  | starting (once : Bool)
  | alive (leaving resetting paused once : Bool)
  deriving DecidableEq, Repr

/-- The seconds that the clients reckon with -/
def age (v : SubsvStatus) (now : Tain) : UInt64 := uptime now v.when

def conditionAt (v : SubsvStatus) (age : UInt64) : Condition :=
  if v.pid = 0 then .down (!has v.flags SubsvFlag.wantdown) (has v.flags SubsvFlag.isonce)
  else if age < 1 ∧ has v.flags SubsvFlag.isreset = false then
    .starting (has v.flags SubsvFlag.isonce)
  else .alive (has v.flags SubsvFlag.wantdown) (has v.flags SubsvFlag.isreset)
    (has v.flags SubsvFlag.ispaused) (has v.flags SubsvFlag.isonce)

def condition (v : SubsvStatus) (now : Tain) : Condition := conditionAt v (age v now)

/-! ## The panel -/

/-- Three marks: `panel[3..5]`, or `panel[7..9]` -/
structure Marks where
  want : Char
  up : Char
  mode : Char
  deriving DecidableEq, Repr

/-- `PERP_PANEL`: the marks in `"[- --- ---]"` -/
structure Panel where
  state : Char
  main : Marks
  log : Marks
  deriving DecidableEq, Repr

def perpPanel : Panel := ⟨'-', ⟨'-', '-', '-'⟩, ⟨'-', '-', '-'⟩⟩

def Panel.text (p : Panel) : List Char :=
  ['[', p.state, ' ', p.main.want, p.main.up, p.main.mode, ' ', p.log.want, p.log.up, p.log.mode,
    ']']

/-- `enum cap_id` -/
inductive Cap where
  | df | na | an | ar | ap | ad | wu | wd | er | ex
  deriving DecidableEq, Repr

/-- `struct svstat` -/
structure Svstat where
  capId : Cap
  name : List UInt8
  panel : Panel
  binstat : List UInt8
  pidMain : ℤ
  uptimeMain : UInt64
  hasLog : Bool
  pidLog : ℤ
  uptimeLog : UInt64
  sysErrno : UInt32
  errmsg : String
  deriving DecidableEq, Repr

/-- `svstat_init()`: of the memory that it is given, `binstat` and `errmsg` are not set. -/
def svstatInit (raw : Svstat) (svdir : List UInt8) : Svstat :=
  { raw with
    capId := .na
    name := svdir
    panel := perpPanel
    pidMain := -1
    uptimeMain := 0
    hasLog := false
    pidLog := -1
    uptimeLog := 0
    sysErrno := 0 }

/-- `S->panel[1] = 'E'` and its reason -/
def fail (S : Svstat) (errno : UInt32) (errmsg : String) : Svstat :=
  { S with panel := { S.panel with state := 'E' }, sysErrno := errno, errmsg := errmsg }

def binstatSize : ℕ := 66

def svstatQuery (q : Asked) (S : Svstat) : Svstat :=
  let S := { S with sysErrno := 0 }
  match ask q with
  | .noStat e => fail S e "failure stat() on service directory"
  | .noDirectory => fail S eNOTDIR "not a directory"
  | .inactive => { S with panel := { S.panel with state := '-' } }
  | .unwritten e => fail S e "failure pkt_write() during status query"
  | .unread e => fail S e "failure pkt_read() during status query"
  | .protocol => fail S ePROTO "unknown packet protocol in status reply"
  | .refused e => fail S e "error reported in status reply"
  | .otherType => fail S ePROTO "unknown packet type in status reply"
  | .status payload =>
    { S with panel := { S.panel with state := '+' }, binstat := payload.take binstatSize }

/-- One of the pair: the process that is shown, and the marks -/
def subsvMarks (v : SubsvStatus) (age : UInt64) : ℤ × Marks :=
  let c := if v.pid ≠ 0 then '+' else '.'
  let m : Marks := ⟨c, c, c⟩
  let m :=
    if (v.pid = 0 ∧ has v.flags SubsvFlag.wantdown = false) ∨
        (v.pid ≠ 0 ∧ has v.flags SubsvFlag.wantdown = true) then { m with want := '!' }
    else m
  if v.pid > 0 then
    let m := if has v.flags SubsvFlag.isonce then { m with up := 'o' } else m
    let m := if has v.flags SubsvFlag.ispaused then { m with mode := 'p' } else m
    let m := if has v.flags SubsvFlag.isreset then { m with mode := 'r' } else m
    if age < 1 ∧ has v.flags SubsvFlag.isreset = false then (0, ⟨'!', '.', '.'⟩) else (v.pid, m)
  else (v.pid, m)

/-- The flags of the service -/
def Svstat.setFlags (S : Svstat) (flags : UInt8) : Svstat :=
  let S :=
    if has flags SvdefFlag.cull then
      { S with panel :=
        { S.panel with state := if has flags SvdefFlag.cycle then 'R' else '!' } }
    else S
  { S with hasLog := has flags SvdefFlag.haslog }

def Svstat.setMain (S : Svstat) (age : UInt64) (m : ℤ × Marks) : Svstat :=
  { S with pidMain := m.1, uptimeMain := age, panel := { S.panel with main := m.2 } }

def Svstat.setLog (S : Svstat) (age : UInt64) (m : ℤ × Marks) : Svstat :=
  { S with pidLog := m.1, uptimeLog := age, panel := { S.panel with log := m.2 } }

def svstatUnpack (S : Svstat) (now : Tain) : Svstat :=
  if S.panel.state = 'E' ∨ S.panel.state = '-' then S
  else
    let f := svstatFields S.binstat
    let S := (S.setFlags f.flags).setMain (age f.main now) (subsvMarks f.main (age f.main now))
    f.log.elim S fun log => S.setLog (age log now) (subsvMarks log (age log now))

def panelCap (panel : Panel) : Cap :=
  if panel.state = 'E' then .er
  else if panel.state = '!' ∨ panel.state = 'R' then .ex
  else if panel.state = '-' then .na
  else if panel.state ≠ '+' then .er
  else if panel.main.want = '!' then if panel.main.up = '.' then .wu else .wd
  else if panel.log.want = '!' then if panel.log.up = '.' then .wu else .wd
  else if panel.main.up = '.' then .ad
  else if panel.main.mode = 'p' then .ap
  else if panel.main.mode = 'r' then .ar
  else .an

def svstatSetcap (S : Svstat) : Svstat := { S with capId := panelCap S.panel }

/-! ## What a panel tells -/

def Condition.marks : Condition → Marks
  | .down wanted _ => ⟨if wanted then '!' else '.', '.', '.'⟩
  | .starting _ => ⟨'!', '.', '.'⟩
  | .alive leaving resetting paused once =>
    ⟨if leaving then '!' else '+', if once then 'o' else '+',
      if resetting then 'r' else if paused then 'p' else '+'⟩

/-- A condition that is not what it should be -/
def Condition.attention : Condition → Option Cap
  | .down true _ => some .wu
  | .down false _ => none
  | .starting _ => some .wu
  | .alive true _ _ _ => some .wd
  | .alive false _ _ _ => none

def Condition.mode : Condition → Cap
  | .down _ _ => .ad
  | .starting _ => .ad
  | .alive _ true _ _ => .ar
  | .alive _ false true _ => .ap
  | .alive _ false false _ => .an

/-- What a status tells: of the service, whether it is culled, and then whether it
is to come back; and of the pair -/
structure Told where
  culled : Option Bool
  main : Condition
  log : Option Condition
  deriving DecidableEq, Repr

def told (status : List UInt8) (now : Tain) : Told :=
  let f := svstatFields status
  { culled := if has f.flags SvdefFlag.cull then some (has f.flags SvdefFlag.cycle) else none
    main := condition f.main now
    log := f.log.map (condition · now) }

def Told.panel (t : Told) : Panel where
  state := t.culled.elim '+' fun back => if back then 'R' else '!'
  main := t.main.marks
  log := t.log.elim ⟨'-', '-', '-'⟩ Condition.marks

def Told.cap (t : Told) : Cap :=
  if t.culled.isSome then .ex
  else (t.main.attention.orElse fun _ => t.log.bind Condition.attention).getD t.main.mode

theorem Told.panel_main (t : Told) : t.panel.main = t.main.marks := rfl

theorem told_main (status : List UInt8) (now : Tain) :
    (told status now).main = condition (svstatFields status).main now := by
  simp only [told]

/-- The `pid_t`s of a status are not negative. -/
def PidsOk (status : List UInt8) : Prop :=
  0 ≤ (subsvAt status 30 34 46).pid ∧ 0 ≤ (subsvAt status 48 52 64).pid

section
variable {v : SubsvStatus} {now : Tain}

/-- The process that is shown: none, for one that has just been started -/
def shown (v : SubsvStatus) (now : Tain) : ℤ :=
  match condition v now with
  | .starting _ => 0
  | _ => v.pid

theorem subsvMarks_condition (h : 0 ≤ v.pid) :
    subsvMarks v (age v now) = (shown v now, (condition v now).marks) := by
  unfold subsvMarks shown condition conditionAt
  by_cases h0 : v.pid = 0
  · simp only [h0]
    cases has v.flags SubsvFlag.wantdown <;> simp [Condition.marks]
  · have hpos : 0 < v.pid := by omega
    by_cases hyoung : age v now < 1 ∧ has v.flags SubsvFlag.isreset = false
    · simp [h0, hpos, hyoung, Condition.marks]
    · simp only [h0, hpos, hyoung]
      cases has v.flags SubsvFlag.wantdown <;> cases has v.flags SubsvFlag.isonce <;>
        cases has v.flags SubsvFlag.ispaused <;> cases has v.flags SubsvFlag.isreset <;>
        simp [Condition.marks, h0]

theorem marks_attention {c : Condition} (h : c.marks.want = '!') :
    c.attention = some (if c.marks.up = '.' then .wu else .wd) := by
  rcases c with ⟨_ | _, _⟩ | _ | ⟨_ | _, _, _, _ | _⟩ <;>
    simp_all [Condition.marks, Condition.attention]

theorem marks_none {c : Condition} (h : ¬ c.marks.want = '!') : c.attention = none := by
  rcases c with ⟨_ | _, _⟩ | _ | ⟨_ | _, _, _, _⟩ <;>
    simp_all [Condition.marks, Condition.attention]

theorem marks_mode (c : Condition) :
    (if c.marks.up = '.' then Cap.ad else if c.marks.mode = 'p' then .ap
      else if c.marks.mode = 'r' then .ar else .an) = c.mode := by
  rcases c with _ | _ | ⟨_, _ | _, _ | _, _ | _⟩ <;> simp [Condition.marks, Condition.mode]

end

theorem panelCap_plus (m l : Marks) : panelCap ⟨'+', m, l⟩ =
    if m.want = '!' then if m.up = '.' then .wu else .wd
    else if l.want = '!' then if l.up = '.' then .wu else .wd
    else if m.up = '.' then .ad
    else if m.mode = 'p' then .ap
    else if m.mode = 'r' then .ar
    else .an := rfl

theorem panelCap_told (t : Told) : panelCap t.panel = t.cap := by
  obtain ⟨culled, main, log⟩ := t
  cases culled with
  | some back => cases back <;> rfl
  | none =>
    have hpanel : Told.panel ⟨none, main, log⟩ =
        ⟨'+', main.marks, log.elim ⟨'-', '-', '-'⟩ Condition.marks⟩ := rfl
    have hcap : Told.cap ⟨none, main, log⟩ =
        (main.attention.orElse fun _ => log.bind Condition.attention).getD main.mode := rfl
    rw [hpanel, panelCap_plus, hcap]
    by_cases hmain : main.marks.want = '!'
    · rw [if_pos hmain, marks_attention hmain]
      rfl
    · rw [if_neg hmain, marks_none hmain, marks_mode]
      cases log with
      | none => rfl
      | some log =>
        by_cases hlog : log.marks.want = '!'
        · rw [Option.elim_some, if_pos hlog, Option.bind_some, marks_attention hlog]
          rfl
        · rw [Option.elim_some, if_neg hlog, Option.bind_some, marks_none hlog]
          rfl

end Perp.PerplsPanel
