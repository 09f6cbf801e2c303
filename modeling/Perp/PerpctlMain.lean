import Perp.OptionLoop
import Perp.PerpctlControl
import Perp.PerpdReplies
import Perp.Runlimit

set_option autoImplicit false

/-!
# From the shell to the service

`main()` of `perpctl`, and what perpd makes of the request that it ends in.
-/
namespace Perp.PerpctlMain
open Cstr (Text)
open Nextopt (Opt Final Seen parse)
open OptionLoop
open Refusal
open Runlimit (Fatal optError)
open Pkt PktOutcome PerpdState PerpdSvdef PerpdConn PerpdMainloop PerpdClient PerpdRequests
  PerpdReplies PerpctlControl

/-! ## The program -/

structure Opts where
  basedir : Option (List UInt8)
  optG : ℕ
  optL : ℕ
  optQ : ℕ
  deriving DecidableEq, Repr

/-- How the program ends before it does anything -/
inductive Stop where
  | fatal (e : Fatal)
  /-- `eputs(progname, ": usage error: missing arguments")` -/
  | missing
  deriving DecidableEq, Repr

structure Input where
  prog : Text
  args : List Text
  getenv : List UInt8 → Option Text
  /-- does `chdir()` succeed? -/
  chdir : List UInt8 → Bool

/-- What `main()` goes on to -/
inductive Plan where
  /-- `do_sticky()`: the sticky bit is set, or cleared -/
  | sticky (on : Bool)
  /-- `do_control()` -/
  | control (cmd flags : UInt8)
  deriving DecidableEq, Repr

/-- `":hVb:gLq"` -/
def optlist : List UInt8 := [58, 104, 86, 98, 58, 103, 76, 113]

def optCase (e : Seen) (st : Opts) : Res Stop Opts :=
  if e.ret = 104 ∨ e.ret = 86 then .stopped (.fatal (.exit 0))
  else if e.ret = 98 then Res.reading e.arg fun arg => .ok { st with basedir := some arg }
  else if e.ret = 103 then .ok { st with optG := st.optG + 1 }
  else if e.ret = 76 then .ok { st with optL := st.optL + 1 }
  else if e.ret = 113 then .ok { st with optQ := st.optQ + 1 }
  else .stopped (.fatal (optError e))

/-- `d`, `u`, `o`, `p`, `c`, `a`, `h`, `i`, `k`, `q`, `t`, `w`, `1` and `2` -/
def plainCommands : List UInt8 :=
  [100, 117, 111, 112, 99, 97, 104, 105, 107, 113, 116, 119, 49, 50]

/-- `D` and `U` -/
def metaCommands : List UInt8 := [68, 85]

/-- The `switch` on the first letter of the command -/
def command (st : Opts) (word : List UInt8) : Res Stop Plan :=
  let cmd := word.headD 0
  if cmd = 65 then .ok (.sticky true)
  else if cmd = 88 then .ok (.sticky false)
  else if cmd ∈ plainCommands then
    .ok (.control cmd (if st.optL ≠ 0 then svcmdFlagLog else 0))
  else if cmd ∈ metaCommands then
    if st.optL ≠ 0 then .stopped (.fatal (.usage [.text "meta-command '", .str word,
      .text "' may not be used with option -L"]))
    else .ok (.control cmd 0)
  else .stopped (.fatal (.usage [.text "unknown control command '", .str word, .text "'"]))

/-- `"PERP_BASE"` -/
def baseName : List UInt8 := [80, 69, 82, 80, 95, 66, 65, 83, 69]

/-- The base directory: of the option, else of the environment; `.` if that is nothing -/
def basedir (i : Input) (st : Opts) : List UInt8 :=
  let base := (st.basedir.orElse fun _ => (i.getenv baseName).map Text.bytes).getD []
  if base = [] then [46] else base

/-- `killpg()` is asked for after the rest. -/
def withKillpg (st : Opts) : Plan → Plan
  | .sticky on => .sticky on
  | .control cmd flags => .control cmd (if st.optG ≠ 0 then flags ||| svcmdFlagKillpg else flags)

/-- What follows the options: the plan, the base directory and the services -/
def afterOptions (i : Input) (out : Opts × List (List UInt8)) :
    Res Stop (Opts × Plan × List UInt8 × List (List UInt8)) :=
  match out.2 with
  | [] => .stopped .missing
  | word :: services =>
    (command out.1 word).bind fun plan =>
      if services = [] then
        .stopped (.fatal (.usage [.text "missing argument: no service(s) specified"]))
      else
        let base := basedir i out.1
        if i.chdir base then .ok (out.1, withKillpg out.1 plan, base, services)
        else .stopped (.fatal (.syserr [.text "unable to chdir() to ", .str base]))

def main (i : Input) : Res Stop (Opts × Plan × List UInt8 × List (List UInt8)) :=
  (options optCase ⟨optlist, by decide⟩ i.prog i.args ⟨none, 0, 0, 0⟩).bind (afterOptions i)

/-! ## What is asked for -/

def cmdline (i : Input) : List Opt × Final := parse optlist (i.args.map Text.bytes)

/-- Is the option given? -/
def given (i : Input) (letter : UInt8) : Bool := (cmdline i).1.any (·.1 = letter)

/-- The command line is one that perpctl carries to perpd: for the subservices
of these directories. -/
structure Asks (i : Input) (cmd : UInt8) (services : List (List UInt8)) : Prop where
  letters : ∀ o ∈ (cmdline i).1, ¬ (o.1 = 104 ∨ o.1 = 86)
  operands : ∃ word, (cmdline i).2 = .operands (word :: services) ∧ word.headD 0 = cmd

/-- The request has arrived, and nothing else. -/
def Arrived (o : Options) (dir : PerpctlControl.Stat) (c : Conn) : Prop :=
  c.n = 21 ∧ c.pkt.take c.n = ctlRequest (dir.dev, dir.ino) o.cmd o.flags

/-- What perpd has answered has come back. -/
def Answered (sv : Service) (c : Conn) : Prop :=
  received sv.reads = (c.pkt.take c.n, .whole)

/-- perpd keeps the service, and is not about to drop it. -/
def Kept (svdefs : List Svdef) (dir : PerpctlControl.Stat) (j : ℕ) (sd : Svdef) : Prop :=
  perpdLookup svdefs dir.dev dir.ino = some j ∧ svdefs[j]? = some sd ∧ sd.has .cull = false

/-- What has become of a request: perpctl says that it is done exactly where
perpd has done it, to the one of the pair that was meant; and where it is not
done, nothing is. -/
structure Carried (i : Input) (cmd : UInt8) (o : Options) (dir : PerpctlControl.Stat)
    (sv : Service) (s : Sys)
    (svdefs : List Svdef) (c : Conn) : Prop where
  said : serviceReport o sv = .ok ↔ ∃ j sd, Kept svdefs dir j sd
  done : ∃ command, Cmd.ofByte cmd = some command ∧ ∀ j sd, Kept svdefs dir j sd →
    let s0 := s.emit (.request (c.pkt.take c.n))
    let d := PerpdConn.doControl s0 sd (if given i 76 then .log else .main) command (given i 103)
    (perpdConnExec s svdefs c).1 = (d.1, svdefs.set j d.2)
  idle : (¬ ∃ j sd, Kept svdefs dir j sd) →
    (perpdConnExec s svdefs c).1 = (s.emit (.request (c.pkt.take c.n)), svdefs)

/-! ## The options -/

section
variable {i : Input}

theorem optCase_stops : Stops optCase := by
  rintro ⟨ret, got, arg⟩ st (rfl | rfl)
  · exact ⟨_, rfl⟩
  · exact ⟨_, rfl⟩

theorem option_letters {c : UInt8} {b : Bool} (h : Nextopt.takes optlist c = some b) :
    (c = 104 ∨ c = 86 ∨ c = 103 ∨ c = 76 ∨ c = 113) ∧ b = false ∨ c = 98 ∧ b = true :=
  Nextopt.takes_all
    (P := fun c b =>
      (c = 104 ∨ c = 86 ∨ c = 103 ∨ c = 76 ∨ c = 113) ∧ b = false ∨ c = 98 ∧ b = true)
    (by decide) h

/-- Whether `-g` and `-L` have been seen -/
def seen (st : Opts) : Bool × Bool := (decide (st.optG ≠ 0), decide (st.optL ≠ 0))

theorem optCase_steps : Steps optCase ⟨optlist, by decide⟩ (fun _ o => o.1 = 104 ∨ o.1 = 86)
    (fun b o => (b.1 || o.1 = 103, b.2 || o.1 = 76)) fun st b => seen st = b := by
  rintro st _ ⟨c, arg⟩ h rfl
  rcases option_letters h with ⟨rfl | rfl | rfl | rfl | rfl, -⟩ | ⟨rfl, hsome⟩
  · exact Res.meets_stopped _ (.inl rfl)
  · exact Res.meets_stopped _ (.inr rfl)
  · exact Res.meets_ok (by simp) (by simp [seen])
  · exact Res.meets_ok (by simp) (by simp [seen])
  · exact Res.meets_ok (by simp) (by simp [seen])
  · obtain ⟨value, rfl⟩ : ∃ value, arg = some value := Option.isSome_iff_exists.mp hsome
    exact Res.meets_ok (by simp) (by simp [seen])

theorem foldl_seen (os : List Opt) (b : Bool × Bool) :
    os.foldl (fun b o => (b.1 || decide (o.1 = 103), b.2 || decide (o.1 = 76))) b =
      (b.1 || os.any (·.1 = 103), b.2 || os.any (·.1 = 76)) := by
  induction os generalizing b with
  | nil => simp
  | cons o os ih =>
    rw [List.foldl_cons, ih, List.any_cons, List.any_cons, Bool.or_assoc, Bool.or_assoc]

/-- The letters that are sent are letters that perpd knows. -/
theorem command_known {st : Opts} {word : List UInt8} {cmd flags : UInt8}
    (h : command st word = .ok (.control cmd flags)) :
    word.headD 0 = cmd ∧ (∃ c, Cmd.ofByte cmd = some c) ∧
      flags = if st.optL ≠ 0 then svcmdFlagLog else 0 := by
  have hplain : ∀ c ∈ plainCommands, (Cmd.ofByte c).isSome := by decide +kernel
  have hmeta : ∀ c ∈ metaCommands, (Cmd.ofByte c).isSome := by decide +kernel
  unfold command at h
  dsimp only at h
  split at h
  · cases h
  split at h
  · cases h
  split at h
  · next hmem =>
    obtain ⟨rfl, rfl⟩ := Plan.control.inj (Res.ok.inj h)
    exact ⟨rfl, Option.isSome_iff_exists.mp (hplain _ hmem), rfl⟩
  split at h
  · next hmem =>
    split at h
    · cases h
    · next hL =>
      obtain ⟨rfl, rfl⟩ := Plan.control.inj (Res.ok.inj h)
      exact ⟨rfl, Option.isSome_iff_exists.mp (hmeta _ hmem), (if_neg hL).symm⟩
  · cases h

theorem main_control {st : Opts} {cmd flags : UInt8} {base : List UInt8}
    {services : List (List UInt8)} (h : main i = .ok (st, .control cmd flags, base, services)) :
    Asks i cmd services ∧ (∃ c, Cmd.ofByte cmd = some c) ∧
      flags = (if given i 76 then svcmdFlagLog else 0) |||
        (if given i 103 then svcmdFlagKillpg else 0) := by
  have h0 : seen ⟨none, 0, 0, 0⟩ = (false, false) := rfl
  rcases options_meets optCase_stops (by decide) optCase_steps i.prog i.args h0 with
    ⟨-, e, he⟩ | ⟨hgo, ⟨st', operands⟩, hok, hseen, hargs⟩
  · rw [main, he] at h
    cases h
  rw [faulty_const, not_or] at hgo
  rw [main, hok] at h
  have hg : decide (st'.optG ≠ 0) = given i 103 := by
    have := congrArg Prod.fst hseen
    rwa [foldl_seen, Bool.false_or] at this
  have hL : decide (st'.optL ≠ 0) = given i 76 := by
    have := congrArg Prod.snd hseen
    rwa [foldl_seen, Bool.false_or] at this
  cases operands with
  | nil => cases h
  | cons word rest =>
    cases hcmd : command st' word with
    | stopped e => simp [Res.bind, afterOptions, hcmd] at h
    | outside => simp [Res.bind, afterOptions, hcmd] at h
    | ok plan =>
      simp only [Res.bind, afterOptions, hcmd] at h
      split at h
      · cases h
      split at h
      · simp only [Res.ok.injEq, Prod.mk.injEq] at h
        obtain ⟨rfl, hplan, -, rfl⟩ := h
        cases plan with
        | sticky on => cases hplan
        | control cmd' flags' =>
          obtain ⟨rfl, hflags⟩ := Plan.control.inj hplan
          obtain ⟨hword, hknown, rfl⟩ := command_known hcmd
          refine ⟨⟨fun o ho hbad => hgo.1 ⟨o, ho, hbad⟩, word, hargs, hword⟩, hknown, ?_⟩
          rw [← hflags, ← hg, ← hL]
          by_cases h1 : st'.optL = 0 <;> by_cases h2 : st'.optG = 0 <;> simp [h1, h2]
      · cases h

end

/-! ## The request -/

section
variable {o : Options} {dir : PerpctlControl.Stat} {c : Conn} {svdefs : List Svdef}

theorem arrived_pkt (h : Arrived o dir c) :
    c.pkt = ctlRequest (dir.dev, dir.ino) o.cmd o.flags ++ c.pkt.drop 21 := by
  have htake := h.2
  rw [h.1] at htake
  rw [← htake, List.take_append_drop]

theorem arrived_key (h : Arrived o dir c) : ctlKey c.pkt = (dir.dev, dir.ino) := by
  have hkey : ctlKey c.pkt = (upak64Unpack (upak64Pack dir.dev ++ ((upak64Pack dir.ino ++
      [UInt8.ofNat o.cmd.toNat, o.flags]) ++ c.pkt.drop 21)),
      upak64Unpack (upak64Pack dir.ino ++ ([UInt8.ofNat o.cmd.toNat, o.flags] ++
        c.pkt.drop 21))) := by
    rw [arrived_pkt h]
    rfl
  rw [hkey, upak64Unpack_pack, upak64Unpack_pack]

theorem arrived_cmd (h : Arrived o dir c) :
    byteAt (pktData c.pkt) 16 = UInt8.ofNat o.cmd.toNat := by
  rw [arrived_pkt h]
  rfl

theorem arrived_flags (h : Arrived o dir c) : byteAt (pktData c.pkt) 17 = o.flags := by
  rw [arrived_pkt h]
  rfl

theorem arrived_typed (h : Arrived o dir c) : Typed c.pkt c.n 67 18 := by
  have hlen : pktLen c.pkt = 21 := by
    rw [arrived_pkt h]
    rfl
  refine ⟨?_, ?_, h.1, hlen.trans h.1.symm⟩
  · rw [arrived_pkt h]
    rfl
  · rw [arrived_pkt h]
    rfl

/-- What has arrived is a command for the entry with that directory, while it is kept. -/
theorem arrived_commands (h : Arrived o dir c) {cmd : Cmd}
    (hcmd : Cmd.ofByte (UInt8.ofNat o.cmd.toNat) = some cmd) {j : ℕ} {sd : Svdef} :
    Commands c.pkt c.n svdefs j sd cmd ↔ Kept svdefs dir j sd := by
  have hkey := arrived_key h
  constructor
  · intro hc
    have hlookup := hc.lookup
    rw [hkey] at hlookup
    exact ⟨hlookup, hc.entry, hc.cull⟩
  · rintro ⟨hlookup, hentry, hcull⟩
    refine ⟨arrived_typed h, ?_, hentry, hcull, ?_⟩
    · rw [hkey]
      exact hlookup
    · rw [arrived_cmd h]
      exact hcmd

/-- perpd has one answer to a request that has arrived: 0 if it is kept. -/
theorem arrived_exec (s : Sys) (svdefs : List Svdef) (h : Arrived o dir c) {cmd : Cmd}
    (hcmd : Cmd.ofByte (UInt8.ofNat o.cmd.toNat) = some cmd) :
    let s0 := s.emit (.request (c.pkt.take c.n))
    let r := perpdConnExec s svdefs c
    (∃ j sd, Kept svdefs dir j sd ∧ r =
      (((PerpdConn.doControl s0 sd (ctlWhich c.pkt) cmd (ctlKillpg c.pkt)).1,
        svdefs.set j (PerpdConn.doControl s0 sd (ctlWhich c.pkt) cmd (ctlKillpg c.pkt)).2),
        perpdConnExecReply c 0)) ∨
    ((∀ j sd, ¬ Kept svdefs dir j sd) ∧
      ∃ err, err ≠ 0 ∧ r = ((s0, svdefs), perpdConnExecReply c err)) := by
  intro s0 r
  by_cases hk : ∃ j sd, Kept svdefs dir j sd
  · obtain ⟨j, sd, hkept⟩ := hk
    exact .inl ⟨j, sd, hkept, exec_commands s ((arrived_commands h hcmd).mpr hkept)⟩
  · have hno : ∀ j sd, ¬ Kept svdefs dir j sd := fun j sd hkept => hk ⟨j, sd, hkept⟩
    rcases exec_cases s svdefs c with ⟨j, sd, cmd', hc, -⟩ | ⟨sd, hq, -⟩ | ⟨err, herr, hr⟩
    · have hkey := arrived_key h
      have hlookup := hc.lookup
      rw [hkey] at hlookup
      exact absurd ⟨hlookup, hc.entry, hc.cull⟩ (hno j sd)
    · have htype := (arrived_typed h).type
      rw [hq.type] at htype
      exact absurd htype (by decide)
    · exact .inr ⟨hno, err, herr, hr⟩

end

theorem upak32Pack_zero {err : UInt32} :
    (∀ j < 4, (upak32Pack err).getD j 0 = 0) ↔ err = 0 := by
  constructor
  · intro h
    have h0 := h 0 (by decide)
    have h1 := h 1 (by decide)
    have h2 := h 2 (by decide)
    have h3 := h 3 (by decide)
    have hlt := err.toNat_lt
    simp only [upak32Pack, ← UInt8.toNat_inj] at h0 h1 h2 h3
    apply UInt32.toNat_inj.mp
    simp [Nat.shiftRight_eq_div_pow] at h0 h1 h2 h3
    simp
    omega
  · rintro rfl j hj
    obtain rfl | rfl | rfl | rfl : j = 0 ∨ j = 1 ∨ j = 2 ∨ j = 3 := by omega
    all_goals rfl

/-- The answer is read as it was meant. -/
theorem report_answer {o : Options} {sv : Service} {dir : PerpctlControl.Stat} {err : UInt32}
    (hsent : Sent o sv dir) (h : received sv.reads = (errorPacket err, .whole)) :
    serviceReport o sv = .ok ↔ err = 0 := by
  have hcode : ∀ j < 4, ∀ dev : UInt64,
      ((4 :: upak32Pack err)[j + 1]?).getD (byteAt (upak64Pack dev) j) =
        (upak32Pack err).getD j 0 := by
    intro j hj dev
    obtain rfl | rfl | rfl | rfl : j = 0 ∨ j = 1 ∨ j = 2 ∨ j = 3 := by omega
    all_goals rfl
  rw [serviceReport_ok, ← upak32Pack_zero]
  constructor
  · rintro ⟨st, -, got, stop, hgot, -, hz⟩ j hj
    rw [h] at hgot
    obtain ⟨hbytes, -⟩ := Prod.mk.inj hgot
    obtain rfl : 4 :: upak32Pack err = got := by simpa [errorPacket] using hbytes
    rw [← hcode j hj st.dev]
    exact hz j hj
  · intro hz
    refine ⟨dir, hsent, 4 :: upak32Pack err, .whole, h, .inr (.inr rfl), fun j hj => ?_⟩
    rw [hcode j hj]
    exact hz j hj

theorem letter (b : UInt8) : UInt8.ofNat (Char.ofNat b.toNat).toNat = b := by
  have hlt := b.toNat_lt
  have hvalid : b.toNat.isValidChar := .inl (by omega)
  rw [Char.ofNat, dif_pos hvalid]
  exact UInt8.ofNat_toNat

/-- From the command line to the child: where perpctl says that a service is done,
perpd has done what the command line says, to the one of the pair that it says;
and else it has left the table and the children alone. -/
theorem perpctl_commands {i : Input} {st : Opts} {cmd flags : UInt8} {base : List UInt8}
    {services : List (List UInt8)} {o : Options} {sv : Service} {dir : PerpctlControl.Stat}
    {s : Sys}
    {svdefs : List Svdef} {c : Conn}
    (h : main i = .ok (st, .control cmd flags, base, services))
    (ho : o = ⟨Char.ofNat cmd.toNat, flags, decide (st.optQ ≠ 0)⟩)
    (hsent : Sent o sv dir) (harrived : Arrived o dir c)
    (hanswered : Answered sv (perpdConnExec s svdefs c).2) :
    Asks i cmd services ∧ Carried i cmd o dir sv s svdefs c := by
  obtain ⟨hasks, ⟨command, hcommand⟩, hflags⟩ := main_control h
  subst ho
  have hbyte : Cmd.ofByte (UInt8.ofNat (Char.ofNat cmd.toNat).toNat) = some command := by
    rw [letter]
    exact hcommand
  have hbits : byteAt (pktData c.pkt) 17 = flags := arrived_flags harrived
  have hwhich : ctlWhich c.pkt = if given i 76 then .log else .main := by
    rw [ctlWhich, hbits, hflags]
    cases given i 76 <;> cases given i 103 <;> rfl
  have hkillpg : ctlKillpg c.pkt = given i 103 := by
    rw [ctlKillpg, hbits, hflags]
    cases given i 76 <;> cases given i 103 <;> rfl
  have hreport : ∀ err, (perpdConnExec s svdefs c).2 = perpdConnExecReply c err →
      (serviceReport ⟨Char.ofNat cmd.toNat, flags, decide (st.optQ ≠ 0)⟩ sv = .ok ↔ err = 0) := by
    intro err herr
    apply report_answer hsent
    rw [hanswered, herr, (execReply_replied c err).pkt]
  refine ⟨hasks, ?_⟩
  rcases arrived_exec s svdefs harrived hbyte with ⟨j, sd, hkept, hr⟩ | ⟨hno, err, herr, hr⟩
  · refine ⟨⟨fun _ => ⟨j, sd, hkept⟩, fun _ => (hreport 0 (by rw [hr])).mpr rfl⟩,
      ⟨command, hcommand, fun j' sd' hkept' => ?_⟩, fun hidle => absurd ⟨j, sd, hkept⟩ hidle⟩
    obtain rfl : j = j' := Option.some.inj (hkept.1.symm.trans hkept'.1)
    obtain rfl : sd = sd' := Option.some.inj (hkept.2.1.symm.trans hkept'.2.1)
    rw [hr, hwhich, hkillpg]
  · have hidle : ¬ ∃ j sd, Kept svdefs dir j sd := by
      rintro ⟨j, sd, hkept⟩
      exact hno j sd hkept
    exact ⟨⟨fun hok => absurd ((hreport err (by rw [hr])).mp hok) herr,
      fun hkept => absurd hkept hidle⟩,
      ⟨command, hcommand, fun j sd hkept => absurd hkept (hno j sd)⟩, fun _ => by rw [hr]⟩

/-- `perpctl -g d foo` -/
def downFoo : Input where
  prog := ⟨[112, 101, 114, 112, 99, 116, 108], by decide⟩
  args := [⟨[45, 103], by decide⟩, ⟨[100], by decide⟩, ⟨[102, 111, 111], by decide⟩]
  getenv := fun _ => none
  chdir := fun _ => true

/-- perpd with the service `foo` -/
def fooUp : Perpd := perpdRun (plain [some 100]) [scans quiet [foo]]

/-- The connection on which the request for `foo` is read -/
def fooConn : Conn :=
  ⟨some 9, .zero, .reading, ctlRequest (1, 2) 'd' 2 ++ List.replicate (pktSize - 21) 0, 21, 0⟩

/-- perpctl's side of it -/
def fooAsked : Service :=
  ⟨"foo", some ⟨1, 2, true, true⟩, [.wrote 21], [.data [2, 69, 4], .data [0, 0, 0, 0]]⟩

theorem perpctl_commands_foo :
    Asks downFoo 100 [[102, 111, 111]] ∧
      Carried downFoo 100 ⟨'d', 2, false⟩ ⟨1, 2, true, true⟩ fooAsked fooUp.sys fooUp.svdefs
        fooConn := by
  have hmain : main downFoo = .ok (⟨none, 1, 0, 0⟩, .control 100 2, [46], [[102, 111, 111]]) := rfl
  have hsent : Sent ⟨'d', 2, false⟩ fooAsked ⟨1, 2, true, true⟩ :=
    ⟨rfl, rfl, rfl, by decide +kernel⟩
  have harrived : Arrived ⟨'d', 2, false⟩ ⟨1, 2, true, true⟩ fooConn := ⟨rfl, by decide⟩
  have hanswered : received fooAsked.reads =
      ((perpdConnExec fooUp.sys fooUp.svdefs fooConn).2.pkt.take
        (perpdConnExec fooUp.sys fooUp.svdefs fooConn).2.n, .whole) := by decide +kernel
  exact perpctl_commands hmain rfl hsent harrived hanswered

end Perp.PerpctlMain
