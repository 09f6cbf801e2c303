import Perp.Runtool

set_option autoImplicit false

/-!
# The operations of runtool

They are done in the order of the manual, and the first that fails ends the program.
-/
namespace Perp.RuntoolStages
open Items (Run)
open Nuscan (nuscanUint32 nuscanUint32o)
open Rlimit (RlimitDef)
open Runtool
open RuntoolFdset (doFdset)
open RuntoolRlimit (Fatal doRunlimit)
open Stages

/-- The parts of the operating sequence -/
inductive Stage where
  | detach | session | lock | umask | fdset | limits | chdir | chroot | user | sleep
  deriving DecidableEq, Repr

/-- The sequence of the manual -/
def sequence : List Stage :=
  [.detach, .session, .lock, .umask, .fdset, .limits, .chdir, .chroot, .user, .sleep]

def stageOf : Deed → Stage
  | .fork => .detach
  | .setsid _ => .session
  | .lock _ _ _ => .lock
  | .umask _ => .umask
  | .fd _ => .fdset
  | .limit _ => .limits
  | .chdir _ => .chdir
  | .chroot _ => .chroot
  | .setgroups _ | .setgid _ | .setuid _ => .user
  | .sleep _ => .sleep

/-- A colon before the name of the lock file means to wait for it. -/
def lockDeed (pid : Bool) (arg : List UInt8) : Deed :=
  if arg.head? = some 58 then .lock arg.tail pid true else .lock arg pid false

section
variable {defs : List RlimitDef} (i : Input defs) (o : Opts)

/-- Nothing is done without the option, and else what its argument asks for. -/
def Asked (a : Arg) (P : List UInt8 → List Deed → Prop) (ds : List Deed) : Prop :=
  (o.arg a).elim (ds = []) fun arg => P arg ds

/-- What a part of the sequence does when it succeeds -/
def Did : Stage → List Deed → Prop
  | .detach, ds => ds = if o.detach then [.fork] else []
  | .session, ds => ds = if o.setsid then [.setsid i.sys.setsid] else []
  | .lock, ds => (o.arg .setlock).elim
      (Asked o .pidlock (fun arg ds => ds = [lockDeed true arg]) ds)
      fun arg => ds = [lockDeed false arg]
  | .umask, ds => Asked o .umask
      (fun arg ds => (nuscanUint32o arg).2 = [] ∧ ds = [.umask (nuscanUint32o arg).1]) ds
  | .fdset, ds => Asked o .fdset
      (fun arg ds => ∃ calls, doFdset i.sys.fds i.target arg = .on calls ∧ ds = calls.map .fd) ds
  | .limits, ds => Asked o .rlimit
      (fun arg ds => ∃ sets, doRunlimit i.sys.limits i.nbuf arg = .on sets ∧
        ds = sets.map .limit) ds
  | .chdir, ds => Asked o .chdir (fun arg ds => ds = [.chdir arg]) ds
  | .chroot, ds => Asked o .chroot (fun arg ds => ds = [.chroot arg]) ds
  | .user, ds => Asked o .setuid
      (fun user ds => ∃ pw, i.sys.getpwnam user = some pw ∧
        ds = [.setgroups pw.gid, .setgid pw.gid, .setuid pw.uid]) ds
  | .sleep, ds => Asked o .sleep
      (fun arg ds => (nuscanUint32 arg).2 = [] ∧ ds = [.sleep (nuscanUint32 arg).1]) ds

/-- The parts that may leave their memory: those that copy into an array -/
def Lost : Stage → Prop
  | .fdset => ∃ arg, o.arg .fdset = some arg ∧ doFdset i.sys.fds i.target arg = .outside
  | .limits => ∃ arg, o.arg .rlimit = some arg ∧ doRunlimit i.sys.limits i.nbuf arg = .outside
  | _ => False

/-- The function of a part -/
def act : Stage → List Deed → Run Deed Fatal
  | .detach => detach i o
  | .session => session i o
  | .lock => lock i o
  | .umask => given o .umask doUmask
  | .fdset => given o .fdset fun arg => within .fd (doFdset i.sys.fds i.target arg)
  | .limits => given o .rlimit fun arg => within .limit (doRunlimit i.sys.limits i.nbuf arg)
  | .chdir => given o .chdir (doChdir i.sys)
  | .chroot => given o .chroot (doChroot i.sys)
  | .user => given o .setuid (doSetuid i.sys)
  | .sleep => given o .sleep doSleep

end

section
variable {defs : List RlimitDef} {i : Input defs} {o : Opts} {done : List Deed} {s : Stage}

theorem operations_eq : operations i o = runAll (act i o) sequence [] := by
  simp only [operations, sequence, runAll, act, Run.andThen_assoc, Run.andThen_on]

/-- The part is this run, where nothing can be lost. -/
def Goes (did : List Deed → Prop) (s : Stage) (done : List Deed) (r : Run Deed Fatal) : Prop :=
  (∃ ds, r = .on (done ++ ds) ∧ did ds) ∨
    ∃ ds e, r = .ended (done ++ ds) e ∧ ∀ d ∈ ds, stageOf d = s

theorem goes_on {did : List Deed → Prop} {ds : List Deed} (h : did ds) :
    Goes did s done (.on (done ++ ds)) := .inl ⟨ds, rfl, h⟩

theorem goes_same {did : List Deed → Prop} (h : did []) : Goes did s done (.on done) :=
  .inl ⟨[], by rw [List.append_nil], h⟩

theorem goes_ended {did : List Deed → Prop} (e : Fatal) : Goes did s done (.ended done e) :=
  .inr ⟨[], e, by rw [List.append_nil], fun d hd => absurd hd List.not_mem_nil⟩

theorem call_goes {ok : Bool} {d : Deed} {e : Fatal} {did : List Deed → Prop} (h : did [d]) :
    Goes did s done (call ok d e done) := by
  rw [call]
  by_cases hok : ok = true
  · rw [if_pos hok]
    exact goes_on h
  · rw [if_neg hok]
    exact goes_ended e

theorem given_goes {a : Arg} {P : List UInt8 → List Deed → Prop}
    {f : List UInt8 → List Deed → Run Deed Fatal}
    (h : ∀ arg, o.arg a = some arg → Goes (P arg) s done (f arg done)) :
    Goes (Asked o a P) s done (given o a f done) := by
  rw [given]
  cases ha : o.arg a with
  | none => exact goes_same (by rw [Asked, ha]; rfl)
  | some arg =>
    have hasked : Asked o a P = P arg := by
      funext ds
      rw [Asked, ha]
      rfl
    rw [hasked]
    exact h arg ha

theorem doSetlock_goes (pid : Bool) (arg : List UInt8) :
    Goes (fun ds => ds = [lockDeed pid arg]) s done (doSetlock i.sys pid arg done) := by
  rw [doSetlock]
  by_cases hcolon : arg.head? = some 58
  · have hdeed : lockDeed pid arg = .lock arg.tail pid true := if_pos hcolon
    rw [if_pos hcolon, hdeed]
    split
    · exact goes_ended _
    · exact call_goes rfl
  · have hdeed : lockDeed pid arg = .lock arg pid false := if_neg hcolon
    rw [if_neg hcolon, hdeed]
    exact call_goes rfl

theorem lock_goes : Goes (Did i o .lock) s done (lock i o done) := by
  rw [lock]
  cases h : o.arg .setlock with
  | none =>
    have hdid : Did i o .lock = Asked o .pidlock fun arg ds => ds = [lockDeed true arg] := by
      funext ds
      rw [Did, h]
      rfl
    rw [hdid]
    exact given_goes fun arg _ => doSetlock_goes true arg
  | some arg =>
    have hdid : Did i o .lock = fun ds => ds = [lockDeed false arg] := by
      funext ds
      rw [Did, h]
      rfl
    rw [hdid]
    exact doSetlock_goes false arg

theorem doSetuid_goes (user : List UInt8) :
    Goes (fun ds => ∃ pw, i.sys.getpwnam user = some pw ∧
      ds = [.setgroups pw.gid, .setgid pw.gid, .setuid pw.uid]) .user done
      (doSetuid i.sys user done) := by
  rw [doSetuid]
  split
  · exact goes_ended _
  · cases hpw : i.sys.getpwnam user with
    | none => exact goes_ended _
    | some pw =>
      rw [Option.elim_some, call]
      by_cases hgroups : i.sys.setgroups pw.gid = true
      · rw [if_pos hgroups, Run.andThen, call]
        by_cases hgid : i.sys.setgid pw.gid = true
        · rw [if_pos hgid, Run.andThen, call]
          by_cases huid : i.sys.setuid pw.uid = true
          · rw [if_pos huid]
            exact .inl ⟨[.setgroups pw.gid, .setgid pw.gid, .setuid pw.uid], by simp, pw, rfl, rfl⟩
          · rw [if_neg huid]
            exact .inr ⟨[.setgroups pw.gid, .setgid pw.gid], _, by simp; rfl, by simp [stageOf]⟩
        · rw [if_neg hgid, Run.andThen]
          exact .inr ⟨[.setgroups pw.gid], _, rfl, by simp [stageOf]⟩
      · rw [if_neg hgroups, Run.andThen, Run.andThen]
        exact goes_ended _

/-- A number that is read to its end, and one call with it -/
theorem numeral_goes {α : Type} {z : α × List UInt8} {d : α → Deed} {e : Fatal} :
    Goes (fun ds => z.2 = [] ∧ ds = [d z.1]) s done
      (if z.2 ≠ [] then .ended done e else .on (done ++ [d z.1])) := by
  by_cases h : z.2 = []
  · rw [if_neg (not_not.mpr h)]
    exact goes_on ⟨h, rfl⟩
  · rw [if_pos h]
    exact goes_ended e

/-- A part that keeps account of its own calls -/
theorem given_within {ω : Type} {deed : ω → Deed} (hstage : ∀ x, stageOf (deed x) = s) (a : Arg)
    (run : List UInt8 → Run ω Fatal) :
    Goes (Asked o a fun arg ds => ∃ xs, run arg = .on xs ∧ ds = xs.map deed) s done
        (given o a (fun arg => within deed (run arg)) done) ∨
      given o a (fun arg => within deed (run arg)) done = .outside ∧
        ∃ arg, o.arg a = some arg ∧ run arg = .outside := by
  by_cases hlost : ∃ arg, o.arg a = some arg ∧ run arg = .outside
  · refine .inr ⟨?_, hlost⟩
    obtain ⟨arg, ha, hrun⟩ := hlost
    simp only [given, ha, Option.elim_some, within, hrun]
  · refine .inl (given_goes fun arg ha => ?_)
    cases hrun : run arg with
    | on xs => exact goes_on ⟨xs, rfl, rfl⟩
    | ended xs e =>
      refine .inr ⟨xs.map deed, e, rfl, fun d hd => ?_⟩
      obtain ⟨x, -, rfl⟩ := List.mem_map.mp hd
      exact hstage x
    | outside => exact absurd ⟨arg, ha, hrun⟩ hlost

/-- The function of each part does its part. -/
theorem act_meets (s : Stage) :
    Meets (Did i o) (fun s d => stageOf d = s) (Lost i o) s (act i o s) := by
  intro done
  have hsafe {did : List Deed → Prop} {s : Stage} {r : Run Deed Fatal} {p : Prop}
      (h : Goes did s done r) :
      (∃ ds, r = .on (done ++ ds) ∧ did ds) ∨
        (∃ ds e, r = .ended (done ++ ds) e ∧ ∀ d ∈ ds, stageOf d = s) ∨ r = .outside ∧ p :=
    h.imp id .inl
  cases s with
  | detach =>
    apply hsafe
    rw [act, detach]
    by_cases h : o.detach = true
    · rw [if_pos h]
      exact call_goes (by rw [Did, if_pos h])
    · rw [if_neg h]
      exact goes_same (by rw [Did, if_neg h])
  | session =>
    apply hsafe
    rw [act, session]
    by_cases h : o.setsid = true
    · rw [if_pos h]
      exact goes_on (by rw [Did, if_pos h])
    · rw [if_neg h]
      exact goes_same (by rw [Did, if_neg h])
  | lock => exact hsafe lock_goes
  | umask =>
    apply hsafe
    exact given_goes fun arg _ => numeral_goes
  | fdset =>
    have hstage (call : RuntoolFdset.FdCall) : stageOf (.fd call) = .fdset := rfl
    exact (given_within hstage .fdset (doFdset i.sys.fds i.target)).elim hsafe
      fun h => .inr (.inr h)
  | limits =>
    have hstage (set : RuntoolRlimit.SetLimit) : stageOf (.limit set) = .limits := rfl
    exact (given_within hstage .rlimit (doRunlimit i.sys.limits i.nbuf)).elim hsafe
      fun h => .inr (.inr h)
  | chdir =>
    apply hsafe
    exact given_goes fun arg _ => call_goes rfl
  | chroot =>
    apply hsafe
    apply given_goes
    intro arg _
    rw [doChroot]
    split
    · exact goes_ended _
    · exact call_goes rfl
  | user =>
    apply hsafe
    exact given_goes fun user _ => doSetuid_goes user
  | sleep =>
    apply hsafe
    exact given_goes fun arg _ => numeral_goes

theorem operations_ends :
    Ends (Did i o) (fun s d => stageOf d = s) (Lost i o) sequence [] (operations i o) := by
  rw [operations_eq]
  exact runAll_ends (fun s _ => act_meets s) []

end

end Perp.RuntoolStages
