import Mathlib.Data.Int.Notation
import Mathlib.Logic.Function.Basic
import Perp.FlagByte
import Perp.Tain

set_option autoImplicit false

/-!
# The state of perpd

The records of `perpd.h`, the signal and failure flags of `perpd.c`, and the
part of the kernel that perpd acts on: its descriptors, its unreaped children,
and the answers `fork()` and the clock will give. A trace of events records
what perpd asked of the kernel and which of its own routines ran.
-/
namespace Perp.PerpdState
open FlagByte

/-- `SUBSV_FLAG_*` -/
inductive SubsvFlag where
  | islog | isreset | isonce | ispaused | wantdown | failing
  deriving DecidableEq, Repr

instance : Flag SubsvFlag where
  mask
    | .islog => 0x01
    | .isreset => 0x02
    | .isonce => 0x04
    | .ispaused => 0x08
    | .wantdown => 0x10
    | .failing => 0x20
  bit
    | .islog => 0
    | .isreset => 1
    | .isonce => 2
    | .ispaused => 3
    | .wantdown => 4
    | .failing => 5
  bit_lt f := by cases f <;> decide
  mask_bit f := by cases f <;> rfl
  bit_inj f g := by cases f <;> cases g <;> decide

/-- `SVDEF_FLAG_*` -/
inductive SvdefFlag where
  | active | haslog | cull | cycle | down | once
  deriving DecidableEq, Repr

instance : Flag SvdefFlag where
  mask
    | .active => 0x01
    | .haslog => 0x02
    | .cull => 0x04
    | .cycle => 0x08
    | .down => 0x10
    | .once => 0x20
  bit
    | .active => 0
    | .haslog => 1
    | .cull => 2
    | .cycle => 3
    | .down => 4
    | .once => 5
  bit_lt f := by cases f <;> decide
  mask_bit f := by cases f <;> rfl
  bit_inj f g := by cases f <;> cases g <;> decide

/-- `SUBSV_MAIN`, `SUBSV_LOG` -/
inductive Which where
  | main | log
  deriving DecidableEq, Repr

theorem Which.forall {p : Which → Prop} : (∀ w, p w) ↔ p .main ∧ p .log :=
  ⟨fun h => ⟨h _, h _⟩, fun h w => by cases w <;> simp [h.1, h.2]⟩

instance {p : Which → Prop} [DecidablePred p] : Decidable (∀ w, p w) :=
  decidable_of_iff _ Which.forall.symm

/-- `SVRUN_START`, `SVRUN_RESET` -/
inductive Target where
  | start | reset
  deriving DecidableEq, Repr

/-- `struct subsv`. A recorded pid is 0 or the positive number `fork()` gave. -/
structure Subsv where
  pid : ℕ
  bitflags : UInt8
  when : Tain
  whenOk : Tain
  wstat : ℕ
  deriving DecidableEq, Repr

namespace Subsv

/-- The zero bytes of `perpd_svdef_clear()`. -/
def clear : Subsv := ⟨0, 0, .zero, .zero, 0⟩

def has (v : Subsv) (f : SubsvFlag) : Bool := FlagByte.has v.bitflags f
def put (v : Subsv) (f : SubsvFlag) : Subsv := { v with bitflags := FlagByte.put v.bitflags f }
def drop (v : Subsv) (f : SubsvFlag) : Subsv := { v with bitflags := FlagByte.drop v.bitflags f }

@[simp] theorem clear_has (f : SubsvFlag) : clear.has f = false := has_zero f
@[simp] theorem clear_pid : clear.pid = 0 := rfl

@[simp] theorem put_has (v : Subsv) (f g : SubsvFlag) :
    (v.put f).has g = (decide (f = g) || v.has g) := has_put _ f g
@[simp] theorem drop_has (v : Subsv) (f g : SubsvFlag) :
    (v.drop f).has g = (!decide (f = g) && v.has g) := has_drop _ f g

@[simp] theorem put_pid (v : Subsv) (f : SubsvFlag) : (v.put f).pid = v.pid := rfl
@[simp] theorem drop_pid (v : Subsv) (f : SubsvFlag) : (v.drop f).pid = v.pid := rfl
@[simp] theorem put_wstat (v : Subsv) (f : SubsvFlag) : (v.put f).wstat = v.wstat := rfl
@[simp] theorem drop_wstat (v : Subsv) (f : SubsvFlag) : (v.drop f).wstat = v.wstat := rfl

end Subsv

/-- The device and inode number of a service directory, which identify it. -/
abbrev Key := UInt64 × UInt64

/-- `struct svdef` -/
structure Svdef where
  dev : UInt64
  ino : UInt64
  fdDir : ℕ
  name : List Char
  when : Tain
  bitflags : UInt8
  logpipe0 : ℕ
  logpipe1 : ℕ
  svMain : Subsv
  svLog : Subsv
  deriving DecidableEq, Repr

namespace Svdef

def key (sd : Svdef) : Key := (sd.dev, sd.ino)

def has (sd : Svdef) (f : SvdefFlag) : Bool := FlagByte.has sd.bitflags f
def put (sd : Svdef) (f : SvdefFlag) : Svdef := { sd with bitflags := FlagByte.put sd.bitflags f }
def drop (sd : Svdef) (f : SvdefFlag) : Svdef := { sd with bitflags := FlagByte.drop sd.bitflags f }

/-- `svpair[which]` -/
def sv (sd : Svdef) : Which → Subsv
  | .main => sd.svMain
  | .log => sd.svLog

def setSv (sd : Svdef) (which : Which) (v : Subsv) : Svdef :=
  match which with
  | .main => { sd with svMain := v }
  | .log => { sd with svLog := v }

@[simp] theorem put_has (sd : Svdef) (f g : SvdefFlag) :
    (sd.put f).has g = (decide (f = g) || sd.has g) := has_put _ f g
@[simp] theorem drop_has (sd : Svdef) (f g : SvdefFlag) :
    (sd.drop f).has g = (!decide (f = g) && sd.has g) := has_drop _ f g

@[simp] theorem put_key (sd : Svdef) (f : SvdefFlag) : (sd.put f).key = sd.key := rfl
@[simp] theorem drop_key (sd : Svdef) (f : SvdefFlag) : (sd.drop f).key = sd.key := rfl
@[simp] theorem put_sv (sd : Svdef) (f : SvdefFlag) (w : Which) : (sd.put f).sv w = sd.sv w := by
  cases w <;> rfl
@[simp] theorem drop_sv (sd : Svdef) (f : SvdefFlag) (w : Which) : (sd.drop f).sv w = sd.sv w := by
  cases w <;> rfl

@[simp] theorem put_svMain (sd : Svdef) (f : SvdefFlag) : (sd.put f).svMain = sd.svMain := rfl
@[simp] theorem put_svLog (sd : Svdef) (f : SvdefFlag) : (sd.put f).svLog = sd.svLog := rfl
@[simp] theorem drop_svMain (sd : Svdef) (f : SvdefFlag) : (sd.drop f).svMain = sd.svMain := rfl
@[simp] theorem drop_svLog (sd : Svdef) (f : SvdefFlag) : (sd.drop f).svLog = sd.svLog := rfl

@[simp] theorem put_fdDir (sd : Svdef) (f : SvdefFlag) : (sd.put f).fdDir = sd.fdDir := rfl
@[simp] theorem put_logpipe0 (sd : Svdef) (f : SvdefFlag) : (sd.put f).logpipe0 = sd.logpipe0 := rfl
@[simp] theorem put_logpipe1 (sd : Svdef) (f : SvdefFlag) : (sd.put f).logpipe1 = sd.logpipe1 := rfl
@[simp] theorem put_name (sd : Svdef) (f : SvdefFlag) : (sd.put f).name = sd.name := rfl
@[simp] theorem drop_fdDir (sd : Svdef) (f : SvdefFlag) : (sd.drop f).fdDir = sd.fdDir := rfl
@[simp] theorem drop_logpipe0 (sd : Svdef) (f : SvdefFlag) : (sd.drop f).logpipe0 = sd.logpipe0 := rfl
@[simp] theorem drop_logpipe1 (sd : Svdef) (f : SvdefFlag) : (sd.drop f).logpipe1 = sd.logpipe1 := rfl
@[simp] theorem drop_name (sd : Svdef) (f : SvdefFlag) : (sd.drop f).name = sd.name := rfl

theorem setSv_sv (sd : Svdef) (w w' : Which) (v : Subsv) :
    (sd.setSv w v).sv w' = if w = w' then v else sd.sv w' := by
  cases w <;> cases w' <;> rfl

@[simp] theorem setSv_self (sd : Svdef) (w : Which) (v : Subsv) : (sd.setSv w v).sv w = v := by
  cases w <;> rfl
@[simp] theorem setSv_setSv (sd : Svdef) (w : Which) (u v : Subsv) :
    (sd.setSv w u).setSv w v = sd.setSv w v := by
  cases w <;> rfl
@[simp] theorem setSv_key (sd : Svdef) (w : Which) (v : Subsv) : (sd.setSv w v).key = sd.key := by
  cases w <;> rfl
@[simp] theorem setSv_name (sd : Svdef) (w : Which) (v : Subsv) : (sd.setSv w v).name = sd.name := by
  cases w <;> rfl
@[simp] theorem setSv_fdDir (sd : Svdef) (w : Which) (v : Subsv) :
    (sd.setSv w v).fdDir = sd.fdDir := by
  cases w <;> rfl
@[simp] theorem setSv_logpipe0 (sd : Svdef) (w : Which) (v : Subsv) :
    (sd.setSv w v).logpipe0 = sd.logpipe0 := by
  cases w <;> rfl
@[simp] theorem setSv_logpipe1 (sd : Svdef) (w : Which) (v : Subsv) :
    (sd.setSv w v).logpipe1 = sd.logpipe1 := by
  cases w <;> rfl
@[simp] theorem setSv_has (sd : Svdef) (w : Which) (v : Subsv) (f : SvdefFlag) :
    (sd.setSv w v).has f = sd.has f := by
  cases w <;> rfl

@[simp] theorem sv_main (sd : Svdef) : sd.sv .main = sd.svMain := rfl
@[simp] theorem sv_log (sd : Svdef) : sd.sv .log = sd.svLog := rfl
@[simp] theorem setSv_main_svMain (sd : Svdef) (v : Subsv) : (sd.setSv .main v).svMain = v := rfl
@[simp] theorem setSv_main_svLog (sd : Svdef) (v : Subsv) :
    (sd.setSv .main v).svLog = sd.svLog := rfl
@[simp] theorem setSv_log_svLog (sd : Svdef) (v : Subsv) : (sd.setSv .log v).svLog = v := rfl
@[simp] theorem setSv_log_svMain (sd : Svdef) (v : Subsv) :
    (sd.setSv .log v).svMain = sd.svMain := rfl

end Svdef

/-- What an open descriptor of perpd refers to. The descriptors of a service
carry its key and the number of the activation that opened them. -/
inductive Obj where
  | svdir (key : Key) (n : ℕ)
  | logpipe0 (key : Key) (n : ℕ)
  | logpipe1 (key : Key) (n : ℕ)
  | client
  | listen
  | other
  deriving DecidableEq, Repr

def Obj.key : Obj → Option Key
  | .svdir k _ | .logpipe0 k _ | .logpipe1 k _ => some k
  | _ => none

inductive Signal where
  | sigalrm | sigchld | sigcont | sighup | sigint | sigkill | sigpipe | sigquit | sigstop
  | sigterm | sigusr1 | sigusr2 | sigwinch
  deriving DecidableEq, Repr

/-- The commands `do_control()` recognizes. -/
inductive Cmd where
  | metaDown | metaUp | alarm | continue | down | hup | interrupt | kill | once | pause | quit
  | term | up | winch | usr1 | usr2
  deriving DecidableEq, Repr

/-- Descriptors 0 and 1 of a runscript, as the child sets them up before `exec`. -/
structure ChildIo where
  stdin : Option Obj
  stdout : Option Obj
  deriving DecidableEq, Repr

/-- What perpd does for one service. -/
inductive SvEvent where
  /-- the `n`-th activation succeeds -/
  | activate (n : ℕ)
  | fork (which : Which) (target : Target) (prog : List (List Char)) (now towait : Tain)
      (io : Option ChildIo) (ret : Option ℕ)
  /-- `waitpid()` has returned the recorded pid with this status -/
  | reap (which : Which) (wstat : ℕ)
  | kill (which : Which) (target : ℤ) (sig : Signal)
  /-- a call of `do_control()` -/
  | control (which : Which) (cmd : Cmd)
  /-- a call of `perpd_svdef_checkfail()` -/
  | checkfail
  /-- a call of `perpd_svdef_wantcull()` -/
  | wantcull
  /-- the log shutdown closes `logpipe[1]` and `logpipe[0]`, which are these -/
  | closeLog (o1 o0 : Option Obj)
  /-- `perpd_cull()` removes the entry -/
  | cull
  /-- a status reply on the service -/
  | status
  deriving DecidableEq, Repr

/-- An event of a service carries the entry as it is when the event happens. -/
inductive Event where
  | sv (sd : Svdef) (e : SvEvent)
  | opened (fd : ℕ) (o : Obj)
  | closed (fd : ℕ) (o : Option Obj)
  /-- a complete request packet is processed -/
  | request (pkt : List UInt8)
  /-- bytes written to a client -/
  | sent (connfd : Option ℕ) (bytes : List UInt8)
  /-- `flag_term` is processed -/
  | term
  /-- a call of `perpd_scan()` -/
  | scan
  /-- a scan has read the base directory to its end -/
  | scanned
  deriving DecidableEq, Repr

def Event.key : Event → Option Key
  | .sv sd _ => some sd.key
  | _ => none

/-- The globals of `perpd.c` that the service routines touch, and the kernel. -/
structure Sys where
  flagChld : ℕ
  flagHup : ℕ
  flagTerm : ℕ
  flagFailing : ℕ
  flagTerminating : Bool
  fdListen : ℕ
  myPid : ℕ
  myWhen : Tain
  /-- bytes waiting in the selfpipe -/
  selfpipe : ℕ
  fds : ℕ → Option Obj
  /-- unreaped children, each with the subservice it was forked for -/
  children : ℕ → Option (Key × Which)
  /-- what the next calls of `fork()` return in the parent -/
  forks : ℕ → Option ℕ
  /-- what the next calls of `tain_now()` read -/
  clock : ℕ → Tain
  /-- the table behind `sysstr_signal()`, which the build generates -/
  sysstrSignal : ℕ → Option (List Char)
  /-- number of activations begun -/
  serial : ℕ
  trace : List Event

namespace Sys

def emit (s : Sys) (e : Event) : Sys := { s with trace := s.trace ++ [e] }

def emitSv (s : Sys) (sd : Svdef) (e : SvEvent) : Sys := s.emit (.sv sd e)

def tainNow (s : Sys) : Tain × Sys :=
  (s.clock 0, { s with clock := fun n => s.clock (n + 1) })

/-- `fork()` in the parent: `none` is -1. The kernel gives a positive pid that
no unreaped child holds. -/
def fork (s : Sys) (owner : Key × Which) : Option ℕ × Sys :=
  let s' := { s with forks := fun n => s.forks (n + 1) }
  match s.forks 0 with
  | none => (none, s')
  | some pid =>
    if 0 < pid ∧ s.children pid = none then
      (some pid, { s' with children := Function.update s.children pid (some owner) })
    else (none, s')

/-- `waitpid()` has returned this child. -/
def waited (s : Sys) (pid : ℕ) : Sys :=
  { s with children := Function.update s.children pid none }

/-- `close()`; what the descriptor was is recorded. -/
def close (s : Sys) (fd : ℕ) : Sys :=
  { s.emit (.closed fd (s.fds fd)) with fds := Function.update s.fds fd none }

/-- A call that returns a new descriptor: the kernel gives one that is not
open, and `none` is -1. -/
def openFd (s : Sys) (ret : Option ℕ) (o : Obj) : Option ℕ × Sys :=
  match ret with
  | none => (none, s)
  | some fd =>
    if s.fds fd = none then
      (some fd, { s.emit (.opened fd o) with fds := Function.update s.fds fd (some o) })
    else (none, s)

/-- `pipe()`: both descriptors or none. -/
def pipe (s : Sys) (ret : Option (ℕ × ℕ)) (o0 o1 : Obj) : Option (ℕ × ℕ) × Sys :=
  match ret with
  | none => (none, s)
  | some (fd0, fd1) =>
    if s.fds fd0 = none ∧ s.fds fd1 = none ∧ fd0 ≠ fd1 then
      (some (fd0, fd1), ((s.openFd (some fd0) o0).2.openFd (some fd1) o1).2)
    else (none, s)

def selfpipePing (s : Sys) : Sys := { s with selfpipe := s.selfpipe + 1 }

end Sys

def sigTrap (s : Sys) (sig : Signal) : Sys :=
  let s := match sig with
    | .sigchld => { s with flagChld := s.flagChld + 1 }
    | .sighup => { s with flagHup := s.flagHup + 1 }
    | .sigint | .sigterm => { s with flagTerm := s.flagTerm + 1 }
    | _ => s
  let s := if s.flagTerminating then { s with flagTerm := 0, flagHup := 0 } else s
  s.selfpipePing

def perpdTriggerScan (s : Sys) : Sys :=
  if s.flagTerminating then s else Sys.selfpipePing { s with flagHup := s.flagHup + 1 }

def perpdTriggerFail (s : Sys) : Sys :=
  if s.flagTerminating then s else Sys.selfpipePing { s with flagFailing := s.flagFailing + 1 }

end Perp.PerpdState
