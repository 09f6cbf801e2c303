import Mathlib.Logic.Function.Basic
import Perp.Tain
import Perp.TraceLaw

set_option autoImplicit false

/-!
# Two supervised children

`perpboot` keeps a logger and a program (perpd) alive over a pipe. Its system
calls interleave with the ends of its children and with signals; a signal is
caught only while `poll()` runs unblocked.
-/
namespace Perp.Deux

inductive Which where
  | logger | program
  deriving DecidableEq, Repr

inductive Signal where
  | sigalrm | sigchld | sigcont | sighup | sigint | sigquit | sigterm | sigtstp | sigusr1 | sigusr2
  deriving DecidableEq, Repr

/-- SIGTERM and SIGINT. -/
def Signal.ends : Signal → Bool
  | .sigint | .sigterm => true
  | _ => false

/-- A child that has not been waited for. -/
structure Kid where
  pid : ℕ
  /-- none: a child that the process had before -/
  which : Option Which
  dead : Bool
  deriving DecidableEq, Repr

inductive Event where
  | started (which : Which) (pid : ℕ)
  | exited (which : Option Which)
  | reaped (pid : ℕ)
  | kill (pid : ℕ) (s : Signal)
  | caught (s : Signal)
  /-- `poll()` is entered -/
  | polls
  /-- `child_wait()` returns -/
  | waited
  /-- `close(my_logpipe[1])` -/
  | closed
  deriving DecidableEq, Repr

/-- Where `main_loop()` is. -/
inductive Pc where
  | top
  /-- the loop over `deux[]`, before the element -/
  | start (which : Which)
  /-- `sleep(1)` of `child_exec()` -/
  | pausing (which : Which)
  | forking (which : Which)
  /-- `sleep(2)` after a `fork()` that failed -/
  | failing (which : Which)
  | polling
  /-- the loop that reads the selfpipe -/
  | consuming
  /-- `child_wait()` -/
  | reaping
  | harvest
  | closing
  | harvestLog
  | returned
  deriving DecidableEq, Repr

structure World where
  /-- `deux[which].pid` -/
  pid : Which → ℕ
  /-- `deux[which].when` -/
  stamp : Which → Tain
  flagTerm : Bool
  pc : Pc
  pending : Signal → Bool
  /-- the bytes in the selfpipe -/
  pipe : ℕ
  kids : List Kid
  trace : List Event

namespace World
variable (w : World)

def emit (e : Event) : World := { w with trace := w.trace ++ [e] }

def doKill (which : Which) (s : Signal) : World :=
  if w.pid which > 0 then w.emit (.kill (w.pid which) s) else w

/-- `sigpipe_ping()`; a write to a full pipe fails. -/
def sigpipePing (full : Bool) : World :=
  if full = true ∧ 0 < w.pipe then w else { w with pipe := w.pipe + 1 }

/-- The child ends, and SIGCHLD is sent. -/
def exit (k : Kid) : World :=
  { w with
    kids := w.kids.map fun x => if x = k then { k with dead := true } else x
    pending := Function.update w.pending .sigchld true }.emit (.exited k.which)

/-- `fork()` that succeeds in `child_exec()`. -/
def fork (which : Which) (pid : ℕ) (now : Tain) : World :=
  { w with
    pid := Function.update w.pid which pid
    stamp := Function.update w.stamp which now
    kids := ⟨pid, some which, false⟩ :: w.kids }.emit (.started which pid)

/-- The loop over `deux[]` goes on after an element. -/
def advance : Which → World
  | .logger => { w with pc := .start .program }
  | .program => { w with pc := .polling }.emit .polls

end World

/-- The two tools that supervise in this way differ in the signal they pass on
and in what they wait for at the end. -/
structure Tool where
  relay : Bool → Signal → Signal
  /-- the program is waited for before the log pipe is closed -/
  harvests : Bool

def perpboot : Tool := ⟨fun _ s => s, true⟩

variable (T : Tool)

def sigtrap (w : World) (s : Signal) (full : Bool) : World :=
  if s = .sigchld then w.sigpipePing full
  else if s.ends then
    let w := { w with flagTerm := true }
    let w := w.doKill .program (T.relay w.flagTerm s)
    (w.doKill .program .sigcont).sigpipePing full
  else (w.doKill .program (T.relay w.flagTerm s)).sigpipePing full

/-- A step of `main_loop()` with what its system call returns, or a step of the
world around it. -/
inductive Act where
  /-- a child ends -/
  | exits (k : Kid)
  /-- a signal is sent to the process -/
  | raise (s : Signal)
  | go
  /-- `tain_now()` in `child_exec()` -/
  | clock (now : Tain)
  | forkFails
  | forked (pid : ℕ) (now : Tain)
  /-- the handler runs -/
  | handler (s : Signal) (full : Bool)
  /-- `waitpid()` -/
  | waitpid (pid : ℕ)
  | noChild
  deriving Repr

/-- The process `pid` is removed from the table of children. -/
def World.bury (w : World) (pid : ℕ) : World :=
  { w with kids := w.kids.filter (·.pid ≠ pid) }.emit (.reaped pid)

def World.Zombie (w : World) (pid : ℕ) : Prop := ∃ k ∈ w.kids, k.pid = pid ∧ k.dead = true

instance (w : World) (pid : ℕ) : Decidable (w.Zombie pid) :=
  inferInstanceAs (Decidable (∃ k ∈ w.kids, _ ∧ _))

/-- `child_wait()` on the number that `waitpid()` returned. -/
def World.childWait (w : World) (pid : ℕ) : World :=
  if pid = w.pid .logger then { w with pid := Function.update w.pid .logger 0 }
  else if pid = w.pid .program then { w with pid := Function.update w.pid .program 0 }
  else w

/-- The part of `main_loop()` that needs no answer. -/
def stepGo (w : World) : Option World :=
  match w.pc with
  | .top => some { w with pc := if w.flagTerm then .harvest else .start .logger }
  | .start i =>
    if w.pid i = 0 then none else some (w.advance i)
  | .pausing i | .failing i => some { w with pc := .forking i }
  | .polling => if 0 < w.pipe then some { w with pc := .consuming } else none
  | .consuming =>
    some (if 0 < w.pipe then { w with pipe := w.pipe - 1 } else { w with pc := .reaping })
  | .harvest =>
    if T.harvests = true ∧ w.pid .program ≠ 0 then none else some { w with pc := .closing }
  | .closing =>
    if w.pid .logger ≠ 0 then
      some { (w.emit .closed).doKill .logger .sigcont with pc := .harvestLog }
    else some { w with pc := .returned }
  | _ => none

def step (w : World) : Act → Option World
  | .exits k =>
    if k ∈ w.kids ∧ k.dead = false then some (w.exit k) else none
  | .raise s => some { w with pending := Function.update w.pending s true }
  | .go => stepGo T w
  | .clock now =>
    match w.pc with
    | .start i =>
      if w.pid i = 0 then
        some { w with
          pc := if now.less ((w.stamp i).plus (.load 1 0)) then .pausing i else .forking i }
      else none
    | _ => none
  | .forkFails =>
    match w.pc with
    | .forking i => some { w with pc := .failing i }
    | _ => none
  | .forked pid now =>
    match w.pc with
    | .forking i =>
      if 0 < pid ∧ pid ∉ w.kids.map Kid.pid then some ((w.fork i pid now).advance i) else none
    | _ => none
  | .handler s full =>
    if w.pc = .polling ∧ w.pending s = true then
      some (sigtrap T ({ w with pending := Function.update w.pending s false }.emit (.caught s))
        s full)
    else none
  | .waitpid pid =>
    if w.Zombie pid then
      match w.pc with
      | .reaping => some ((w.bury pid).childWait pid)
      | .harvest =>
        if T.harvests = true ∧ pid = w.pid .program then
          some { w.bury pid with pc := .closing }
        else none
      | .harvestLog => if pid = w.pid .logger then some { w.bury pid with pc := .returned } else none
      | _ => none
    else none
  | .noChild =>
    if w.pc = .reaping ∧ ∀ k ∈ w.kids, k.dead = false then
      some ({ w with pc := .top }.emit .waited)
    else none

def run (w : World) : List Act → Option World
  | [] => some w
  | a :: acts => (step T w a).bind fun w' => run w' acts

/-- After `setup()` and `deux_init()`: signals may be pending, and the process
may have children of its own. -/
structure Start where
  kids : List Kid
  pending : Signal → Bool
  foreign : ∀ k ∈ kids, k.which = none
  positive : ∀ k ∈ kids, 0 < k.pid
  nodup : (kids.map Kid.pid).Nodup

def start (c : Start) : World where
  pid _ := 0
  stamp _ := .load 0 0
  flagTerm := false
  pc := .top
  pending := c.pending
  pipe := 0
  kids := c.kids
  trace := []

end Perp.Deux
