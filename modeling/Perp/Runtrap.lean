import Perp.Deux
import Perp.TraceLaw

set_option autoImplicit false

/-!
# Signals for a trapper

`runtrap` keeps one child alive and hands the signals it catches to a program of
their own, for which the handler itself waits: while it waits, other signals are
caught, and their handlers run on top of it.
-/
namespace Perp.Runtrap
open Deux (Signal)
open TraceLaw

/-- Whose a child is; a foreign one the process had before. -/
inductive Role where
  | foreign | child | trapper
  deriving DecidableEq, Repr

/-- A child that has not been waited for. -/
structure Kid where
  pid : ℕ
  role : Role
  dead : Bool
  deriving DecidableEq, Repr

/-- Where a call of `sig_trap()` is. -/
inductive Stage where
  /-- before it looks at `flag_term` -/
  | entered
  /-- before the `switch` -/
  | passed
  /-- before the `kill()` of `do_trap()` -/
  | testing
  | forking
  /-- `sleep(2)` after a `fork()` that failed -/
  | failing
  /-- in the `waitpid()` of `do_trap()` -/
  | waiting (trapper : ℕ)
  /-- before `sigpipe_ping()` -/
  | pinging
  deriving DecidableEq, Repr

/-- A call of `sig_trap()` that has not returned -/
structure Frame where
  sig : Signal
  stage : Stage
  deriving DecidableEq, Repr

/-- Where `main_loop()` is. -/
inductive Pc where
  | top
  /-- `child_exec()`, before it reads the clock -/
  | starting
  /-- `sleep(1)` of `child_exec()` -/
  | pausing
  | forking
  | failing
  /-- from `sigset_unblock()` to `sigset_block()` -/
  | polling
  | consuming
  /-- `child_wait()` -/
  | reaping
  | returned
  deriving DecidableEq, Repr

inductive Event where
  | started (pid : ℕ)
  | reaped (pid : ℕ)
  /-- A signal is caught, and `flag_term` is not set. -/
  | caught (s : Signal)
  /-- A signal is caught and discarded, since `flag_term` is set. -/
  | discarded (s : Signal)
  /-- `flag_term` is set. -/
  | term
  /-- The trapper is forked: the signal and the process that it is told. -/
  | trapped (s : Signal) (target trapper : ℕ)
  /-- `do_trap()` has nothing to trap for. -/
  | denied (s : Signal)
  deriving DecidableEq, Repr

structure World where
  /-- `my_child.pid` -/
  pid : ℕ
  /-- `my_child.when` -/
  stamp : Tain
  flagTerm : Bool
  pc : Pc
  /-- the calls of `sig_trap()`, the last one first -/
  frames : List Frame
  pending : Signal → Bool
  /-- the bytes in the selfpipe -/
  pipe : ℕ
  kids : List Kid
  trace : List Event

namespace World
variable (w : World)

def emit (e : Event) : World := { w with trace := w.trace ++ [e] }

/-- `sigpipe_ping()`; a write to a full pipe fails. -/
def sigpipePing (full : Bool) : World :=
  if full = true ∧ 0 < w.pipe then w else { w with pipe := w.pipe + 1 }

/-- A child ends, and SIGCHLD is sent. -/
def exit (k : Kid) : World :=
  { w with
    kids := w.kids.map fun x => if x = k then { k with dead := true } else x
    pending := Function.update w.pending .sigchld true }

/-- `fork()` that succeeds in `child_exec()`. -/
def start (pid : ℕ) (now : Tain) : World :=
  { w with
    pid := pid
    stamp := now
    pc := .polling
    kids := ⟨pid, .child, false⟩ :: w.kids }.emit (.started pid)

/-- `fork()` that succeeds in `do_trap()`. -/
def trap (s : Signal) (trapper : ℕ) (fs : List Frame) : World :=
  { w with
    frames := ⟨s, .waiting trapper⟩ :: fs
    kids := ⟨trapper, .trapper, false⟩ :: w.kids }.emit (.trapped s w.pid trapper)

/-- The process `pid` is removed from the table of children. -/
def bury (pid : ℕ) : World :=
  { w with kids := w.kids.filter (·.pid ≠ pid) }.emit (.reaped pid)

def Zombie (pid : ℕ) : Prop := ∃ k ∈ w.kids, k.pid = pid ∧ k.dead = true

instance (pid : ℕ) : Decidable (w.Zombie pid) :=
  inferInstanceAs (Decidable (∃ k ∈ w.kids, _ ∧ _))

/-- `child_wait()` on the number that `waitpid()` returned. -/
def childWait (pid : ℕ) : World := if pid = w.pid then { w with pid := 0 } else w

end World

/-- A step of the process with what its system call returns, or a step of the world
around it. -/
inductive Act where
  /-- a child ends -/
  | exits (k : Kid)
  /-- a signal is sent to the process -/
  | raise (s : Signal)
  | go
  /-- `tain_now()` in `child_exec()` -/
  | clock (now : Tain)
  | forkFails
  | forked (pid : ℕ) (now : Tain)
  /-- `poll()` fails, and not for a signal -/
  | pollFails
  /-- `sig_trap()` is called -/
  | handler (s : Signal)
  /-- `kill(my_child.pid, 0)`: does it fail? -/
  | kill (fails : Bool)
  /-- `waitpid()` -/
  | waitpid (pid : ℕ)
  | noChild
  /-- `sigpipe_ping()`, and `sig_trap()` returns -/
  | ping (full : Bool)
  deriving Repr

/-- The part of `sig_trap()` and `do_trap()` that needs no answer, on the last call -/
def goFrame (w : World) (f : Frame) (fs : List Frame) : Option World :=
  match f.stage with
  | .entered =>
    if w.flagTerm then some ({ w with frames := ⟨f.sig, .pinging⟩ :: fs }.emit (.discarded f.sig))
    else some ({ w with frames := ⟨f.sig, .passed⟩ :: fs }.emit (.caught f.sig))
  | .passed =>
    if f.sig = .sigchld then some { w with frames := ⟨f.sig, .pinging⟩ :: fs }
    else if f.sig = .sigterm then
      some ({ w with flagTerm := true, frames := ⟨f.sig, .testing⟩ :: fs }.emit .term)
    else some { w with frames := ⟨f.sig, .testing⟩ :: fs }
  | .testing =>
    if w.pid = 0 then some ({ w with frames := ⟨f.sig, .pinging⟩ :: fs }.emit (.denied f.sig))
    else none
  | .failing => some { w with frames := ⟨f.sig, .forking⟩ :: fs }
  | _ => none

/-- The part of `main_loop()` that needs no answer -/
def goMain (w : World) : Option World :=
  match w.pc with
  | .top =>
    if w.flagTerm = true ∧ w.pid = 0 then some { w with pc := .returned }
    else if w.pid = 0 then some { w with pc := .starting }
    else some { w with pc := .polling }
  | .pausing | .failing => some { w with pc := .forking }
  | .polling => if 0 < w.pipe then some { w with pc := .consuming } else none
  | .consuming =>
    some (if 0 < w.pipe then { w with pipe := w.pipe - 1 } else { w with pc := .reaping })
  | _ => none

def New (w : World) (pid : ℕ) : Prop := 0 < pid ∧ pid ∉ w.kids.map Kid.pid

instance (w : World) (pid : ℕ) : Decidable (New w pid) :=
  inferInstanceAs (Decidable (_ ∧ _))

def step (w : World) : Act → Option World
  | .exits k => if k ∈ w.kids ∧ k.dead = false then some (w.exit k) else none
  | .raise s => some { w with pending := Function.update w.pending s true }
  | .go =>
    match w.frames with
    | [] => goMain w
    | f :: fs => goFrame w f fs
  | .clock now =>
    if w.pc = .starting then
      some { w with
        pc := if now.less (w.stamp.plus (.load 1 0)) then .pausing else .forking }
    else none
  | .forkFails =>
    match w.frames with
    | [] => if w.pc = .forking then some { w with pc := .failing } else none
    | f :: fs =>
      if f.stage = .forking then some { w with frames := ⟨f.sig, .failing⟩ :: fs } else none
  | .forked pid now =>
    if New w pid then
      match w.frames with
      | [] => if w.pc = .forking then some (w.start pid now) else none
      | f :: fs => if f.stage = .forking then some (w.trap f.sig pid fs) else none
    else none
  | .pollFails =>
    if w.frames = [] ∧ w.pc = .polling then some { w with pc := .consuming } else none
  | .handler s =>
    if w.pc = .polling ∧ w.pending s = true ∧ s ∉ w.frames.map Frame.sig then
      some { w with
        pending := Function.update w.pending s false
        frames := ⟨s, .entered⟩ :: w.frames }
    else none
  | .kill fails =>
    match w.frames with
    | [] => none
    | f :: fs =>
      if f.stage = .testing ∧ w.pid ≠ 0 then
        if fails then some ({ w with frames := ⟨f.sig, .pinging⟩ :: fs }.emit (.denied f.sig))
        else some { w with frames := ⟨f.sig, .forking⟩ :: fs }
      else none
  | .waitpid pid =>
    if w.Zombie pid then
      match w.frames with
      | [] => if w.pc = .reaping then some ((w.bury pid).childWait pid) else none
      | f :: fs =>
        if f.stage = .waiting pid then
          some ({ w with frames := ⟨f.sig, .pinging⟩ :: fs }.bury pid)
        else none
    else none
  | .noChild =>
    if w.pc = .reaping ∧ ∀ k ∈ w.kids, k.dead = false then some { w with pc := .top } else none
  | .ping full =>
    match w.frames with
    | [] => none
    | f :: fs =>
      if f.stage = .pinging then some ({ w with frames := fs }.sigpipePing full) else none

def run (w : World) : List Act → Option World
  | [] => some w
  | a :: acts => (step w a).bind fun w' => run w' acts

/-- After `setup()`: signals may be pending, and the process may have children of its own. -/
structure Start where
  kids : List Kid
  pending : Signal → Bool
  foreign : ∀ k ∈ kids, k.role = .foreign
  positive : ∀ k ∈ kids, 0 < k.pid
  nodup : (kids.map Kid.pid).Nodup

def start (c : Start) : World where
  pid := 0
  stamp := .load 0 0
  flagTerm := false
  pc := .top
  frames := []
  pending := c.pending
  pipe := 0
  kids := c.kids
  trace := []

/-! ## Moves -/

/-- In `child_exec()` -/
def Pc.exec : Pc → Bool
  | .starting | .pausing | .forking | .failing => true
  | _ => false

/-- The steps of `main_loop()` that do nothing else -/
inductive Goto (w : World) : Pc → Prop
  | leave (hpc : w.pc = .top) (ht : w.flagTerm = true) (h0 : w.pid = 0) : Goto w .returned
  | begin (hpc : w.pc = .top) (ht : w.flagTerm = false) (h0 : w.pid = 0) : Goto w .starting
  | poll (hpc : w.pc = .top) (h0 : w.pid ≠ 0) : Goto w .polling
  | exec {pc : Pc} (hpc : w.pc.exec = true) (hpc' : pc.exec = true) : Goto w pc
  | consume (hf : w.frames = []) (hpc : w.pc = .polling) : Goto w .consuming
  | reap (hpc : w.pc = .consuming) (hp : w.pipe = 0) : Goto w .reaping
  | done (hpc : w.pc = .reaping) (h : ∀ k ∈ w.kids, k.dead = false) : Goto w .top

/-- The steps of a call of `sig_trap()` that nobody sees; `forks` tells whether a trapper
is still to be forked for it. -/
def Stage.forks : Stage → Bool
  | .passed | .testing | .forking | .failing => true
  | _ => false

inductive Move (w : World) : World → Prop
  | exits (k : Kid) (hk : k ∈ w.kids) (hd : k.dead = false) : Move w (w.exit k)
  | raise (s : Signal) : Move w { w with pending := Function.update w.pending s true }
  | goto (pc : Pc) (h : Goto w pc) : Move w { w with pc }
  | drain (hpc : w.pc = .consuming) : Move w { w with pipe := w.pipe - 1 }
  | start (pid : ℕ) (now : Tain) (hf : w.frames = []) (hpc : w.pc = .forking) (hnew : New w pid) :
      Move w (w.start pid now)
  | handler (s : Signal) (hpc : w.pc = .polling) (hs : w.pending s = true)
      (hnew : s ∉ w.frames.map Frame.sig) :
      Move w { w with
        pending := Function.update w.pending s false
        frames := ⟨s, .entered⟩ :: w.frames }
  | caught {f : Frame} {fs : List Frame} (hf : w.frames = f :: fs) (hst : f.stage = .entered)
      (ht : w.flagTerm = false) :
      Move w ({ w with frames := ⟨f.sig, .passed⟩ :: fs }.emit (.caught f.sig))
  | discarded {f : Frame} {fs : List Frame} (hf : w.frames = f :: fs) (hst : f.stage = .entered)
      (ht : w.flagTerm = true) :
      Move w ({ w with frames := ⟨f.sig, .pinging⟩ :: fs }.emit (.discarded f.sig))
  | wake {f : Frame} {fs : List Frame} (hf : w.frames = f :: fs) (hst : f.stage = .passed)
      (hs : f.sig = .sigchld) : Move w { w with frames := ⟨f.sig, .pinging⟩ :: fs }
  | term {f : Frame} {fs : List Frame} (hf : w.frames = f :: fs) (hst : f.stage = .passed)
      (hs : f.sig = .sigterm) :
      Move w ({ w with flagTerm := true, frames := ⟨f.sig, .testing⟩ :: fs }.emit .term)
  | advance {f : Frame} {fs : List Frame} (hf : w.frames = f :: fs) (hst : f.stage.forks = true)
      {st : Stage} (hst' : st.forks = true) (hp : f.stage = .passed → f.sig ≠ .sigterm)
      (hpass : st ≠ .passed) (hs : f.sig ≠ .sigchld ∨ f.stage ≠ .passed) :
      Move w { w with frames := ⟨f.sig, st⟩ :: fs }
  | denied {f : Frame} {fs : List Frame} (hf : w.frames = f :: fs) (hst : f.stage = .testing) :
      Move w ({ w with frames := ⟨f.sig, .pinging⟩ :: fs }.emit (.denied f.sig))
  | trap (pid : ℕ) {f : Frame} {fs : List Frame} (hf : w.frames = f :: fs)
      (hst : f.stage = .forking) (hnew : New w pid) : Move w (w.trap f.sig pid fs)
  | waited (pid : ℕ) {f : Frame} {fs : List Frame} (hf : w.frames = f :: fs)
      (hst : f.stage = .waiting pid) :
      Move w ({ w with frames := ⟨f.sig, .pinging⟩ :: fs }.bury pid)
  | ping (full : Bool) {f : Frame} {fs : List Frame} (hf : w.frames = f :: fs)
      (hst : f.stage = .pinging) : Move w ({ w with frames := fs }.sigpipePing full)
  | reap (pid : ℕ) (hf : w.frames = []) (hpc : w.pc = .reaping) (hz : w.Zombie pid) :
      Move w ((w.bury pid).childWait pid)

variable {w w' : World}

theorem goFrame_move {f : Frame} {fs : List Frame} (hf : w.frames = f :: fs)
    (h : goFrame w f fs = some w') : Move w w' := by
  unfold goFrame at h
  split at h
  · next hst =>
    split at h
    · next ht =>
      obtain rfl := Option.some.inj h
      exact .discarded hf hst ht
    · next ht =>
      obtain rfl := Option.some.inj h
      exact .caught hf hst (by simpa using ht)
  · next hst =>
    split at h
    · next hs =>
      obtain rfl := Option.some.inj h
      exact .wake hf hst hs
    · next hs =>
      split at h
      · next ht =>
        obtain rfl := Option.some.inj h
        exact .term hf hst ht
      · next ht =>
        obtain rfl := Option.some.inj h
        exact .advance hf (by rw [hst]; rfl) rfl (fun _ => ht) (by simp) (.inl hs)
  · next hst =>
    split at h
    · obtain rfl := Option.some.inj h
      exact .denied hf hst
    · cases h
  · next hst =>
    obtain rfl := Option.some.inj h
    exact .advance hf (by rw [hst]; rfl) rfl (by simp [hst]) (by simp) (.inr (by simp [hst]))
  · cases h

theorem goMain_move (hf : w.frames = []) (h : goMain w = some w') : Move w w' := by
  unfold goMain at h
  split at h
  · next hpc =>
    split at h
    · next ht =>
      obtain rfl := Option.some.inj h
      exact .goto _ (.leave hpc ht.1 ht.2)
    · next ht =>
      split at h
      · next h0 =>
        obtain rfl := Option.some.inj h
        exact .goto _ (.begin hpc (by simpa [h0] using ht) h0)
      · next h0 =>
        obtain rfl := Option.some.inj h
        exact .goto _ (.poll hpc h0)
  · next hpc =>
    obtain rfl := Option.some.inj h
    exact .goto _ (.exec (by rw [hpc]; rfl) rfl)
  · next hpc =>
    obtain rfl := Option.some.inj h
    exact .goto _ (.exec (by rw [hpc]; rfl) rfl)
  · next hpc =>
    split at h
    · obtain rfl := Option.some.inj h
      exact .goto _ (.consume hf hpc)
    · cases h
  · next hpc =>
    obtain rfl := Option.some.inj h
    split
    · exact .drain hpc
    · next hp => exact .goto _ (.reap hpc (by omega))
  · cases h

theorem step_move {a : Act} (h : step w a = some w') : Move w w' := by
  cases a with
  | exits k =>
    simp only [step, Option.ite_none_right_eq_some, Option.some.injEq] at h
    obtain ⟨⟨hk, hd⟩, rfl⟩ := h
    exact .exits k hk hd
  | raise s =>
    obtain rfl := Option.some.inj h
    exact .raise s
  | go =>
    simp only [step] at h
    split at h
    · next hf => exact goMain_move hf h
    · next f fs hf => exact goFrame_move hf h
  | clock now =>
    simp only [step, Option.ite_none_right_eq_some, Option.some.injEq] at h
    obtain ⟨hpc, rfl⟩ := h
    refine .goto _ (.exec (by rw [hpc]; rfl) ?_)
    split <;> rfl
  | forkFails =>
    simp only [step] at h
    split at h
    · simp only [Option.ite_none_right_eq_some, Option.some.injEq] at h
      obtain ⟨hpc, rfl⟩ := h
      exact .goto _ (.exec (by rw [hpc]; rfl) rfl)
    · next f fs hf =>
      simp only [Option.ite_none_right_eq_some, Option.some.injEq] at h
      obtain ⟨hst, rfl⟩ := h
      exact .advance hf (by rw [hst]; rfl) rfl (by simp [hst]) (by simp) (.inr (by simp [hst]))
  | forked pid now =>
    simp only [step, Option.ite_none_right_eq_some] at h
    obtain ⟨hnew, h⟩ := h
    split at h
    · next hf =>
      simp only [Option.ite_none_right_eq_some, Option.some.injEq] at h
      obtain ⟨hpc, rfl⟩ := h
      exact .start pid now hf hpc hnew
    · next f fs hf =>
      simp only [Option.ite_none_right_eq_some, Option.some.injEq] at h
      obtain ⟨hst, rfl⟩ := h
      exact .trap pid hf hst hnew
  | pollFails =>
    simp only [step, Option.ite_none_right_eq_some, Option.some.injEq] at h
    obtain ⟨⟨hf, hpc⟩, rfl⟩ := h
    exact .goto _ (.consume hf hpc)
  | handler s =>
    simp only [step, Option.ite_none_right_eq_some, Option.some.injEq] at h
    obtain ⟨⟨hpc, hs, hnew⟩, rfl⟩ := h
    exact .handler s hpc hs hnew
  | kill fails =>
    simp only [step] at h
    split at h
    · cases h
    · next f fs hf =>
      simp only [Option.ite_none_right_eq_some] at h
      obtain ⟨⟨hst, -⟩, h⟩ := h
      split at h
      · obtain rfl := Option.some.inj h
        exact .denied hf hst
      · obtain rfl := Option.some.inj h
        exact .advance hf (by rw [hst]; rfl) rfl (by simp [hst]) (by simp) (.inr (by simp [hst]))
  | waitpid pid =>
    simp only [step, Option.ite_none_right_eq_some] at h
    obtain ⟨hz, h⟩ := h
    split at h
    · next hf =>
      simp only [Option.ite_none_right_eq_some, Option.some.injEq] at h
      obtain ⟨hpc, rfl⟩ := h
      exact .reap pid hf hpc hz
    · next f fs hf =>
      simp only [Option.ite_none_right_eq_some, Option.some.injEq] at h
      obtain ⟨hst, rfl⟩ := h
      exact .waited pid hf hst
  | noChild =>
    simp only [step, Option.ite_none_right_eq_some, Option.some.injEq] at h
    obtain ⟨⟨hpc, hall⟩, rfl⟩ := h
    exact .goto _ (.done hpc hall)
  | ping full =>
    simp only [step] at h
    split at h
    · cases h
    · next f fs hf =>
      simp only [Option.ite_none_right_eq_some, Option.some.injEq] at h
      obtain ⟨hst, rfl⟩ := h
      exact .ping full hf hst

end Perp.Runtrap
