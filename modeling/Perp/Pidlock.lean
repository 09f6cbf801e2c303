import Mathlib.Algebra.Order.Ring.Nat
import Mathlib.Logic.Function.Basic
import Mathlib.Tactic.Common

set_option autoImplicit false

/-!
# Lock files

`lasagna/pidlock`, `lasagna/padlock`: any number of processes call
`pidlock_set()` on one path, and their system calls interleave. A record lock
belongs to the inode; a close of any descriptor of a file drops the lock its
process has on it.
-/
namespace Perp.Pidlock

inductive Errno where
  | eintr | eacces | eagain
  | other
  deriving DecidableEq, Repr

/-- The next system call of a process in `pidlock_set()`. -/
inductive Pc where
  /-- not in `pidlock_set()` -/
  | out
  | opening (pid : ℕ) (wait : Bool)
  /-- `padlock_exlock()` -/
  | locking (pid : ℕ) (wait : Bool) (ino : ℕ)
  /-- `do_pid()` -/
  | truncating (pid : ℕ) (ino : ℕ)
  | writing (pid : ℕ) (ino : ℕ)
  | chmoding (ino : ℕ)
  /-- from the label `fail` on -/
  | closing (ino : ℕ) (inUse : Bool)
  /-- `padlock_unlock()` on the descriptor that has just been closed -/
  | unlocking
  | unlinking
  | dead
  deriving DecidableEq, Repr

/-- The file of the descriptor of the call. -/
def Pc.inode : Pc → Option ℕ
  | .locking _ _ ino | .truncating _ ino | .writing _ ino | .chmoding ino | .closing ino _ => some ino
  | _ => none

structure Proc where
  pc : Pc
  /-- the files of the descriptors that calls have returned -/
  held : List ℕ
  deriving DecidableEq, Repr

/-- The process has a descriptor of the file. -/
def Proc.Opens (x : Proc) (ino : ℕ) : Prop := ino ∈ x.held ∨ x.pc.inode = some ino

instance (x : Proc) (ino : ℕ) : Decidable (x.Opens ino) :=
  inferInstanceAs (Decidable (_ ∨ _))

structure World where
  procs : ℕ → Proc
  /-- what `lockfile` names -/
  name : Option ℕ
  /-- the inodes from here on have not been used -/
  fresh : ℕ
  /-- the owner of the lock on an inode -/
  lock : ℕ → Option ℕ
  text : ℕ → List Char

/-- A call, the return of a system call, or the end of the process. -/
inductive Act where
  | call (pid : ℕ) (wait : Bool)
  | ok
  /-- `write()` that stores fewer bytes -/
  | short (n : ℕ)
  | err (e : Errno)
  | exit
  deriving DecidableEq, Repr

namespace World
variable (w : World) (p : ℕ)

def goto (pc : Pc) : World := { w with procs := Function.update w.procs p { w.procs p with pc } }

/-- `open()` with `O_CREAT`. -/
def opens (pid : ℕ) (wait : Bool) : World :=
  match w.name with
  | some ino => w.goto p (.locking pid wait ino)
  | none =>
    { w.goto p (.locking pid wait w.fresh) with
      name := some w.fresh
      fresh := w.fresh + 1
      text := Function.update w.text w.fresh [] }

/-- The lock on the file is free, or the caller's own. -/
def Free (ino : ℕ) : Prop := w.lock ino = none ∨ w.lock ino = some p

instance (ino : ℕ) : Decidable (w.Free p ino) := inferInstanceAs (Decidable (_ ∨ _))

def acquire (ino : ℕ) : World := { w with lock := Function.update w.lock ino (some p) }

def drop (ino : ℕ) : World :=
  if w.lock ino = some p then { w with lock := Function.update w.lock ino none } else w

def setText (ino : ℕ) (s : List Char) : World := { w with text := Function.update w.text ino s }

@[simp] theorem setText_name (ino : ℕ) (s : List Char) : (w.setText ino s).name = w.name := rfl

@[simp] theorem setText_lock (ino : ℕ) (s : List Char) : (w.setText ino s).lock = w.lock := rfl

/-- The successful return of the descriptor. -/
def returns (ino : ℕ) : World :=
  { w with procs := Function.update w.procs p ⟨.out, ino :: (w.procs p).held⟩ }

/-- The end of the process closes its descriptors. -/
def exits : World :=
  { w with
    procs := Function.update w.procs p ⟨.dead, []⟩
    lock := fun ino => if w.lock ino = some p then none else w.lock ino }

end World

/-- `nfmt_uint32()` of the process number, and a newline. -/
def pidText (pid : ℕ) : List Char := Nat.toDigits 10 (pid % 2 ^ 32) ++ ['\n']

/-- One system call of the process `p`, with what it returns. -/
def step (w : World) (p : ℕ) : Act → Option World
  | .exit => if (w.procs p).pc = .dead then none else some (w.exits p)
  | .call pid wait => if (w.procs p).pc = .out then some (w.goto p (.opening pid wait)) else none
  | .ok =>
    match (w.procs p).pc with
    | .opening pid wait => some (w.opens p pid wait)
    | .locking pid _ ino =>
      if w.Free p ino then
        some ((w.acquire p ino).goto p (if pid ≠ 0 then .truncating pid ino else .chmoding ino))
      else none
    | .truncating pid ino => some ((w.setText ino []).goto p (.writing pid ino))
    | .writing pid ino => some ((w.setText ino (w.text ino ++ pidText pid)).goto p (.chmoding ino))
    | .chmoding ino => some (w.returns p ino)
    | .closing ino inUse => some ((w.drop p ino).goto p (if inUse then .out else .unlocking))
    | .unlinking => if w.name = none then none else some ({ w with name := none }.goto p .out)
    | _ => none
  | .short n =>
    match (w.procs p).pc with
    | .writing pid ino =>
      some ((w.setText ino (w.text ino ++ (pidText pid).take n)).goto p (.closing ino false))
    | _ => none
  | .err e =>
    match (w.procs p).pc with
    | .opening _ _ => some (w.goto p .out)
    | .locking _ wait ino =>
      match e with
      | .eintr => some w
      | .other => some (w.goto p (.closing ino false))
      | _ => if wait = false ∧ ¬ w.Free p ino then some (w.goto p (.closing ino true)) else none
    | .truncating _ ino | .writing _ ino =>
      if e = .eintr then some w else some (w.goto p (.closing ino false))
    | .chmoding ino => some (w.goto p (.closing ino false))
    -- a close that fails other than by a signal has closed the descriptor
    | .closing ino inUse =>
      if e = .eintr then some w
      else some ((w.drop p ino).goto p (if inUse then .out else .unlocking))
    | .unlocking => some (w.goto p .unlinking)
    | .unlinking => some (w.goto p .out)
    | _ => none

/-- A run from `w`: which process goes on, and what its system call returns. -/
def run (w : World) : List (ℕ × Act) → Option World
  | [] => some w
  | (p, a) :: acts => (step w p a).bind fun w' => run w' acts

/-- Nobody has called `pidlock_set()`; the lock file may be there. -/
def start (name : Option ℕ) (text : ℕ → List Char) : World where
  procs _ := ⟨.out, []⟩
  name
  fresh := name.elim 0 (· + 1)
  lock _ := none
  text

/-- Two live processes never hold descriptors that `pidlock_set()` returned. -/
def Exclusive (w : World) : Prop :=
  ∀ p q, p ≠ q → (w.procs p).held ≠ [] → (w.procs q).held = []

/-- The step takes nothing from another process: it does not close a file on
which the process already holds the lock, and does not unlink the lock file
while another process has it open. -/
structure Guarded (w : World) (p : ℕ) (a : Act) : Prop where
  close : ∀ ino inUse, (w.procs p).pc = .closing ino inUse → a ≠ .exit → ino ∉ (w.procs p).held
  unlink : (w.procs p).pc = .unlinking → a = .ok → ∀ ino, w.name = some ino →
    ∀ q, q ≠ p → ¬ (w.procs q).Opens ino

/-- A run from `w` of guarded steps. -/
inductive GuardedRun : World → List (ℕ × Act) → World → Prop
  | nil (w : World) : GuardedRun w [] w
  | cons {w w' w'' : World} {p : ℕ} {a : Act} {acts : List (ℕ × Act)} (hg : Guarded w p a)
      (hs : step w p a = some w') (hr : GuardedRun w' acts w'') : GuardedRun w ((p, a) :: acts) w''

/-- The file on which the call has the lock. -/
def Pc.locked : Pc → Option ℕ
  | .truncating _ ino | .writing _ ino | .chmoding ino => some ino
  | _ => none

/-- The call has closed its descriptor and is going to unlink the file. -/
def Pc.Spent (pc : Pc) : Prop := pc = .unlocking ∨ pc = .unlinking

/-- All open descriptors are of the file that the path names, and who returned
one or is about to owns its lock. -/
structure Inv (w : World) : Prop where
  named : ∀ p ino, (w.procs p).Opens ino → w.name = some ino
  held : ∀ p, ∀ ino ∈ (w.procs p).held, w.lock ino = some p
  locked : ∀ p ino, (w.procs p).pc.locked = some ino → w.lock ino = some p
  spent : ∀ p, (w.procs p).pc.Spent → (w.procs p).held = []

namespace Inv
variable {w w' : World} {p : ℕ}

theorem exclusive (h : Inv w) : Exclusive w := by
  intro p q hpq hp
  obtain ⟨i, hi⟩ := List.exists_mem_of_ne_nil _ hp
  by_contra hq
  obtain ⟨j, hj⟩ := List.exists_mem_of_ne_nil _ hq
  have hij : i = j := Option.some.inj ((h.named p i (.inl hi)).symm.trans (h.named q j (.inl hj)))
  subst hij
  exact hpq (Option.some.inj ((h.held p i hi).symm.trans (h.held q i hj)))

/-- A step that changes only the process `p`, and takes no lock from another one. -/
theorem of_update {x : Proc} (h : Inv w) (hprocs : w'.procs = Function.update w.procs p x)
    (hname : w'.name = w.name) (hlock : ∀ q i, q ≠ p → w.lock i = some q → w'.lock i = some q)
    (hopens : ∀ ino, x.Opens ino → w.name = some ino)
    (hheld : ∀ ino ∈ x.held, w'.lock ino = some p)
    (hlocked : ∀ ino, x.pc.locked = some ino → w'.lock ino = some p)
    (hspent : x.pc.Spent → x.held = []) : Inv w' := by
  have hself : w'.procs p = x := by rw [hprocs, Function.update_self]
  have hother : ∀ q, q ≠ p → w'.procs q = w.procs q := fun q hqp => by
    rw [hprocs, Function.update_of_ne hqp]
  refine ⟨fun q ino hq => ?_, fun q ino hq => ?_, fun q ino hq => ?_, fun q hq => ?_⟩ <;>
    by_cases hqp : q = p
  · subst hqp
    rw [hname]
    exact hopens ino (hself ▸ hq)
  · rw [hname]
    exact h.named q ino (hother q hqp ▸ hq)
  · subst hqp
    exact hheld ino (hself ▸ hq)
  · exact hlock q ino hqp (h.held q ino (hother q hqp ▸ hq))
  · subst hqp
    exact hlocked ino (hself ▸ hq)
  · exact hlock q ino hqp (h.locked q ino (hother q hqp ▸ hq))
  · subst hqp
    rw [hself] at hq ⊢
    exact hspent hq
  · rw [hother q hqp] at hq ⊢
    exact h.spent q hq

theorem goto {pc : Pc} (h : Inv w) (hn : ∀ ino, pc.inode = some ino → w.name = some ino)
    (hl : ∀ ino, pc.locked = some ino → w.lock ino = some p)
    (hs : pc.Spent → (w.procs p).held = []) : Inv (w.goto p pc) := by
  refine h.of_update rfl rfl (fun _ _ _ hq => hq) (fun ino ho => ?_) (h.held p) hl hs
  exact ho.elim (fun hm => h.named p ino (.inl hm)) (hn ino)

theorem setText (h : Inv w) (ino : ℕ) (s : List Char) : Inv (w.setText ino s) :=
  ⟨h.named, h.held, h.locked, h.spent⟩

theorem opens (h : Inv w) (pid : ℕ) (wait : Bool) : Inv (w.opens p pid wait) := by
  unfold World.opens
  cases hname : w.name with
  | some ino => exact h.goto (by simp [Pc.inode, hname]) (by simp [Pc.locked]) (by simp [Pc.Spent])
  | none =>
    -- nobody has a descriptor while the path names nothing
    have hnone (q ino : ℕ) : ¬ (w.procs q).Opens ino := fun hq => by
      simp [h.named q ino hq] at hname
    have hfree : Inv { w with
        name := some w.fresh, fresh := w.fresh + 1, text := Function.update w.text w.fresh [] } :=
      ⟨fun q ino hq => absurd hq (hnone q ino), h.held, h.locked, h.spent⟩
    exact hfree.goto (by simp [Pc.inode]) (by simp [Pc.locked]) (by simp [Pc.Spent])

theorem acquire {ino : ℕ} (h : Inv w) (hf : w.Free p ino) : Inv (w.acquire p ino) := by
  have howner {q i : ℕ} (hq : w.lock i = some q) : (w.acquire p ino).lock i = some q := by
    by_cases hi : i = ino
    · subst hi
      rcases hf with hf | hf <;> simp_all [World.acquire]
    · simp [World.acquire, Function.update_of_ne hi, hq]
  exact ⟨h.named, fun q i hi => howner (h.held q i hi), fun q i hi => howner (h.locked q i hi),
    h.spent⟩

theorem drop {ino : ℕ} (h : Inv w) (hm : ino ∉ (w.procs p).held)
    (hl : (w.procs p).pc.locked = none) : Inv (w.drop p ino) := by
  unfold World.drop
  split
  · next hown =>
    have howner {q i : ℕ} (hne : q = p → i ≠ ino) (hq : w.lock i = some q) :
        Function.update w.lock ino none i = some q := by
      have hi : i ≠ ino := by
        rintro rfl
        exact hne (Option.some.inj (hq.symm.trans hown)) rfl
      rwa [Function.update_of_ne hi]
    refine ⟨h.named, fun q i hi => howner ?_ (h.held q i hi),
      fun q i hi => howner ?_ (h.locked q i hi), h.spent⟩
    · rintro rfl rfl
      exact hm hi
    · rintro rfl
      simp [hl] at hi
  · exact h

theorem returns {ino : ℕ} (h : Inv w) (hpc : (w.procs p).pc = .chmoding ino) :
    Inv (w.returns p ino) := by
  have hname := h.named p ino (.inr (by simp [hpc, Pc.inode]))
  have hlock := h.locked p ino (by simp [hpc, Pc.locked])
  refine h.of_update rfl rfl (fun _ _ _ hq => hq) (fun i ho => ?_) (fun i hi => ?_)
    (by simp [Pc.locked]) (by simp [Pc.Spent])
  · simp only [Proc.Opens, Pc.inode, List.mem_cons] at ho
    rcases ho with (rfl | ho) | ho
    · exact hname
    · exact h.named p i (.inl ho)
    · simp at ho
  · rcases List.mem_cons.mp hi with rfl | hi
    · exact hlock
    · exact h.held p i hi

theorem exits (h : Inv w) : Inv (w.exits p) := by
  refine h.of_update rfl rfl (fun q i hqp hq => ?_) (by simp [Proc.Opens, Pc.inode]) (by simp)
    (by simp [Pc.locked]) (by simp [Pc.Spent])
  simp [World.exits, hq, hqp]

theorem close {ino : ℕ} {inUse : Bool} (h : Inv w) (hpc : (w.procs p).pc = .closing ino inUse)
    (hm : ino ∉ (w.procs p).held) :
    Inv ((w.drop p ino).goto p (if inUse then .out else .unlocking)) := by
  have hprocs : (w.drop p ino).procs = w.procs := by
    unfold World.drop
    split <;> rfl
  have hd : Inv (w.drop p ino) := h.drop hm (by simp [hpc, Pc.locked])
  refine hd.goto ?_ ?_ fun _ => ?_
  · cases inUse <;> simp [Pc.inode]
  · cases inUse <;> simp [Pc.locked]
  · -- whatever else the process holds is this same file
    rw [hprocs]
    refine List.eq_nil_iff_forall_not_mem.mpr fun i hi => hm ?_
    have hname := h.named p ino (.inr (by simp [hpc, Pc.inode]))
    rwa [← Option.some.inj ((h.named p i (.inl hi)).symm.trans hname)]

theorem unlink (h : Inv w) (hpc : (w.procs p).pc = .unlinking)
    (hg : ∀ ino, w.name = some ino → ∀ q, q ≠ p → ¬ (w.procs q).Opens ino) :
    Inv ({ w with name := none }.goto p .out) := by
  have hnone (q ino : ℕ) : ¬ (w.procs q).Opens ino := by
    intro hq
    by_cases hqp : q = p
    · subst hqp
      have hheld := h.spent q (.inr hpc)
      simp [Proc.Opens, hheld, hpc, Pc.inode] at hq
    · exact hg ino (h.named q ino hq) q hqp hq
  have hfree : Inv { w with name := none } :=
    ⟨fun q ino hq => absurd hq (hnone q ino), h.held, h.locked, h.spent⟩
  exact hfree.goto (by simp [Pc.inode]) (by simp [Pc.locked]) (by simp [Pc.Spent])

theorem step {a : Act} (h : Inv w) (hg : Guarded w p a) (hs : step w p a = some w') : Inv w' := by
  have hname {ino : ℕ} (hi : (w.procs p).pc.inode = some ino) : w.name = some ino :=
    h.named p ino (.inr hi)
  cases a with
  | exit =>
    simp only [Pidlock.step] at hs
    split at hs
    · simp at hs
    · obtain rfl := Option.some.inj hs
      exact h.exits
  | call pid wait =>
    simp only [Pidlock.step] at hs
    split at hs
    · obtain rfl := Option.some.inj hs
      exact h.goto (by simp [Pc.inode]) (by simp [Pc.locked]) (by simp [Pc.Spent])
    · simp at hs
  | ok =>
    simp only [Pidlock.step] at hs
    split at hs
    · obtain rfl := Option.some.inj hs
      exact h.opens _ _
    · next pid wait ino hpc =>
      split at hs
      · next hf =>
        obtain rfl := Option.some.inj hs
        have hn := hname (by rw [hpc]; rfl)
        refine (h.acquire hf).goto ?_ ?_ ?_
        · split <;> simp [Pc.inode, World.acquire, hn]
        · split <;> simp [Pc.locked, World.acquire]
        · split <;> simp [Pc.Spent]
      · simp at hs
    · next pid ino hpc =>
      obtain rfl := Option.some.inj hs
      have hn := hname (by rw [hpc]; rfl)
      have hl := h.locked p ino (by rw [hpc]; rfl)
      exact (h.setText ino []).goto (by simpa [Pc.inode] using hn) (by simpa [Pc.locked] using hl)
        (by simp [Pc.Spent])
    · next pid ino hpc =>
      obtain rfl := Option.some.inj hs
      have hn := hname (by rw [hpc]; rfl)
      have hl := h.locked p ino (by rw [hpc]; rfl)
      exact (h.setText ino _).goto (by simpa [Pc.inode] using hn) (by simpa [Pc.locked] using hl)
        (by simp [Pc.Spent])
    · next ino hpc =>
      obtain rfl := Option.some.inj hs
      exact h.returns hpc
    · next ino inUse hpc =>
      obtain rfl := Option.some.inj hs
      exact h.close hpc (hg.close ino inUse hpc (by simp))
    · next hpc =>
      split at hs
      · simp at hs
      · obtain rfl := Option.some.inj hs
        exact h.unlink hpc (hg.unlink hpc rfl)
    · simp at hs
  | short n =>
    simp only [Pidlock.step] at hs
    split at hs
    · next pid ino hpc =>
      obtain rfl := Option.some.inj hs
      have hn := hname (by rw [hpc]; rfl)
      exact (h.setText ino _).goto (by simpa [Pc.inode] using hn) (by simp [Pc.locked])
        (by simp [Pc.Spent])
    · simp at hs
  | err e =>
    have hfail {pc : Pc} {ino : ℕ} {inUse : Bool} (hpc : (w.procs p).pc = pc)
        (hi : pc.inode = some ino) : Inv (w.goto p (.closing ino inUse)) :=
      h.goto (by simpa [Pc.inode] using hname (hpc ▸ hi)) (by simp [Pc.locked]) (by simp [Pc.Spent])
    simp only [Pidlock.step] at hs
    split at hs
    · obtain rfl := Option.some.inj hs
      exact h.goto (by simp [Pc.inode]) (by simp [Pc.locked]) (by simp [Pc.Spent])
    · next pid wait ino hpc =>
      split at hs
      · obtain rfl := Option.some.inj hs
        exact h
      · obtain rfl := Option.some.inj hs
        exact hfail hpc rfl
      · split at hs
        · obtain rfl := Option.some.inj hs
          exact hfail hpc rfl
        · simp at hs
    · next pid ino hpc =>
      split at hs <;> obtain rfl := Option.some.inj hs
      · exact h
      · exact hfail hpc rfl
    · next pid ino hpc =>
      split at hs <;> obtain rfl := Option.some.inj hs
      · exact h
      · exact hfail hpc rfl
    · next ino hpc =>
      obtain rfl := Option.some.inj hs
      exact hfail hpc rfl
    · next ino inUse hpc =>
      split at hs <;> obtain rfl := Option.some.inj hs
      · exact h
      · exact h.close hpc (hg.close ino inUse hpc (by simp))
    · next hpc =>
      obtain rfl := Option.some.inj hs
      exact h.goto (by simp [Pc.inode]) (by simp [Pc.locked]) fun _ => h.spent p (.inl hpc)
    · obtain rfl := Option.some.inj hs
      exact h.goto (by simp [Pc.inode]) (by simp [Pc.locked]) (by simp [Pc.Spent])
    · simp at hs

theorem run {acts : List (ℕ × Act)} (h : Inv w) (hr : GuardedRun w acts w') : Inv w' := by
  induction hr with
  | nil w => exact h
  | cons hg hs _ ih => exact ih (h.step hg hs)

end Inv

theorem inv_start (name : Option ℕ) (text : ℕ → List Char) : Inv (start name text) where
  named p ino h := by simp [start, Proc.Opens, Pc.inode] at h
  held p ino h := by simp [start] at h
  locked p ino h := by simp [start, Pc.locked] at h
  spent p h := rfl

/-- As long as no step unlinks the lock file under another process or closes it
under the caller's own lock, at most one live process holds a descriptor that
`pidlock_set()` returned. -/
theorem pidlock_exclusive (name : Option ℕ) (text : ℕ → List Char) (acts : List (ℕ × Act))
    (w : World) (hr : GuardedRun (start name text) acts w) : Exclusive w :=
  ((inv_start name text).run hr).exclusive

/-- The next system call closes the descriptor or unlinks the file. -/
def Pc.fails : Pc → Bool
  | .closing _ _ | .unlinking => true
  | _ => false

theorem Guarded.of_pc {w : World} {p : ℕ} {a : Act} (h : (w.procs p).pc.fails = false) :
    Guarded w p a where
  close ino inUse hc := by simp [hc, Pc.fails] at h
  unlink hu := by simp [hu, Pc.fails] at h

/-- The first process sets the lock, the second is told that it is in use. -/
def refused : List (ℕ × Act) :=
  [(1, .call 7 false), (1, .ok), (1, .ok), (1, .ok), (1, .ok), (1, .ok),
    (2, .call 8 false), (2, .ok), (2, .err .eagain), (2, .ok)]

/-- The world after `refused`. -/
def refusedWorld : World := (run (start none fun _ => []) refused).get rfl

theorem pidlock_exclusive_refused : Exclusive refusedWorld := by
  have hr : GuardedRun (start none fun _ => []) refused refusedWorld := by
    iterate 9 refine .cons (.of_pc rfl) rfl ?_
    exact .cons ⟨fun _ _ _ _ => List.not_mem_nil, fun h => by cases h⟩ rfl (.nil _)
  exact pidlock_exclusive none _ refused refusedWorld hr

example : (refusedWorld.procs 1).held = [0] ∧ (refusedWorld.procs 2).pc = .out := by decide

/-- The first process cannot truncate the file and closes it; the second, which
waited, gets the lock; the first unlinks the file; the third makes a new one. -/
def unlinkRace : List (ℕ × Act) :=
  [(1, .call 7 false), (1, .ok), (1, .ok), (2, .call 8 true), (2, .ok), (1, .err .other), (1, .ok),
    (2, .ok), (2, .ok), (2, .ok), (2, .ok), (1, .err .other), (1, .ok),
    (3, .call 9 false), (3, .ok), (3, .ok), (3, .ok), (3, .ok), (3, .ok)]

theorem pidlock_exclusive_fails : ¬ ∀ (name : Option ℕ) (text : ℕ → List Char)
    (acts : List (ℕ × Act)) (w : World), run (start name text) acts = some w → Exclusive w := by
  intro h
  obtain ⟨w, hr, h2, h3⟩ : ∃ w, run (start none fun _ => []) unlinkRace = some w ∧
      (w.procs 2).held = [0] ∧ (w.procs 3).held = [1] := ⟨_, rfl, rfl, rfl⟩
  have := h none _ unlinkRace w hr 2 3 (by decide) (by simp [h2])
  simp [h3] at this

end Perp.Pidlock
