import Perp.Pidlock

set_option autoImplicit false

/-!
# One perpd on a base directory

Any number of processes run `perpd` on one base directory, and their system calls interleave:
`perpd_control_init()` with its lock file and its socket, up to the end of each process. Others
connect to the socket, or look for the owner of the lock (`perphup`).
-/
namespace Perp.PerpdInstance
open Pidlock (Pc Proc Guarded)

/-- How far a process has come: `pidlock_set()`, the calls of `domsock_create()`, the calls on
the socket behind it, `perpd_mainloop()`. -/
inductive Stage where
  | before
  | locking
  | unlinking
  | binding
  | moding
  /-- from the label `FAIL` on -/
  | undoing
  /-- `chown()`, `chmod()`, `listen()`, `fcntl()`, `fchdir()` -/
  | configuring
  | running
  /-- An error has been reported, and the process is about to end. -/
  | ending
  | gone
  deriving DecidableEq, Repr

/-- `pidlock_set()` has returned the descriptor of the lock file. -/
def Stage.Inside : Stage → Prop
  | .unlinking | .binding | .moding | .undoing | .configuring | .running => True
  | _ => False

/-- The socket has been bound, and may be listening. -/
def Stage.Bound : Stage → Prop
  | .moding | .configuring | .running => True
  | _ => False

structure World where
  lock : Pidlock.World
  stage : ℕ → Stage
  /-- the process whose socket the path names -/
  sock : Option ℕ

/-- The start of a process, a system call of `pidlock_set()` or another one, or the end of the
process for whatever reason. -/
inductive Act where
  | start
  | lock (a : Pidlock.Act)
  | ok
  | err
  | exit

namespace World
variable (w : World) (p : ℕ)

def goto (stage : Stage) : World := { w with stage := Function.update w.stage p stage }

/-- After a system call of `pidlock_set()`: the process is still in it, or goes on, or gives up. -/
def locked (lock : Pidlock.World) : World :=
  let x := lock.procs p
  let stage := if x.pc ≠ .out then .locking else if x.held = [] then .ending else .unlinking
  { w.goto p stage with lock }

end World

/-- One system call of the process `p`, with what it returns -/
def step (w : World) (p : ℕ) : Act → Option World
  | .start =>
    if w.stage p = .before then
      (Pidlock.step w.lock p (.call p false)).map fun lock => { w.goto p .locking with lock }
    else none
  | .lock a =>
    match a with
    | .call _ _ | .exit => none
    | a =>
      if w.stage p = .locking then (Pidlock.step w.lock p a).map (w.locked p) else none
  | .ok =>
    match w.stage p with
    | .unlinking => some { w.goto p .binding with sock := none }
    | .binding => if w.sock = none then some { w.goto p .moding with sock := some p } else none
    | .moding => some (w.goto p .configuring)
    | .undoing => some { w.goto p .ending with sock := none }
    | .configuring => some (w.goto p .running)
    | _ => none
  | .err =>
    match w.stage p with
    -- the return of `unlink()` is not looked at
    | .unlinking => some (w.goto p .binding)
    | .binding | .moding => some (w.goto p .undoing)
    | .undoing | .configuring => some (w.goto p .ending)
    | _ => none
  | .exit =>
    if w.stage p = .gone then none
    else (Pidlock.step w.lock p .exit).map fun lock => { w.goto p .gone with lock }

/-- No process has been started; the lock file and a socket of former times may be there. -/
def start (name : Option ℕ) (text : ℕ → List Char) (sock : Option ℕ) : World where
  lock := Pidlock.start name text
  stage _ := .before
  sock

/-- The step does not unlink the lock file while another process has it open, as
`pidlock_set()` may do after a failure behind the lock. -/
def Spares (w : World) (p : ℕ) (a : Act) : Prop :=
  (w.lock.procs p).pc = .unlinking → a = .lock .ok → ∀ ino, w.lock.name = some ino →
    ∀ q, q ≠ p → ¬ (w.lock.procs q).Opens ino

/-- A run in which the lock file is not unlinked while another process has it open -/
inductive Run : World → List (ℕ × Act) → World → Prop
  | nil (w : World) : Run w [] w
  | cons {w w' w'' : World} {p : ℕ} {a : Act} {acts : List (ℕ × Act)}
      (hg : Spares w p a) (hs : step w p a = some w')
      (hr : Run w' acts w'') : Run w ((p, a) :: acts) w''

/-! ## One step of `pidlock_set()` -/

section
variable {l l' : Pidlock.World} {p q : ℕ} {a : Pidlock.Act}

/-- What a system call of `pidlock_set()` may do. A process that goes on keeps what it has open; a
call that has been interrupted by a signal is made again. -/
inductive Turn (l : Pidlock.World) (p : ℕ) : Pidlock.Act → Pidlock.World → Prop
  | keeps {a : Pidlock.Act} {w : Pidlock.World} {pc pc' : Pc} (ha : a ≠ .exit)
      (hpc : (l.procs p).pc = pc) (hout : pc ≠ .out) (hdead : pc' ≠ .dead)
      (hprocs : w.procs = l.procs) (hlock : w.lock = l.lock)
      (hkeep : ∀ i, pc.inode = some i → pc'.inode = some i) : Turn l p a (w.goto p pc')
  | again {a : Pidlock.Act} {pc : Pc} (ha : a ≠ .exit) (hpc : (l.procs p).pc = pc)
      (hout : pc ≠ .out) (hdead : pc ≠ .dead) : Turn l p a l
  | called (pid : ℕ) (wait : Bool) (hpc : (l.procs p).pc = .out) :
      Turn l p (.call pid wait) (l.goto p (.opening pid wait))
  | acquired {pid ino : ℕ} {wait : Bool} {pc' : Pc} (hpc : (l.procs p).pc = .locking pid wait ino)
      (hdead : pc' ≠ .dead) (hinode : pc'.inode = some ino) :
      Turn l p .ok ((l.acquire p ino).goto p pc')
  | closed {a : Pidlock.Act} {ino : ℕ} {inUse : Bool} {pc' : Pc} (ha : a ≠ .exit)
      (hpc : (l.procs p).pc = .closing ino inUse) (hdead : pc' ≠ .dead) :
      Turn l p a ((l.drop p ino).goto p pc')
  | returned (ino : ℕ) (hpc : (l.procs p).pc = .chmoding ino) : Turn l p .ok (l.returns p ino)
  | ended : Turn l p .exit (l.exits p)

theorem lock_turn (h : Pidlock.step l p a = some l') : Turn l p a l' := by
  cases a with
  | exit =>
    simp only [Pidlock.step] at h
    split at h
    · cases h
    · obtain rfl := Option.some.inj h
      exact .ended
  | call pid wait =>
    simp only [Pidlock.step] at h
    split at h
    · next hpc =>
      obtain rfl := Option.some.inj h
      exact .called pid wait hpc
    · cases h
  | ok =>
    simp only [Pidlock.step] at h
    split at h
    · next pid wait hpc =>
      obtain rfl := Option.some.inj h
      unfold Pidlock.World.opens
      split
      · exact .keeps (by simp) hpc (by simp) (by simp) rfl rfl (by simp [Pidlock.Pc.inode])
      · -- the file is made before the process goes on
        change Turn l p .ok (Pidlock.World.goto { l with
          name := some l.fresh
          fresh := l.fresh + 1
          text := Function.update l.text l.fresh [] } p (.locking pid wait l.fresh))
        exact .keeps (by simp) hpc (by simp) (by simp) rfl rfl (by simp [Pidlock.Pc.inode])
    · next pid wait ino hpc =>
      split at h
      · obtain rfl := Option.some.inj h
        exact .acquired hpc (by split <;> simp) (by split <;> rfl)
      · cases h
    · next pid ino hpc =>
      obtain rfl := Option.some.inj h
      exact .keeps (by simp) hpc (by simp) (by simp) rfl rfl fun _ => id
    · next pid ino hpc =>
      obtain rfl := Option.some.inj h
      exact .keeps (by simp) hpc (by simp) (by simp) rfl rfl fun _ => id
    · next ino hpc =>
      obtain rfl := Option.some.inj h
      exact .returned ino hpc
    · next ino inUse hpc =>
      obtain rfl := Option.some.inj h
      exact .closed (by simp) hpc (by split <;> simp)
    · next hpc =>
      split at h
      · cases h
      · obtain rfl := Option.some.inj h
        exact .keeps (by simp) hpc (by simp) (by simp) rfl rfl (by simp [Pidlock.Pc.inode])
    · cases h
  | short n =>
    simp only [Pidlock.step] at h
    split at h
    · next pid ino hpc =>
      obtain rfl := Option.some.inj h
      exact .keeps (by simp) hpc (by simp) (by simp) rfl rfl fun _ => id
    · cases h
  | err e =>
    simp only [Pidlock.step] at h
    split at h
    · next pid wait hpc =>
      obtain rfl := Option.some.inj h
      exact .keeps (by simp) hpc (by simp) (by simp) rfl rfl (by simp [Pidlock.Pc.inode])
    · next pid wait ino hpc =>
      split at h
      · obtain rfl := Option.some.inj h
        exact .again (by simp) hpc (by simp) (by simp)
      · obtain rfl := Option.some.inj h
        exact .keeps (by simp) hpc (by simp) (by simp) rfl rfl fun _ => id
      · split at h
        · obtain rfl := Option.some.inj h
          exact .keeps (by simp) hpc (by simp) (by simp) rfl rfl fun _ => id
        · cases h
    · next pid ino hpc =>
      split at h <;> obtain rfl := Option.some.inj h
      · exact .again (by simp) hpc (by simp) (by simp)
      · exact .keeps (by simp) hpc (by simp) (by simp) rfl rfl fun _ => id
    · next pid ino hpc =>
      split at h <;> obtain rfl := Option.some.inj h
      · exact .again (by simp) hpc (by simp) (by simp)
      · exact .keeps (by simp) hpc (by simp) (by simp) rfl rfl fun _ => id
    · next ino hpc =>
      obtain rfl := Option.some.inj h
      exact .keeps (by simp) hpc (by simp) (by simp) rfl rfl fun _ => id
    · next ino inUse hpc =>
      split at h <;> obtain rfl := Option.some.inj h
      · exact .again (by simp) hpc (by simp) (by simp)
      · exact .closed (by simp) hpc (by split <;> simp)
    · next hpc =>
      obtain rfl := Option.some.inj h
      exact .keeps (by simp) hpc (by simp) (by simp) rfl rfl (by simp [Pidlock.Pc.inode])
    · next hpc =>
      obtain rfl := Option.some.inj h
      exact .keeps (by simp) hpc (by simp) (by simp) rfl rfl (by simp [Pidlock.Pc.inode])
    · cases h

/-- What a system call of `pidlock_set()` does to the process: it goes on, or returns its
descriptor, or ends. -/
inductive Goes (x : Proc) : Pidlock.Act → Proc → Prop
  | called (pid : ℕ) (wait : Bool) : x.pc = .out →
      Goes x (.call pid wait) ⟨.opening pid wait, x.held⟩
  | on {a : Pidlock.Act} {pc : Pc} : a ≠ .exit → x.pc ≠ .out → pc ≠ .dead → Goes x a ⟨pc, x.held⟩
  | returned (ino : ℕ) : x.pc = .chmoding ino → Goes x .ok ⟨.out, ino :: x.held⟩
  | ended : Goes x .exit ⟨.dead, []⟩

theorem goes_on {w : Pidlock.World} {pc pc' : Pc} (hw : w.procs = l.procs) (ha : a ≠ .exit)
    (hpc : (l.procs p).pc = pc) (hout : pc ≠ .out) (hdead : pc' ≠ .dead) :
    ∃ y, (w.goto p pc').procs = Function.update l.procs p y ∧ Goes (l.procs p) a y := by
  subst hpc
  refine ⟨⟨pc', (l.procs p).held⟩, ?_, .on ha hout hdead⟩
  rw [← hw]
  rfl

theorem drop_procs (ino : ℕ) : (l.drop p ino).procs = l.procs := by
  unfold Pidlock.World.drop
  split <;> rfl

theorem lock_goes (h : Pidlock.step l p a = some l') :
    ∃ y, l'.procs = Function.update l.procs p y ∧ Goes (l.procs p) a y := by
  cases lock_turn h with
  | keeps ha hpc hout hdead hprocs => exact goes_on hprocs ha hpc hout hdead
  | again ha hpc hout hdead =>
    subst hpc
    exact ⟨l.procs p, (Function.update_eq_self p l.procs).symm, .on ha hout hdead⟩
  | called pid wait hpc => exact ⟨_, rfl, .called pid wait hpc⟩
  | acquired hpc hdead => exact goes_on rfl (by simp) hpc (by simp) hdead
  | closed ha hpc hdead => exact goes_on (drop_procs _) ha hpc (by simp) hdead
  | returned ino hpc => exact ⟨_, rfl, .returned ino hpc⟩
  | ended => exact ⟨⟨.dead, []⟩, rfl, .ended⟩

/-- The owner of a lock has the file open. -/
def Owned (l : Pidlock.World) : Prop := ∀ ino q, l.lock ino = some q → (l.procs q).Opens ino

theorem Owned.of_update {y : Proc} (h : Owned l) (hprocs : l'.procs = Function.update l.procs p y)
    (hother : ∀ i q, q ≠ p → l'.lock i = some q → l.lock i = some q)
    (hself : ∀ i, l'.lock i = some p → y.Opens i) : Owned l' := by
  intro i q hq
  rw [hprocs]
  by_cases hqp : q = p
  · subst hqp
    rw [Function.update_self]
    exact hself i hq
  · rw [Function.update_of_ne hqp]
    exact h i q (hother i q hqp hq)

/-- The process keeps its descriptors. -/
theorem Owned.goto {w : Pidlock.World} {pc pc' : Pc} (h : Owned l) (hpc : (l.procs p).pc = pc)
    (hprocs : w.procs = l.procs) (hlock : w.lock = l.lock)
    (hkeep : ∀ i, pc.inode = some i → pc'.inode = some i) : Owned (w.goto p pc') := by
  subst hpc
  have hupdate : (w.goto p pc').procs = Function.update l.procs p ⟨pc', (l.procs p).held⟩ := by
    rw [← hprocs]
    rfl
  refine h.of_update hupdate (fun i q _ hq => ?_) fun i hi => ?_
  · rw [← hlock]
    exact hq
  · have hold : l.lock i = some p := by
      rw [← hlock]
      exact hi
    exact (h i p hold).imp id (hkeep i)

theorem Owned.close {ino : ℕ} {inUse : Bool} {pc' : Pc} (h : Owned l)
    (hpc : (l.procs p).pc = .closing ino inUse) : Owned ((l.drop p ino).goto p pc') := by
  have hupdate : ((l.drop p ino).goto p pc').procs =
      Function.update l.procs p ⟨pc', (l.procs p).held⟩ := by
    rw [← drop_procs (l := l) (p := p) ino]
    rfl
  have hdrop : ∀ i q, (l.drop p ino).lock i = some q →
      l.lock i = some q ∧ ¬ (q = p ∧ i = ino) := by
    intro i q hq
    unfold Pidlock.World.drop at hq
    split at hq
    · change Function.update l.lock ino none i = some q at hq
      by_cases hi : i = ino
      · subst hi
        rw [Function.update_self] at hq
        cases hq
      · rw [Function.update_of_ne hi] at hq
        exact ⟨hq, fun hp => hi hp.2⟩
    · next hno =>
      refine ⟨hq, ?_⟩
      rintro ⟨rfl, rfl⟩
      exact hno hq
  refine h.of_update hupdate (fun i q _ hq => (hdrop i q hq).1) fun i hi => ?_
  obtain ⟨hold, hne⟩ := hdrop i p hi
  rcases h i p hold with hheld | hinode
  · exact .inl hheld
  · rw [hpc] at hinode
    exact absurd ⟨rfl, (Option.some.inj hinode).symm⟩ hne

/-- The lock is that of the file that the process has just opened. -/
theorem Owned.acquire {pid ino : ℕ} {wait : Bool} {pc' : Pc} (h : Owned l)
    (hpc : (l.procs p).pc = .locking pid wait ino) (hinode : pc'.inode = some ino) :
    Owned ((l.acquire p ino).goto p pc') := by
  refine h.of_update (y := ⟨pc', (l.procs p).held⟩) rfl (fun i q hqp hq => ?_) fun i hi => ?_
  · change Function.update l.lock ino (some p) i = some q at hq
    by_cases hi : i = ino
    · subst hi
      rw [Function.update_self] at hq
      exact absurd (Option.some.inj hq).symm hqp
    · rwa [Function.update_of_ne hi] at hq
  · change Function.update l.lock ino (some p) i = some p at hi
    by_cases hne : i = ino
    · exact .inr (hne ▸ hinode)
    · rw [Function.update_of_ne hne] at hi
      rcases h i p hi with hheld | hpcino
      · exact .inl hheld
      · rw [hpc] at hpcino
        exact absurd (Option.some.inj hpcino).symm hne

theorem Owned.returns {ino : ℕ} (h : Owned l) (hpc : (l.procs p).pc = .chmoding ino) :
    Owned (l.returns p ino) := by
  refine h.of_update (y := ⟨.out, ino :: (l.procs p).held⟩) rfl (fun i q _ hq => hq) fun i hi => ?_
  rcases h i p hi with hheld | hinode
  · exact .inl (List.mem_cons_of_mem ino hheld)
  · rw [hpc] at hinode
    exact .inl (Option.some.inj hinode ▸ List.mem_cons_self)

/-- The kernel drops the locks of a process that has ended. -/
theorem Owned.exits (h : Owned l) (p : ℕ) : Owned (l.exits p) := by
  have hdrop {i q : ℕ} (hq : (l.exits p).lock i = some q) : l.lock i = some q ∧ q ≠ p := by
    simp only [Pidlock.World.exits] at hq
    split at hq
    · cases hq
    · next hno => exact ⟨hq, fun hp => hno (hp ▸ hq)⟩
  exact h.of_update (y := ⟨.dead, []⟩) rfl (fun i q _ hq => (hdrop hq).1)
    fun i hi => absurd rfl (hdrop hi).2

theorem lock_owned (h : Owned l) (hs : Pidlock.step l p a = some l') : Owned l' := by
  cases lock_turn hs with
  | keeps _ hpc _ _ hprocs hlock hkeep => exact h.goto hpc hprocs hlock hkeep
  | again => exact h
  | called pid wait hpc => exact h.goto hpc rfl rfl (by simp [Pidlock.Pc.inode])
  | acquired hpc _ hinode => exact h.acquire hpc hinode
  | closed _ hpc => exact h.close hpc
  | returned ino hpc => exact h.returns hpc
  | ended => exact h.exits p

end

/-! ## The processes -/

/-- What a process has of the lock file at a stage of `main()` -/
def Fits : Stage → Proc → Prop
  | .before, x => x = ⟨.out, []⟩
  | .locking, x => x.held = [] ∧ x.pc ≠ .out ∧ x.pc ≠ .dead
  | .ending, x => x.pc = .out
  | .gone, x => x.pc = .dead
  | _, x => x.pc = .out ∧ x.held ≠ []

structure Inv (w : World) : Prop where
  lock : Pidlock.Inv w.lock
  owned : Owned w.lock
  fits : ∀ p, Fits (w.stage p) (w.lock.procs p)
  sock : ∀ p, (w.stage p).Bound → w.sock = some p

theorem fits_inside {stage : Stage} {x : Proc} (h : Fits stage x) (hin : stage.Inside) :
    x.pc = .out ∧ x.held ≠ [] := by
  cases stage with
  | unlinking | binding | moding | undoing | configuring | running => exact h
  | before | locking | ending | gone => exact hin.elim

theorem Stage.Bound.inside {stage : Stage} (h : stage.Bound) : stage.Inside := by
  cases stage with
  | moding | configuring | running => trivial
  | before | locking | unlinking | binding | undoing | ending | gone => exact h.elim

section
variable {w w' : World} {p q : ℕ}

/-- At most one process is behind the lock. -/
theorem Inv.one (h : Inv w) (hp : (w.stage p).Inside) (hq : (w.stage q).Inside) : p = q := by
  by_contra hpq
  exact (fits_inside (h.fits q) hq).2 (h.lock.exclusive p q hpq (fits_inside (h.fits p) hp).2)

/-- It owns the lock of the file that the path names. -/
theorem Inv.owner (h : Inv w) (hp : (w.stage p).Inside) :
    ∃ ino, w.lock.name = some ino ∧ w.lock.lock ino = some p := by
  obtain ⟨ino, hino⟩ := List.exists_mem_of_ne_nil _ (fits_inside (h.fits p) hp).2
  exact ⟨ino, h.lock.named p ino (.inl hino), h.lock.held p ino hino⟩

/-- A step on the lock file, with the stage that it leaves the process in -/
theorem Inv.of_lock {l : Pidlock.World} {a : Pidlock.Act} {stage : Stage} (h : Inv w)
    (hg : Guarded w.lock p a) (hs : Pidlock.step w.lock p a = some l)
    (hfits : Goes (w.lock.procs p) a (l.procs p) → Fits stage (l.procs p))
    (hbound : ¬ stage.Bound) : Inv { w.goto p stage with lock := l } := by
  obtain ⟨y, hprocs, hgoes⟩ := lock_goes hs
  have hself : l.procs p = y := by rw [hprocs, Function.update_self]
  rw [hself] at hfits
  refine ⟨h.lock.step hg hs, lock_owned h.owned hs, fun q => ?_, fun q hq => ?_⟩
  · change Fits (Function.update w.stage p stage q) (l.procs q)
    rw [hprocs]
    by_cases hqp : q = p
    · subst hqp
      rw [Function.update_self, Function.update_self]
      exact hfits hgoes
    · rw [Function.update_of_ne hqp, Function.update_of_ne hqp]
      exact h.fits q
  · change (Function.update w.stage p stage q).Bound at hq
    by_cases hqp : q = p
    · subst hqp
      rw [Function.update_self] at hq
      exact absurd hq hbound
    · rw [Function.update_of_ne hqp] at hq
      exact h.sock q hq

/-- A step of the process that is behind the lock -/
theorem Inv.of_inside {stage : Stage} {sock : Option ℕ} (h : Inv w) (hp : (w.stage p).Inside)
    (hfits : Fits stage (w.lock.procs p)) (hbound : stage.Bound → sock = some p) :
    Inv { w.goto p stage with sock } := by
  refine ⟨h.lock, h.owned, fun q => ?_, fun q hq => ?_⟩
  · change Fits (Function.update w.stage p stage q) (w.lock.procs q)
    by_cases hqp : q = p
    · subst hqp
      rw [Function.update_self]
      exact hfits
    · rw [Function.update_of_ne hqp]
      exact h.fits q
  · change (Function.update w.stage p stage q).Bound at hq
    by_cases hqp : q = p
    · subst hqp
      rw [Function.update_self] at hq
      exact hbound hq
    · rw [Function.update_of_ne hqp] at hq
      exact absurd (h.one hq.inside hp) hqp

theorem fits_call {x y : Proc} {pid : ℕ} {wait : Bool} (hx : Fits .before x)
    (hy : Goes x (.call pid wait) y) : Fits .locking y := by
  subst hx
  cases hy with
  | called => exact ⟨rfl, by simp, by simp⟩
  | on ha hout => exact absurd rfl hout

theorem fits_locked {x y : Proc} {a : Pidlock.Act} (hx : Fits .locking x) (ha : a ≠ .exit)
    (hy : Goes x a y) :
    Fits (if y.pc ≠ .out then .locking else if y.held = [] then .ending else .unlinking) y := by
  obtain ⟨hheld, hout, hdead⟩ := hx
  cases hy with
  | called pid wait hpc => exact absurd hpc hout
  | @on a pc hexit hx hpc =>
    by_cases hpcout : pc = .out
    · subst hpcout
      rw [if_neg (fun h => h rfl), if_pos hheld]
      rfl
    · rw [if_pos hpcout]
      exact ⟨hheld, hpcout, hpc⟩
  | returned ino hpc =>
    rw [if_neg (fun h => h rfl), if_neg (List.cons_ne_nil _ _)]
    exact ⟨rfl, List.cons_ne_nil _ _⟩
  | ended => exact absurd rfl ha

theorem fits_exit {x y : Proc} (hy : Goes x .exit y) : Fits .gone y := by
  cases hy with
  | on ha => exact absurd rfl ha
  | ended => rfl

theorem not_bound_locked (x : Proc) :
    ¬ (if x.pc ≠ .out then Stage.locking
      else if x.held = [] then .ending else .unlinking).Bound := by
  split
  · exact id
  · split <;> exact id

theorem step_lock {b : Pidlock.Act} (hs : step w p (.lock b) = some w') : b ≠ .exit ∧
    w.stage p = .locking ∧ ∃ l, Pidlock.step w.lock p b = some l ∧ w' = w.locked p l := by
  have hmap (hexit : b ≠ .exit) (h : (if w.stage p = .locking then
      (Pidlock.step w.lock p b).map (w.locked p) else none) = some w') : b ≠ .exit ∧
      w.stage p = .locking ∧ ∃ l, Pidlock.step w.lock p b = some l ∧ w' = w.locked p l := by
    split at h
    · next hstage =>
      obtain ⟨l, hl, rfl⟩ := Option.map_eq_some_iff.mp h
      exact ⟨hexit, hstage, l, hl, rfl⟩
    · cases h
  cases b with
  | call pid wait => cases hs
  | exit => cases hs
  | ok => exact hmap (by simp) hs
  | short n => exact hmap (by simp) hs
  | err e => exact hmap (by simp) hs

/-- The process has no other descriptor of the file that the close could take the lock of. -/
theorem Spares.guarded {b : Pidlock.Act} (hg : Spares w p (.lock b))
    (hx : Fits .locking (w.lock.procs p)) : Guarded w.lock p b where
  close ino inUse _ _ := by
    rw [hx.1]
    exact List.not_mem_nil
  unlink hpc hb := hg hpc (congrArg Act.lock hb)

theorem Inv.step {a : Act} (h : Inv w) (hg : Spares w p a) (hs : step w p a = some w') :
    Inv w' := by
  have hfits := h.fits p
  cases a with
  | start =>
    rw [PerpdInstance.step] at hs
    split at hs
    · next hstage =>
      rw [hstage] at hfits
      obtain ⟨l, hl, rfl⟩ := Option.map_eq_some_iff.mp hs
      exact h.of_lock (.of_pc (by rw [hfits]; rfl)) hl (fits_call hfits) id
    · cases hs
  | lock b =>
    obtain ⟨hb, hstage, l, hl, rfl⟩ := step_lock hs
    rw [hstage] at hfits
    exact h.of_lock (hg.guarded hfits) hl (fits_locked hfits hb) (not_bound_locked _)
  | ok =>
    rw [PerpdInstance.step] at hs
    split at hs
    · next hstage =>
      rw [hstage] at hfits
      obtain rfl := Option.some.inj hs
      exact h.of_inside (by rw [hstage]; trivial) hfits False.elim
    · next hstage =>
      rw [hstage] at hfits
      split at hs
      · obtain rfl := Option.some.inj hs
        exact h.of_inside (by rw [hstage]; trivial) hfits fun _ => rfl
      · cases hs
    · next hstage =>
      rw [hstage] at hfits
      obtain rfl := Option.some.inj hs
      exact h.of_inside (by rw [hstage]; trivial) hfits fun _ => h.sock p (by rw [hstage]; trivial)
    · next hstage =>
      rw [hstage] at hfits
      obtain rfl := Option.some.inj hs
      exact h.of_inside (by rw [hstage]; trivial) hfits.1 False.elim
    · next hstage =>
      rw [hstage] at hfits
      obtain rfl := Option.some.inj hs
      exact h.of_inside (by rw [hstage]; trivial) hfits fun _ => h.sock p (by rw [hstage]; trivial)
    · cases hs
  | err =>
    rw [PerpdInstance.step] at hs
    split at hs
    · next hstage =>
      rw [hstage] at hfits
      obtain rfl := Option.some.inj hs
      exact h.of_inside (by rw [hstage]; trivial) hfits False.elim
    · next hstage =>
      rw [hstage] at hfits
      obtain rfl := Option.some.inj hs
      exact h.of_inside (by rw [hstage]; trivial) hfits False.elim
    · next hstage =>
      rw [hstage] at hfits
      obtain rfl := Option.some.inj hs
      exact h.of_inside (by rw [hstage]; trivial) hfits False.elim
    · next hstage =>
      rw [hstage] at hfits
      obtain rfl := Option.some.inj hs
      exact h.of_inside (by rw [hstage]; trivial) hfits.1 False.elim
    · next hstage =>
      rw [hstage] at hfits
      obtain rfl := Option.some.inj hs
      exact h.of_inside (by rw [hstage]; trivial) hfits.1 False.elim
    · cases hs
  | exit =>
    rw [PerpdInstance.step] at hs
    split at hs
    · cases hs
    · obtain ⟨l, hl, rfl⟩ := Option.map_eq_some_iff.mp hs
      have hguard : Guarded w.lock p .exit := ⟨fun _ _ _ hne => absurd rfl hne, fun _ => by simp⟩
      exact h.of_lock hguard hl fits_exit id

theorem inv_start (name : Option ℕ) (text : ℕ → List Char) (sock : Option ℕ) :
    Inv (start name text sock) :=
  ⟨Pidlock.inv_start name text, by simp [Owned, start, Pidlock.start], fun _ => rfl,
    fun _ => False.elim⟩

theorem Inv.run {acts : List (ℕ × Act)} (h : Inv w) (hr : Run w acts w') : Inv w' := by
  induction hr with
  | nil => exact h
  | cons hg hs hr ih => exact ih (h.step hg hs)

/-! ## A process that runs -/

/-- What another process does leaves the process as it is. -/
theorem step_other {a : Act} (hs : step w q a = some w') (hpq : p ≠ q) :
    w'.stage p = w.stage p ∧ w'.lock.procs p = w.lock.procs p := by
  have hstage (stage : Stage) : Function.update w.stage q stage p = w.stage p :=
    Function.update_of_ne hpq stage w.stage
  have hprocs {l : Pidlock.World} {b : Pidlock.Act} (hl : Pidlock.step w.lock q b = some l) :
      l.procs p = w.lock.procs p := by
    obtain ⟨y, hy, -⟩ := lock_goes hl
    rw [hy, Function.update_of_ne hpq]
  cases a with
  | start =>
    rw [PerpdInstance.step] at hs
    split at hs
    · obtain ⟨l, hl, rfl⟩ := Option.map_eq_some_iff.mp hs
      exact ⟨hstage .locking, hprocs hl⟩
    · cases hs
  | lock b =>
    obtain ⟨-, -, l, hl, rfl⟩ := step_lock hs
    exact ⟨hstage _, hprocs hl⟩
  | ok =>
    rw [PerpdInstance.step] at hs
    split at hs
    · obtain rfl := Option.some.inj hs
      exact ⟨hstage _, rfl⟩
    · split at hs
      · obtain rfl := Option.some.inj hs
        exact ⟨hstage _, rfl⟩
      · cases hs
    · obtain rfl := Option.some.inj hs
      exact ⟨hstage _, rfl⟩
    · obtain rfl := Option.some.inj hs
      exact ⟨hstage _, rfl⟩
    · obtain rfl := Option.some.inj hs
      exact ⟨hstage _, rfl⟩
    · cases hs
  | err =>
    rw [PerpdInstance.step] at hs
    split at hs
    · obtain rfl := Option.some.inj hs
      exact ⟨hstage _, rfl⟩
    · obtain rfl := Option.some.inj hs
      exact ⟨hstage _, rfl⟩
    · obtain rfl := Option.some.inj hs
      exact ⟨hstage _, rfl⟩
    · obtain rfl := Option.some.inj hs
      exact ⟨hstage _, rfl⟩
    · obtain rfl := Option.some.inj hs
      exact ⟨hstage _, rfl⟩
    · cases hs
  | exit =>
    rw [PerpdInstance.step] at hs
    split at hs
    · cases hs
    · obtain ⟨l, hl, rfl⟩ := Option.map_eq_some_iff.mp hs
      exact ⟨hstage .gone, hprocs hl⟩

/-- `perpd_mainloop()` makes none of these calls. -/
theorem step_running {a : Act} (hs : step w p a = some w') (hp : w.stage p = .running) :
    w'.stage p = .gone := by
  cases a with
  | start => simp [PerpdInstance.step, hp] at hs
  | lock b =>
    obtain ⟨-, hstage, -⟩ := step_lock hs
    rw [hp] at hstage
    cases hstage
  | ok => simp [PerpdInstance.step, hp] at hs
  | err => simp [PerpdInstance.step, hp] at hs
  | exit =>
    simp only [PerpdInstance.step, hp, reduceCtorEq, if_false] at hs
    obtain ⟨l, -, rfl⟩ := Option.map_eq_some_iff.mp hs
    exact Function.update_self p Stage.gone w.stage

theorem step_gone {a : Act} (hs : step w p a = some w') : w.stage p ≠ .gone := by
  intro hp
  cases a with
  | start => simp [PerpdInstance.step, hp] at hs
  | lock b =>
    obtain ⟨-, hstage, -⟩ := step_lock hs
    rw [hp] at hstage
    cases hstage
  | ok => simp [PerpdInstance.step, hp] at hs
  | err => simp [PerpdInstance.step, hp] at hs
  | exit => simp [PerpdInstance.step, hp] at hs

theorem run_gone {acts : List (ℕ × Act)} (hr : Run w acts w') (hp : w.stage p = .gone) :
    w'.stage p = .gone := by
  induction hr with
  | nil => exact hp
  | @cons w w₁ w' q a acts hg hs hr ih =>
    have hpq : p ≠ q := by
      rintro rfl
      exact step_gone hs hp
    exact ih ((step_other hs hpq).1.trans hp)

/-- It stays as it is until its end. -/
theorem run_running {acts : List (ℕ × Act)} (hr : Run w acts w') (hp : w.stage p = .running) :
    w'.stage p = .gone ∨ w'.stage p = .running ∧ w'.lock.procs p = w.lock.procs p := by
  induction hr with
  | nil => exact .inr ⟨hp, rfl⟩
  | @cons w w₁ w' q a acts hg hs hr ih =>
    by_cases hpq : p = q
    · subst hpq
      exact .inl (run_gone hr (step_running hs hp))
    · obtain ⟨hstage, hprocs⟩ := step_other hs hpq
      rw [← hprocs]
      exact ih (hstage.trans hp)

end

/-! ## Others -/

/-- `pidlock_check()`: the file that the path names at its `open()`, and the owner of the lock
on it at its `fcntl()` -/
def pidlockCheck (opened tested : World) : Option ℕ := opened.lock.name.bind tested.lock.lock

section
variable {w w' : World} {acts : List (ℕ × Act)} {p q : ℕ}

/-- It does not overlook a process that runs all the while. -/
theorem check_none (h : Inv w) (hr : Run w acts w') (hcheck : pidlockCheck w w' = none)
    (hp : w.stage p = .running) : w'.stage p = .gone := by
  refine (run_running hr hp).resolve_right fun hstill => ?_
  have hin : (w.stage p).Inside := by rw [hp]; trivial
  obtain ⟨ino, hino⟩ := List.exists_mem_of_ne_nil _ (fits_inside (h.fits p) hin).2
  have hname : w.lock.name = some ino := h.lock.named p ino (.inl hino)
  have hheld : ino ∈ (w'.lock.procs p).held := by rwa [hstill.2]
  have hlock : w'.lock.lock ino = some p := (h.run hr).lock.held p ino hheld
  rw [pidlockCheck, hname, Option.bind_some, hlock] at hcheck
  cases hcheck

/-- The process that it finds is the only one that may be running. -/
theorem check_some (h : Inv w') (hcheck : pidlockCheck w w' = some q)
    (hp : (w'.stage p).Inside) : p = q := by
  obtain ⟨ino, -, hlock⟩ := Option.bind_eq_some_iff.mp hcheck
  obtain ⟨ino', hname, hlock'⟩ := h.owner hp
  have hino : w'.lock.name = some ino := h.lock.named q ino (h.owned ino q hlock)
  rw [hname] at hino
  obtain rfl := Option.some.inj hino
  rw [hlock'] at hlock
  exact Option.some.inj hlock

end

/-- At most one process is behind the lock, and the path of the socket names no other socket than
that of the process that has bound it and runs. `perphup` finds the process that runs from its
`open()` to its `fcntl()`; what it finds is the process that runs or nobody does, and until the
signal that process can only have ended. -/
theorem one_perpd {name : Option ℕ} {text : ℕ → List Char} {sock : Option ℕ}
    {acts acts' acts'' : List (ℕ × Act)} {opened tested signalled : World}
    (hopened : Run (start name text sock) acts opened) (htested : Run opened acts' tested)
    (hsignalled : Run tested acts'' signalled) :
    (∀ p q, (opened.stage p).Inside → (opened.stage q).Inside → p = q) ∧
    (∀ p, (opened.stage p).Bound → opened.sock = some p) ∧
    (pidlockCheck opened tested = none → ∀ p, opened.stage p = .running → tested.stage p = .gone) ∧
    ∀ q, pidlockCheck opened tested = some q → (∀ p, (tested.stage p).Inside → p = q) ∧
      ∀ p, tested.stage p = .running → p = q ∧
        (signalled.stage q = .gone ∨ signalled.stage q = .running ∧ signalled.sock = some q) := by
  have h : Inv opened := (inv_start name text sock).run hopened
  have h' : Inv tested := h.run htested
  have h'' : Inv signalled := h'.run hsignalled
  refine ⟨fun p q => h.one, h.sock, fun hnone p => check_none h htested hnone,
    fun q hq => ⟨fun p => check_some h' hq, fun p hp => ?_⟩⟩
  have hin : (tested.stage p).Inside := by rw [hp]; trivial
  obtain rfl : p = q := check_some h' hq hin
  refine ⟨rfl, (run_running hsignalled hp).imp id fun hstill => ⟨hstill.1, h''.sock p ?_⟩⟩
  rw [hstill.1]
  trivial

def run (w : World) : List (ℕ × Act) → Option World
  | [] => some w
  | (p, a) :: acts => (step w p a).bind fun w' => run w' acts

/-- The first process comes to its loop. -/
def launch : List (ℕ × Act) :=
  [(1, .start), (1, .lock .ok), (1, .lock .ok), (1, .lock .ok), (1, .lock .ok), (1, .lock .ok),
    (1, .ok), (1, .ok), (1, .ok), (1, .ok)]

/-- The second one is told that the lock is in use. -/
def refuse : List (ℕ × Act) :=
  [(2, .start), (2, .lock .ok), (2, .lock (.err .eagain)), (2, .lock .ok), (2, .exit)]

def launched : World := (run (start none (fun _ => []) none) launch).get rfl

def refused : World := (run launched refuse).get rfl

theorem Spares.of_pc {w : World} {p : ℕ} {a : Act}
    (h : decide ((w.lock.procs p).pc = .unlinking) = false) : Spares w p a :=
  fun hpc => absurd hpc (of_decide_eq_false h)

theorem one_perpd_refused : pidlockCheck launched refused = some 1 ∧
    (∀ p q, (launched.stage p).Inside → (launched.stage q).Inside → p = q) ∧
    (∀ p, (launched.stage p).Bound → launched.sock = some p) ∧
    (pidlockCheck launched refused = none → ∀ p, launched.stage p = .running →
      refused.stage p = .gone) ∧
    ∀ q, pidlockCheck launched refused = some q → (∀ p, (refused.stage p).Inside → p = q) ∧
      ∀ p, refused.stage p = .running → p = q ∧
        (refused.stage q = .gone ∨ refused.stage q = .running ∧ refused.sock = some q) := by
  have hlaunch : Run (start none (fun _ => []) none) launch launched := by
    iterate 10 refine .cons (.of_pc rfl) rfl ?_
    exact .nil launched
  have hrefuse : Run launched refuse refused := by
    iterate 5 refine .cons (.of_pc rfl) rfl ?_
    exact .nil refused
  exact ⟨rfl, one_perpd hlaunch hrefuse (.nil refused)⟩

end Perp.PerpdInstance
