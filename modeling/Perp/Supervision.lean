import Mathlib.Data.List.Induction
import Mathlib.Tactic.Common

set_option autoImplicit false

/-!
# A supervised process

What a supervisor owes a process that it keeps: it is run again when it ends, its
end is cleaned up after, and what could not be run is not forgotten.
-/
namespace Perp.Supervision

/-- What is run: the program, or the clean-up after it. -/
inductive Job where
  | start | reset
  deriving DecidableEq, Repr

inductive Phase where
  | absent
  | idle
  | running (job : Job)
  /-- the supervisor is about to run this -/
  | due (job : Job)
  /-- this could not be run, and is to be tried again -/
  | owed (job : Job)
  deriving DecidableEq, Repr

structure Ward where
  phase : Phase
  /-- is the process to be up? -/
  wanted : Bool
  deriving DecidableEq, Repr

inductive Label where
  | born (wanted : Bool)
  /-- somebody says whether it is to be up -/
  | wish (wanted : Bool)
  | tried (job : Job) (ok : Bool)
  /-- what ran has ended; with `once`, it is not to be run again -/
  | gone (once : Bool)
  | removed
  deriving DecidableEq, Repr

/-- Without a process, one that is wanted is started. -/
def settle (wanted : Bool) : Phase := if wanted then .due .start else .idle

/-- The step of a label; none where there is no such step. -/
def next (x : Ward) : Label → Option Ward
  | .born wanted => if x.phase = .absent then some ⟨settle wanted, wanted⟩ else none
  | .wish wanted =>
    match x.phase with
    | .idle | .owed _ => some ⟨if wanted then .due .start else x.phase, wanted⟩
    | .running _ => some { x with wanted }
    | _ => none
  | .tried job ok =>
    if x.phase = .due job ∨ x.phase = .owed job then
      some { x with phase := if ok then .running job else .owed job }
    else none
  | .gone once =>
    match x.phase with
    | .running .start => some ⟨.due .reset, x.wanted && !once⟩
    | .running .reset => some ⟨settle (x.wanted && !once), x.wanted && !once⟩
    | _ => none
  | .removed =>
    match x.phase with
    | .idle | .owed _ => some ⟨.absent, false⟩
    | _ => none

def first : Ward := ⟨.absent, false⟩

def run (ls : List Label) : Option Ward := ls.foldlM next first

@[simp] theorem run_nil : run [] = some first := rfl

theorem run_append (ls rest : List Label) :
    run (ls ++ rest) = (run ls).bind fun x => rest.foldlM next x := by
  simp [run, List.foldlM_append]

theorem run_concat (ls : List Label) (l : Label) : run (ls ++ [l]) = (run ls).bind (next · l) := by
  rw [run_append]
  cases run ls <;> simp

/-- What every step keeps holds after every life. -/
theorem run_invariant {I : List Label → Ward → Prop} (hstart : I [] first)
    (hstep : ∀ ls x l y, I ls x → next x l = some y → I (ls ++ [l]) y) {ls : List Label} {x : Ward}
    (h : run ls = some x) : I ls x := by
  induction ls using List.reverseRecOn generalizing x with
  | nil =>
    obtain rfl := Option.some.inj h
    exact hstart
  | append_singleton ls l ih =>
    rw [run_concat] at h
    obtain ⟨y, hy, hl⟩ := Option.bind_eq_some_iff.mp h
    exact hstep ls y l x (ih hy) hl

/-- What one step can do. -/
inductive Step (x : Ward) : Label → Ward → Prop
  | born (wanted : Bool) (hp : x.phase = .absent) : Step x (.born wanted) ⟨settle wanted, wanted⟩
  | up (hp : x.phase = .idle ∨ ∃ job, x.phase = .owed job) :
      Step x (.wish true) ⟨.due .start, true⟩
  | down (hp : x.phase = .idle ∨ ∃ job, x.phase = .owed job) :
      Step x (.wish false) ⟨x.phase, false⟩
  | wish (wanted : Bool) (job : Job) (hp : x.phase = .running job) :
      Step x (.wish wanted) ⟨.running job, wanted⟩
  | tried (job : Job) (ok : Bool) (hp : x.phase = .due job ∨ x.phase = .owed job) :
      Step x (.tried job ok) ⟨if ok then .running job else .owed job, x.wanted⟩
  | ended (once : Bool) (hp : x.phase = .running .start) :
      Step x (.gone once) ⟨.due .reset, x.wanted && !once⟩
  | cleaned (once : Bool) (hp : x.phase = .running .reset) :
      Step x (.gone once) ⟨settle (x.wanted && !once), x.wanted && !once⟩
  | removed (hp : x.phase = .idle ∨ ∃ job, x.phase = .owed job) : Step x .removed first

theorem next_step {x y : Ward} {l : Label} (h : next x l = some y) : Step x l y := by
  cases l with
  | born wanted =>
    simp only [next] at h
    split at h
    · next hp => exact Option.some.inj h ▸ .born wanted hp
    · cases h
  | wish wanted =>
    simp only [next] at h
    split at h
    · next hp =>
      obtain rfl := Option.some.inj h
      cases wanted
      · exact .down (.inl hp)
      · exact .up (.inl hp)
    · next job hp =>
      obtain rfl := Option.some.inj h
      cases wanted
      · exact .down (.inr ⟨job, hp⟩)
      · exact .up (.inr ⟨job, hp⟩)
    · next job hp =>
      obtain rfl := Option.some.inj h
      rw [hp]
      exact .wish wanted job hp
    · cases h
  | tried job ok =>
    simp only [next] at h
    split at h
    · next hp => exact Option.some.inj h ▸ .tried job ok hp
    · cases h
  | gone once =>
    simp only [next] at h
    split at h
    · next hp => exact Option.some.inj h ▸ .ended once hp
    · next hp => exact Option.some.inj h ▸ .cleaned once hp
    · cases h
  | removed =>
    simp only [next] at h
    split at h
    · next hp => exact Option.some.inj h ▸ .removed (.inl hp)
    · next job hp => exact Option.some.inj h ▸ .removed (.inr ⟨job, hp⟩)
    · cases h

/-- Nobody forgets a process that is wanted: it runs, or is about to, or is owed. -/
theorem wanted_not_idle {ls : List Label} {x : Ward} (h : run ls = some x) (hw : x.wanted = true) :
    x.phase ≠ .idle ∧ x.phase ≠ .absent := by
  refine run_invariant (I := fun _ x => x.wanted = true → x.phase ≠ .idle ∧ x.phase ≠ .absent)
    (by simp [first]) (fun ls x l y hi hl => ?_) h hw
  cases next_step hl with
  | born wanted hp =>
    intro hw
    obtain rfl : wanted = true := hw
    simp [settle]
  | up hp => simp
  | down hp => simp
  | wish wanted job hp => simp
  | tried job ok hp => cases ok <;> simp
  | ended once hp => simp
  | cleaned once hp =>
    intro hw
    have hs : (x.wanted && !once) = true := hw
    simp [settle, hs]
  | removed hp => simp [first]

/-- How often a job has been begun -/
def succeeded (job : Job) (ls : List Label) : ℕ := ls.count (.tried job true)

/-- Is the clean-up after the last start still to be begun? -/
def Phase.uncleaned : Phase → ℕ
  | .running .start | .due .reset | .owed .reset => 1
  | _ => 0

@[simp] theorem uncleaned_settle (wanted : Bool) : (settle wanted).uncleaned = 0 := by
  cases wanted <;> rfl

/-- Each clean-up follows a start of its own. -/
theorem reset_le_start {ls : List Label} {x : Ward} (h : run ls = some x) :
    succeeded .reset ls + x.phase.uncleaned ≤ succeeded .start ls := by
  refine run_invariant
    (I := fun ls x => succeeded .reset ls + x.phase.uncleaned ≤ succeeded .start ls)
    (by simp [succeeded, first, Phase.uncleaned]) (fun ls x l y hi hl => ?_) h
  have hcount (job : Job) : succeeded job (ls ++ [l]) =
      succeeded job ls + if l = .tried job true then 1 else 0 := by
    simp [succeeded, List.count_append, List.count_singleton]
  rw [hcount, hcount]
  cases next_step hl with
  | born wanted hp =>
    simp only [uncleaned_settle, reduceCtorEq, ↓reduceIte]
    omega
  | up hp =>
    have hu : Phase.uncleaned (.due .start) = 0 := rfl
    simp only [hu, reduceCtorEq, ↓reduceIte]
    omega
  | down hp => exact hi
  | wish wanted job hp =>
    rw [hp] at hi
    exact hi
  | tried job ok hp =>
    -- a clean-up is tried only where one is due
    have hreset : job = .reset → x.phase.uncleaned = 1 := by
      rintro rfl
      rcases hp with hp | hp <;> rw [hp] <;> rfl
    cases job <;> cases ok <;> simp_all [Phase.uncleaned] <;> omega
  | ended once hp =>
    rw [hp] at hi
    exact hi
  | cleaned once hp =>
    simp only [uncleaned_settle, reduceCtorEq, ↓reduceIte]
    omega
  | removed hp =>
    have hu : first.phase.uncleaned = 0 := rfl
    simp only [hu, reduceCtorEq, ↓reduceIte]
    omega

end Perp.Supervision
