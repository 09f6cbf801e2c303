import Mathlib.Data.List.Basic
import Mathlib.Tactic.Common

set_option autoImplicit false

/-!
# Programs that may be refused

What a step does is said by the condition under which it is refused, and by what holds of its
result when it is not.
-/
namespace Perp.Refusal

variable {α β κ ι ε : Type}

/-- A result; a refusal; or an access outside the memory that is there -/
inductive Res (ε α : Type) where
  | ok (a : α)
  | stopped (e : ε)
  | outside
  deriving Repr

def Res.bind : Res ε α → (α → Res ε β) → Res ε β
  | .ok a, next => next a
  | .stopped e, _ => .stopped e
  | .outside, _ => .outside

/-- A value that is read, if it is there to be read -/
def Res.reading (x : Option β) (next : β → Res ε α) : Res ε α := x.elim .outside next

/-- The steps on the elements of a list, from left to right -/
def Res.fold (step : α → κ → Res ε α) : List κ → α → Res ε α
  | [], a => .ok a
  | x :: xs, a => (step a x).bind (Res.fold step xs)

theorem Res.bind_ok {r : Res ε α} {next : α → Res ε β} {b : β} (h : r.bind next = .ok b) :
    ∃ a, r = .ok a ∧ next a = .ok b := by
  cases r with
  | ok a => exact ⟨a, rfl, h⟩
  | stopped e => cases h
  | outside => cases h

theorem Res.reading_ok {x : Option β} {next : β → Res ε α} {a : α}
    (h : Res.reading x next = .ok a) : ∃ b, x = some b ∧ next b = .ok a := by
  cases x with
  | none => cases h
  | some b => exact ⟨b, rfl, h⟩

/-- It is refused exactly when there is a fault, and else its result is as it is to be. -/
def Res.Meets (r : Res ε α) (fault : Prop) (good : α → Prop) : Prop :=
  (fault ∧ ∃ e, r = .stopped e) ∨ ¬ fault ∧ ∃ a, r = .ok a ∧ good a

/-- Somewhere in the list there is a fault, for the state that has been reached. -/
def Faulty (bad : β → κ → Prop) (next : β → κ → β) : List κ → β → Prop
  | [], _ => False
  | x :: xs, b => bad b x ∨ Faulty bad next xs (next b x)

section
variable {r : Res ε α} {fault fault' : Prop} {good good' : α → Prop} {goal : β → Prop}

theorem Res.Meets.bind {next : α → Res ε β} (h : r.Meets fault good)
    (hnext : ∀ a, good a → (next a).Meets fault' goal) :
    (r.bind next).Meets (fault ∨ fault') goal := by
  rcases h with ⟨hfault, e, rfl⟩ | ⟨hfault, a, rfl, ha⟩
  · exact .inl ⟨.inl hfault, e, rfl⟩
  · rcases hnext a ha with ⟨hfault', hstop⟩ | ⟨hfault', hok⟩
    · exact .inl ⟨.inr hfault', hstop⟩
    · exact .inr ⟨not_or.mpr ⟨hfault, hfault'⟩, hok⟩

theorem Res.Meets.congr (h : r.Meets fault good) (hfault : fault ↔ fault')
    (hgood : ∀ a, good a → good' a) : r.Meets fault' good' := by
  rcases h with ⟨hstop, hr⟩ | ⟨hgo, a, hr, ha⟩
  · exact .inl ⟨hfault.mp hstop, hr⟩
  · exact .inr ⟨fun h => hgo (hfault.mpr h), a, hr, hgood a ha⟩

theorem Res.meets_ok {a : α} (hfault : ¬ fault) (h : good a) :
    (Res.ok a : Res ε α).Meets fault good :=
  .inr ⟨hfault, a, rfl, h⟩

theorem Res.meets_stopped (e : ε) (hfault : fault) : (Res.stopped e : Res ε α).Meets fault good :=
  .inl ⟨hfault, e, rfl⟩

/-- The rule for a loop: each step is followed by one of the state that describes it. -/
theorem Res.Meets.fold {step : α → κ → Res ε α} {bad : β → κ → Prop} {next : β → κ → β}
    {rel : α → β → Prop}
    (hstep : ∀ a b x, rel a b → (step a x).Meets (bad b x) fun a => rel a (next b x))
    (xs : List κ) {a : α} {b : β} (h : rel a b) :
    (Res.fold step xs a).Meets (Faulty bad next xs b) fun a => rel a (xs.foldl next b) := by
  induction xs generalizing a b with
  | nil => exact Res.meets_ok id h
  | cons x xs ih => exact (hstep a b x h).bind fun a ha => ih ha

end

/-- Faults that do not depend on the state -/
theorem faulty_const {bad : κ → Prop} {next : β → κ → β} (xs : List κ) (b : β) :
    Faulty (fun _ => bad) next xs b ↔ ∃ x ∈ xs, bad x := by
  induction xs generalizing b with
  | nil => exact iff_of_false id fun ⟨x, hx, _⟩ => absurd hx List.not_mem_nil
  | cons x xs ih => rw [Faulty, ih, List.exists_mem_cons_iff]

theorem fault_none {broken : Prop} {bad : ι → Prop} (h : ¬ broken) :
    ¬ (broken ∨ ∃ e, (none : Option ι) = some e ∧ bad e) := by
  rintro (hbroken | ⟨e, he, -⟩)
  · exact h hbroken
  · cases he

theorem fault_some {broken : Prop} {bad : ι → Prop} (h : ¬ broken) (e : ι) :
    (broken ∨ ∃ e', some e = some e' ∧ bad e') ↔ bad e := by
  constructor
  · rintro (hbroken | ⟨e', he, hbad⟩)
    · exact absurd hbroken h
    · rwa [Option.some.inj he]
  · exact fun hbad => .inr ⟨e, rfl, hbad⟩

/-- Where only some elements bring a change, and others are at fault by themselves -/
theorem faulty_filterMap {broken : κ → Prop} {f : κ → Option ι} {bad : β → ι → Prop}
    {next : β → ι → β} (xs : List κ) (b : β) :
    Faulty (fun b x => broken x ∨ ∃ e, f x = some e ∧ bad b e) (fun b x => (f x).elim b (next b))
        xs b ↔
      (∃ x ∈ xs, broken x) ∨ Faulty bad next (xs.filterMap f) b := by
  induction xs generalizing b with
  | nil => exact ⟨False.elim, fun h => h.elim (fun ⟨x, hx, _⟩ => absurd hx List.not_mem_nil) id⟩
  | cons x xs ih =>
    rw [Faulty, ih, List.exists_mem_cons_iff]
    by_cases hbroken : broken x
    · exact iff_of_true (.inl (.inl hbroken)) (.inl (.inl hbroken))
    · have hrest : (broken x ∨ ∃ y ∈ xs, broken y) ↔ ∃ y ∈ xs, broken y := or_iff_right hbroken
      rw [hrest]
      cases hf : f x with
      | none =>
        rw [List.filterMap_cons_none hf, Option.elim_none]
        exact or_iff_right (fault_none hbroken)
      | some e =>
        rw [List.filterMap_cons_some hf, Option.elim_some, fault_some hbroken, Faulty]
        exact or_left_comm

theorem foldl_filterMap {f : κ → Option ι} {next : β → ι → β} (xs : List κ) (b : β) :
    xs.foldl (fun b x => (f x).elim b (next b)) b = (xs.filterMap f).foldl next b := by
  induction xs generalizing b with
  | nil => rfl
  | cons x xs ih =>
    rw [List.foldl_cons, ih]
    cases hf : f x with
    | none =>
      rw [List.filterMap_cons_none hf]
      rfl
    | some e =>
      rw [List.filterMap_cons_some hf]
      rfl

end Perp.Refusal
