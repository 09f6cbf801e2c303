import Mathlib.Data.List.Induction
import Mathlib.Tactic.Common

set_option autoImplicit false

/-!
# Laws and monitors over event traces

A trace is a list in the order of time. A law constrains every event by the
events before it; a monitor is a finite or infinite automaton that reads the
trace. Both are extended at the end of the list, which is where a running
system adds its next event.
-/
namespace Perp.TraceLaw

universe u v
variable {α : Type u} {σ : Type v}

theorem split_append {a b pre post : List α} {c : α} (h : a ++ b = pre ++ c :: post) :
    (∃ as, pre = a ++ as ∧ b = as ++ c :: post) ∨
      ∃ mid, a = pre ++ c :: mid ∧ post = mid ++ b := by
  rcases List.append_eq_append_iff.mp h with ⟨as, h1, h2⟩ | ⟨bs, h1, h2⟩
  · exact Or.inl ⟨as, h1, h2⟩
  · cases bs with
    | nil => exact Or.inl ⟨[], by simpa using h1.symm, by simpa using h2.symm⟩
    | cons b bs =>
      obtain ⟨rfl, rfl⟩ := List.cons.inj h2
      exact Or.inr ⟨bs, h1, rfl⟩

/-- Every event of the trace satisfies `P` with respect to its past. -/
def Along (P : List α → α → Prop) (t : List α) : Prop :=
  ∀ past e rest, t = past ++ e :: rest → P past e

section Along
variable {P Q : List α → α → Prop}

@[simp] theorem along_nil : Along P [] := by
  intro past e rest h
  simp at h

@[simp] theorem along_concat (t : List α) (e : α) : Along P (t ++ [e]) ↔ Along P t ∧ P t e := by
  constructor
  · intro h
    refine ⟨fun past x rest ht => h past x (rest ++ [e]) ?_, h t e [] rfl⟩
    simp [ht]
  · rintro ⟨ht, he⟩ past x rest h
    rcases List.eq_nil_or_concat rest with rfl | ⟨rest', y, rfl⟩
    · obtain ⟨rfl, hx⟩ := List.append_inj' h rfl
      simp only [List.cons.injEq, and_true] at hx
      exact hx ▸ he
    · have hr : t ++ [e] = (past ++ x :: rest') ++ [y] := by simpa using h
      exact ht past x rest' (List.append_inj' hr rfl).1

theorem Along.of_append {t u : List α} (h : Along P (t ++ u)) : Along P t := by
  intro past e rest ht
  exact h past e (rest ++ u) (by simp [ht])

theorem Along.append {t u : List α} (h : Along P t)
    (hu : ∀ past e rest, u = past ++ e :: rest → P (t ++ past) e) : Along P (t ++ u) := by
  induction u using List.reverseRecOn with
  | nil => simpa using h
  | append_singleton u e ih =>
    rw [← List.append_assoc, along_concat]
    refine ⟨ih fun past x rest hx => hu past x (rest ++ [e]) (by simp [hx]), ?_⟩
    exact hu u e [] rfl

theorem Along.append_free {t u : List α} (h : Along P t) (hu : ∀ e ∈ u, ∀ past, P past e) :
    Along P (t ++ u) :=
  h.append fun past e rest he => hu e (by simp [he]) _

theorem Along.mono (h : ∀ past e, P past e → Q past e) {t : List α} (ht : Along P t) :
    Along Q t :=
  fun past e rest he => h past e (ht past e rest he)

theorem along_filter (p : α → Bool) (t : List α) :
    Along P (t.filter p) ↔ Along (fun past e => p e = true → P (past.filter p) e) t := by
  induction t using List.reverseRecOn with
  | nil => simp
  | append_singleton t e ih =>
    rw [List.filter_append, along_concat, ← ih]
    cases h : p e <;> simp [h]

theorem along_const (p : α → Prop) (t : List α) : Along (fun _ => p) t ↔ ∀ e ∈ t, p e := by
  constructor
  · intro h e he
    obtain ⟨past, rest, ht⟩ := List.append_of_mem he
    exact h past e rest ht
  · intro h past e rest ht
    exact h e (by simp [ht])

/-- The events after `past`, one by one. -/
def alongFrom (P : List α → α → Prop) : List α → List α → Prop
  | _, [] => True
  | past, e :: t => P past e ∧ alongFrom P (past ++ [e]) t

theorem alongFrom_iff (past t : List α) :
    alongFrom P past t ↔ ∀ mid e rest, t = mid ++ e :: rest → P (past ++ mid) e := by
  induction t generalizing past with
  | nil => simp [alongFrom]
  | cons x t ih =>
    rw [alongFrom, ih]
    constructor
    · rintro ⟨hx, ht⟩ mid e rest h
      cases mid with
      | nil =>
        obtain ⟨rfl, rfl⟩ := List.cons.inj h
        simpa using hx
      | cons y mid =>
        obtain ⟨rfl, rfl⟩ := List.cons.inj h
        simpa using ht mid e rest rfl
    · intro h
      refine ⟨by simpa using h [] x t rfl, fun mid e rest ht => ?_⟩
      simpa using h (x :: mid) e rest (by simp [ht])

instance alongFrom.decidable [∀ past e, Decidable (P past e)] :
    (past t : List α) → Decidable (alongFrom P past t)
  | _, [] => isTrue trivial
  | past, e :: t =>
    have : Decidable (alongFrom P (past ++ [e]) t) := decidable (past ++ [e]) t
    inferInstanceAs (Decidable (P past e ∧ alongFrom P (past ++ [e]) t))

instance [∀ past e, Decidable (P past e)] (t : List α) : Decidable (Along P t) :=
  decidable_of_iff (alongFrom P [] t) (alongFrom_iff [] t)

end Along

/-- An automaton that reads a trace. -/
structure Monitor (α : Type u) (σ : Type v) where
  init : σ
  next : σ → α → σ

namespace Monitor
variable (m : Monitor α σ)

def run (t : List α) : σ := t.foldl m.next m.init

@[simp] theorem run_nil : m.run [] = m.init := rfl

@[simp] theorem run_concat (t : List α) (e : α) : m.run (t ++ [e]) = m.next (m.run t) e := by
  simp [run]

theorem run_append_of_ignored (t u : List α) (h : ∀ e ∈ u, ∀ q, m.next q e = q) :
    m.run (t ++ u) = m.run t := by
  induction u using List.reverseRecOn with
  | nil => simp
  | append_singleton u e ih =>
    rw [← List.append_assoc, run_concat, h e (by simp), ih (fun x hx => h x (by simp [hx]))]

end Monitor

end Perp.TraceLaw
