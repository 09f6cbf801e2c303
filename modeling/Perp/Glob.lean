import Mathlib.Data.List.Forall2
import Mathlib.Tactic.Common

set_option autoImplicit false

/-!
# Glob patterns

The language of a pattern over any alphabet, and how far it is decided by the first
place where a block between two stars fits.
-/
namespace Perp.Glob

/-- A sign of a pattern: any sequence, any one letter, or a letter. -/
inductive Sign (α : Type) where
  | many
  | one
  | letter (a : α)
  deriving DecidableEq

section
variable {α β : Type} (R : α → β → Prop)

def Sign.Fits : Sign α → β → Prop
  | .many, _ => False
  | .one, _ => True
  | .letter a, b => R a b

def Matches : List (Sign α) → List β → Prop
  | [], s => s = []
  | .many :: p, s => ∃ u v, s = u ++ v ∧ Matches p v
  | c :: p, s => ∃ b v, s = b :: v ∧ c.Fits R b ∧ Matches p v

variable {R} {p q : List (Sign α)} {s u v : List β} {c : Sign α} {b : β}

@[simp] theorem matches_nil : Matches R [] s ↔ s = [] := Iff.rfl

@[simp] theorem matches_many :
    Matches R (.many :: p) s ↔ ∃ u v, s = u ++ v ∧ Matches R p v := Iff.rfl

theorem matches_cons (hc : c ≠ .many) :
    Matches R (c :: p) s ↔ ∃ b v, s = b :: v ∧ c.Fits R b ∧ Matches R p v := by
  cases c with
  | many => exact absurd rfl hc
  | one => rfl
  | letter a => rfl

@[simp] theorem not_matches_cons_nil (hc : c ≠ .many) : ¬ Matches R (c :: p) [] := by
  rw [matches_cons hc]
  simp

theorem matches_cons_cons (hc : c ≠ .many) :
    Matches R (c :: p) (b :: s) ↔ c.Fits R b ∧ Matches R p s := by
  rw [matches_cons hc]
  simp

/-- A sign that takes a letter -/
def Sign.takes : Sign α → Bool
  | .many => false
  | _ => true

theorem matches_length (h : Matches R p s) : p.countP Sign.takes ≤ s.length := by
  induction p generalizing s with
  | nil => exact Nat.zero_le _
  | cons c p ih =>
    by_cases hc : c = .many
    · subst hc
      obtain ⟨u, v, rfl, hv⟩ := h
      have hle := ih hv
      rw [List.countP_cons_of_neg (by simp [Sign.takes]), List.length_append]
      omega
    · obtain ⟨b, v, rfl, -, hv⟩ := (matches_cons hc).mp h
      have hle := ih hv
      rw [List.countP_cons, List.length_cons]
      split <;> omega

/-! ## Stars -/

theorem matches_many_self (h : Matches R p s) : Matches R (.many :: p) s := ⟨[], s, rfl, h⟩

theorem matches_many_append (u : List β) (h : Matches R (.many :: p) v) :
    Matches R (.many :: p) (u ++ v) := by
  obtain ⟨w, x, rfl, hx⟩ := h
  exact ⟨u ++ w, x, (List.append_assoc u w x).symm, hx⟩

theorem matches_many_many : Matches R (.many :: .many :: p) s ↔ Matches R (.many :: p) s := by
  constructor
  · rintro ⟨u, v, rfl, h⟩
    exact matches_many_append u h
  · exact matches_many_self

theorem matches_many_nil : Matches R [.many] s := ⟨s, [], (List.append_nil s).symm, rfl⟩

/-- A pattern that does not fit here fits behind a star only further on. -/
theorem matches_many_next (h : ¬ Matches R p (b :: s)) :
    Matches R (.many :: p) (b :: s) ↔ Matches R (.many :: p) s := by
  constructor
  · rintro ⟨u, v, huv, hv⟩
    cases u with
    | nil => exact absurd (huv ▸ hv) h
    | cons x u =>
      obtain ⟨-, rfl⟩ := List.cons.inj huv
      exact ⟨u, v, rfl, hv⟩
  · exact matches_many_append [b]

/-! ## Blocks without a star -/

/-- No star -/
def Block (p : List (Sign α)) : Prop := .many ∉ p

theorem Block.tail (h : Block (c :: p)) : c ≠ .many ∧ Block p :=
  ⟨fun hc => h (hc ▸ List.mem_cons_self), fun hm => h (List.mem_cons_of_mem c hm)⟩

theorem Block.countP (h : Block p) : p.countP Sign.takes = p.length := by
  apply List.countP_eq_length.mpr
  intro c hc
  cases c with
  | many => exact absurd hc h
  | one => rfl
  | letter a => rfl

theorem matches_block_append (hp : Block p) (h : List.Forall₂ (Sign.Fits R) p u) :
    Matches R (p ++ q) (u ++ v) ↔ Matches R q v := by
  induction h with
  | nil => rfl
  | cons hc _ ih =>
    rw [List.cons_append, List.cons_append, matches_cons_cons hp.tail.1, ih hp.tail.2]
    exact and_iff_right hc

theorem matches_block (hp : Block p) : Matches R (p ++ q) s ↔
    ∃ u v, s = u ++ v ∧ List.Forall₂ (Sign.Fits R) p u ∧ Matches R q v := by
  constructor
  · induction p generalizing s with
    | nil => exact fun h => ⟨[], s, rfl, .nil, h⟩
    | cons c p ih =>
      intro h
      rw [List.cons_append, matches_cons hp.tail.1] at h
      obtain ⟨b, t, rfl, hb, ht⟩ := h
      obtain ⟨u, v, rfl, hu, hv⟩ := ih hp.tail.2 ht
      exact ⟨b :: u, v, rfl, .cons hb hu, hv⟩
  · rintro ⟨u, v, rfl, hu, hv⟩
    exact (matches_block_append hp hu).mpr hv

/-- Where a block fits behind a star first, nothing is lost by taking it there when
another star follows. -/
theorem matches_many_block (hp : Block p) (h : List.Forall₂ (Sign.Fits R) p u) :
    Matches R (.many :: (p ++ .many :: q)) (u ++ v) ↔ Matches R (.many :: q) v := by
  constructor
  · rintro ⟨w, x, hwx, hx⟩
    obtain ⟨u', y, rfl, hu', hy⟩ := (matches_block hp).mp hx
    have hlen : u.length ≤ (w ++ u').length := by
      rw [← h.length_eq, List.length_append, hu'.length_eq]
      omega
    rw [← List.append_assoc] at hwx
    rcases List.append_eq_append_iff.mp hwx with ⟨z, -, rfl⟩ | ⟨z, hz, rfl⟩
    · exact matches_many_append z hy
    · have hnil : z = [] := by
        apply List.eq_nil_of_length_eq_zero
        rw [hz, List.length_append] at hlen
        omega
      subst hnil
      exact hy
  · intro hv
    exact matches_many_self ((matches_block_append hp h).mpr hv)

end

end Perp.Glob
