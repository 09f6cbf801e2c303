import Mathlib.Data.Int.Notation
import Mathlib.Tactic.Common

set_option autoImplicit false

/-!
# Strings
-/
namespace Perp.Cstr

/-- A NUL-terminated string: the bytes before its NUL -/
structure Text where
  bytes : List UInt8
  nul : 0 ∉ bytes
  deriving DecidableEq, Repr

/-- A byte of a string; its NUL can be read, and nothing behind it. -/
def charAt (s : List UInt8) (i : ℕ) : Option UInt8 := (s ++ [0])[i]?

/-- `cstr_pos()`: the first place of a character, or the length of the string -/
def cstrPos (s : List UInt8) (c : UInt8) : ℕ := s.findIdx (· == c)

/-- `cstr_ncmp()`, on strings that are read as NUL at their ends -/
def cstrNcmp : ℕ → List UInt8 → List UInt8 → ℤ
  | 0, _, _ => 0
  | len + 1, s, t =>
    if s.headD 0 = t.headD 0 then if s.headD 0 = 0 then 0 else cstrNcmp len s.tail t.tail
    else ((s.headD 0).toNat : ℤ) - (t.headD 0).toNat

section
variable {s t : List UInt8} {i : ℕ} {c : UInt8}

theorem charAt_of_drop (h : s.drop i = c :: t) : charAt s i = some c := by
  have hi : i < s.length := by
    by_contra hge
    rw [List.drop_eq_nil_of_le (Nat.le_of_not_lt hge)] at h
    exact absurd h (List.cons_ne_nil c t).symm
  rw [charAt, List.getElem?_append_left hi, ← List.head?_drop, h, List.head?_cons]

theorem cstrNcmp_eq_zero {len : ℕ} (hs : len ≤ s.length) (ht : len ≤ t.length) (hnul : 0 ∉ s) :
    cstrNcmp len s t = 0 ↔ s.take len = t.take len := by
  induction len generalizing s t with
  | zero => simp [cstrNcmp]
  | succ len ih =>
    cases s with
    | nil => exact absurd hs (Nat.not_succ_le_zero len)
    | cons c s =>
      cases t with
      | nil => exact absurd ht (Nat.not_succ_le_zero len)
      | cons d t =>
        have hc : c ≠ 0 := fun h => hnul (h ▸ List.mem_cons_self)
        rw [List.take_succ_cons, List.take_succ_cons, List.cons.injEq]
        change (if c = d then if c = 0 then 0 else cstrNcmp len s t else (c.toNat : ℤ) - d.toNat) = 0
          ↔ _
        by_cases hd : c = d
        · rw [if_pos hd, if_neg hc, ih (Nat.le_of_succ_le_succ hs) (Nat.le_of_succ_le_succ ht)
            fun h => hnul (List.mem_cons_of_mem c h)]
          exact (and_iff_right hd).symm
        · rw [if_neg hd]
          apply iff_of_false _ fun h => hd h.1
          intro h
          apply hd
          apply UInt8.toNat_inj.mp
          omega

theorem charAt_length (s : List UInt8) : charAt s s.length = some 0 := List.getElem?_concat_length

theorem cstrPos_self (h : c ∉ s) : cstrPos s c = s.length := by
  rw [cstrPos, List.findIdx_eq_length]
  intro d hd
  rw [beq_eq_false_iff_ne]
  rintro rfl
  exact h hd

theorem cstrPos_append (h : c ∉ s) (t : List UInt8) : cstrPos (s ++ c :: t) c = s.length := by
  have hself := cstrPos_self h
  rw [cstrPos] at hself ⊢
  rw [List.findIdx_append, hself, if_neg (Nat.lt_irrefl _), List.findIdx_cons, beq_self_eq_true,
    cond_true, Nat.zero_add]

theorem cstrPos_le (s : List UInt8) (c : UInt8) : cstrPos s c ≤ s.length := List.findIdx_le_length

theorem take_cstrPos_eq_nil (s : List UInt8) (c : UInt8) :
    s.take (cstrPos s c) = [] ↔ cstrPos s c = 0 := by
  constructor
  · intro hnil
    have hlen := congrArg List.length hnil
    have hle := cstrPos_le s c
    rw [List.length_take, List.length_nil] at hlen
    omega
  · intro hzero
    rw [hzero, List.take_zero]

theorem not_mem_take_cstrPos (s : List UInt8) (c : UInt8) : c ∉ s.take (cstrPos s c) := by
  intro h
  obtain ⟨i, hi, hget⟩ := List.mem_iff_getElem.mp h
  rw [List.length_take] at hi
  rw [List.getElem_take] at hget
  have hlt : i < s.findIdx (· == c) := (Nat.lt_min.mp hi).1
  have hnot := List.not_of_lt_findIdx hlt
  simp [hget] at hnot

theorem drop_cstrPos (h : s.drop (cstrPos s c) ≠ []) :
    ∃ t, s.drop (cstrPos s c) = c :: t := by
  have hlt : s.findIdx (· == c) < s.length := by
    by_contra hge
    exact h (List.drop_eq_nil_of_le (Nat.le_of_not_lt hge))
  have hget := List.findIdx_getElem (w := hlt)
  rw [cstrPos, List.drop_eq_getElem_cons hlt, eq_of_beq hget]
  exact ⟨_, rfl⟩

/-- The string at the start of a memory -/
theorem takeWhile_nul (h : 0 ∉ s) (rest : List UInt8) :
    (s ++ 0 :: rest).takeWhile (· ≠ 0) = s := by
  rw [List.takeWhile_append_of_pos, List.takeWhile_cons_of_neg, List.append_nil]
  · decide
  · intro c hc
    rw [decide_eq_true_eq]
    rintro rfl
    exact h hc

theorem charAt_of_le (h : i ≤ s.length) : ∃ c, charAt s i = some c := by
  have hlt : i < (s ++ [0]).length := by
    rw [List.length_append, List.length_singleton]
    omega
  exact ⟨(s ++ [0])[i], List.getElem?_eq_getElem hlt⟩

end

end Perp.Cstr
