import Mathlib.Algebra.Order.Ring.Nat
import Mathlib.Data.UInt
import Mathlib.Tactic.Common

set_option autoImplicit false

/-!
# Fields of fixed width

Numbers that are written with zeros in front, each in a field of its own width. Their text has the
order of the numbers, field by field.
-/
namespace Perp.FixedWidth

/-- Texts of one length are compared first. -/
theorem append_lt_append_iff {α : Type} [LT α] {a b s t : List α}
    (h : a.length = b.length) : a ++ s < b ++ t ↔ a < b ∨ a = b ∧ s < t := by
  induction a generalizing b with
  | nil =>
    obtain rfl := List.length_eq_zero_iff.mp h.symm
    simp
  | cons x a ih =>
    obtain _ | ⟨y, b⟩ := b
    · cases h
    · rw [List.cons_append, List.cons_append, List.cons_lt_cons_iff, List.cons_lt_cons_iff,
        ih (Nat.succ.inj h)]
      constructor
      · rintro (hlt | ⟨rfl, hlt | ⟨rfl, hlt⟩⟩)
        · exact .inl (.inl hlt)
        · exact .inl (.inr ⟨rfl, hlt⟩)
        · exact .inr ⟨rfl, hlt⟩
      · rintro ((hlt | ⟨rfl, hlt⟩) | ⟨heq, hlt⟩)
        · exact .inl hlt
        · exact .inr ⟨rfl, .inl hlt⟩
        · obtain ⟨rfl, rfl⟩ := List.cons.inj heq
          exact .inr ⟨rfl, .inr ⟨rfl, hlt⟩⟩

/-! ## Numbers -/

/-- The last digit -/
def digit (n : ℕ) : UInt8 := UInt8.ofNat (48 + n % 10)

/-- The last `w` digits -/
def padded : ℕ → ℕ → List UInt8
  | 0, _ => []
  | w + 1, n => padded w (n / 10) ++ [digit n]

theorem digit_toNat (n : ℕ) : (digit n).toNat = 48 + n % 10 := by
  have hlt : 48 + n % 10 < UInt8.size := by
    change _ < 256
    omega
  exact UInt8.toNat_ofNat_of_lt hlt

theorem padded_length (w n : ℕ) : (padded w n).length = w := by
  induction w generalizing n with
  | zero => rfl
  | succ w ih => rw [padded, List.length_append, ih, List.length_singleton]

theorem padded_zero (w : ℕ) : padded w 0 = List.replicate w 48 := by
  induction w with
  | zero => rfl
  | succ w ih =>
    rw [padded, Nat.zero_div, ih, List.replicate_succ']
    rfl

theorem padded_digits {c : UInt8} {w n : ℕ} (h : c ∈ padded w n) : 48 ≤ c ∧ c ≤ 57 := by
  induction w generalizing n with
  | zero => cases h
  | succ w ih =>
    rw [padded, List.mem_append, List.mem_singleton] at h
    rcases h with hmem | rfl
    · exact ih hmem
    · rw [UInt8.le_iff_toNat_le, UInt8.le_iff_toNat_le, digit_toNat]
      constructor
      · exact Nat.le_add_right 48 _
      · change 48 + n % 10 ≤ 57
        omega

theorem padded_lt {w m n : ℕ} (h : m < n) (hn : n < 10 ^ w) : padded w m < padded w n := by
  induction w generalizing m n with
  | zero =>
    rw [Nat.pow_zero] at hn
    omega
  | succ w ih =>
    have hlen : (padded w (m / 10)).length = (padded w (n / 10)).length := by
      rw [padded_length, padded_length]
    rw [padded, padded, append_lt_append_iff hlen]
    by_cases hten : m / 10 < n / 10
    · have hsmall : n / 10 < 10 ^ w := by
        rw [Nat.div_lt_iff_lt_mul (by decide)]
        exact hn
      exact .inl (ih hten hsmall)
    · have hsame : m / 10 = n / 10 := by omega
      have hlast : digit m < digit n := by
        rw [UInt8.lt_iff_toNat_lt, digit_toNat, digit_toNat]
        omega
      exact .inr ⟨by rw [hsame], List.cons_lt_cons_iff.mpr (.inl hlast)⟩

theorem padded_lt_iff {w m n : ℕ} (hm : m < 10 ^ w) (hn : n < 10 ^ w) :
    padded w m < padded w n ↔ m < n := by
  constructor
  · intro h
    by_contra hle
    rcases Nat.lt_or_eq_of_le (Nat.not_lt.mp hle) with hlt | heq
    · exact List.lt_asymm h (padded_lt hlt hm)
    · rw [heq] at h
      exact List.lt_irrefl _ h
  · exact fun h => padded_lt h hn

theorem padded_inj {w m n : ℕ} (hm : m < 10 ^ w) (hn : n < 10 ^ w) :
    padded w m = padded w n ↔ m = n := by
  constructor
  · intro h
    rcases Nat.lt_trichotomy m n with hlt | heq | hgt
    · have hless := padded_lt hlt hn
      rw [h] at hless
      exact absurd hless (List.lt_irrefl _)
    · exact heq
    · have hless := padded_lt hgt hm
      rw [h] at hless
      exact absurd hless (List.lt_irrefl _)
  · exact fun h => congrArg (padded w) h

/-! ## Fields -/

/-- A field: its width, and the text behind it -/
abbrev Field := ℕ × List UInt8

def written : List Field → List ℕ → List UInt8
  | f :: layout, n :: ns => padded f.1 n ++ (f.2 ++ written layout ns)
  | _, _ => []

/-- Each number fits in its field. -/
def Fits (layout : List Field) (ns : List ℕ) : Prop :=
  List.Forall₂ (fun f n => n < 10 ^ f.1) layout ns

theorem written_lt_iff {layout : List Field} {ms ns : List ℕ} (hm : Fits layout ms)
    (hn : Fits layout ns) : written layout ms < written layout ns ↔ ms < ns := by
  induction layout generalizing ms ns with
  | nil =>
    cases hm
    cases hn
    exact iff_of_false (List.lt_irrefl _) (List.lt_irrefl _)
  | cons f layout ih =>
    obtain ⟨m, ms, hfit, hfits, rfl⟩ := List.forall₂_cons_left_iff.mp hm
    obtain ⟨n, ns, hfit', hfits', rfl⟩ := List.forall₂_cons_left_iff.mp hn
    have hlen : (padded f.1 m).length = (padded f.1 n).length := by
      rw [padded_length, padded_length]
    rw [written, written, append_lt_append_iff hlen, padded_lt_iff hfit hfit',
      padded_inj hfit hfit', append_lt_append_iff rfl, ih hfits hfits', List.cons_lt_cons_iff]
    simp [List.lt_irrefl]

theorem written_length {layout : List Field} {ns : List ℕ} (h : Fits layout ns) :
    (written layout ns).length = (layout.map fun f => f.1 + f.2.length).sum := by
  induction layout generalizing ns with
  | nil =>
    cases h
    rfl
  | cons f layout ih =>
    obtain ⟨n, ns, -, hfits, rfl⟩ := List.forall₂_cons_left_iff.mp h
    rw [written, List.length_append, List.length_append, padded_length, ih hfits, List.map_cons,
      List.sum_cons]
    omega

end Perp.FixedWidth
