import Mathlib.Algebra.Order.Ring.Nat
import Mathlib.Data.List.TakeWhile
import Mathlib.Data.UInt
import Mathlib.Tactic.Common

set_option autoImplicit false

/-!
# Scanning numbers

`nuscan_uint32()` and `nuscan_uint32o()`: an overflow is noticed where the accumulator
has become smaller.
-/
namespace Perp.Nuscan

/-- `*s - '0'`, taken as unsigned -/
def digit (c : UInt8) : UInt32 := c.toInt8.toInt32.toUInt32 - 48

/-- The loop, with the result so far: the result, and the string from where the scan
stopped. A string that is used up stands at its NUL. -/
def scan (base : UInt32) : UInt32 → List UInt8 → UInt32 × List UInt8
  | r, [] => (r, [])
  | r, c :: s =>
    if digit c < base then
      let n := r * base + digit c
      if n < r then (r, c :: s) else scan base n s
    else (r, c :: s)

def nuscanUint32 (s : List UInt8) : UInt32 × List UInt8 := scan 10 0 s

def nuscanUint32o (s : List UInt8) : UInt32 × List UInt8 := scan 8 0 s

/-! ## Numerals -/

def isDigit (base : ℕ) (c : UInt8) : Bool := 48 ≤ c.toNat && c.toNat < 48 + base

/-- The value of a numeral that is read on from `v` -/
def value (base v : ℕ) (ds : List UInt8) : ℕ := ds.foldl (fun v c => v * base + (c.toNat - 48)) v

def numeral (base : ℕ) (s : List UInt8) : List UInt8 := s.takeWhile (isDigit base)

/-- The value falls at some digit, as far as 32 bits show it. -/
def Falls (base v : ℕ) (ds : List UInt8) : Prop :=
  ∃ k < ds.length, value base v (ds.take (k + 1)) % 2 ^ 32 < value base v (ds.take k) % 2 ^ 32

/-- What the header promises of the scan -/
structure Exact (base : ℕ) (s : List UInt8) (out : UInt32 × List UInt8) : Prop where
  at_nul : out.2 = [] ↔ s.all (isDigit base) = true ∧ value base 0 s < 2 ^ 32
  result : out.2 = [] → out.1.toNat = value base 0 s
  at_digit : 2 ^ 32 ≤ value base 0 (numeral base s) → ∃ c ∈ out.2.head?, isDigit base c = true
  at_other : value base 0 (numeral base s) < 2 ^ 32 → out.2 = s.dropWhile (isDigit base)

/-- The number fits, or the accumulator falls on the way. -/
def Noticed (base : ℕ) (s : List UInt8) : Prop :=
  value base 0 (numeral base s) < 2 ^ 32 ∨ Falls base 0 (numeral base s)

section
variable {base v : ℕ} {s ds : List UInt8} {c : UInt8}

theorem value_append (base v : ℕ) (ds es : List UInt8) :
    value base v (ds ++ es) = value base (value base v ds) es := List.foldl_append

theorem value_le (hbase : 1 ≤ base) (v : ℕ) (ds : List UInt8) : v ≤ value base v ds := by
  induction ds generalizing v with
  | nil => exact le_refl v
  | cons c ds ih =>
    have hmul : v ≤ v * base := Nat.le_mul_of_pos_right v hbase
    have hrest := ih (v * base + (c.toNat - 48))
    rw [value, List.foldl_cons]
    rw [value] at hrest
    omega

theorem falls_cons : Falls base v (c :: ds) ↔
    (v * base + (c.toNat - 48)) % 2 ^ 32 < v % 2 ^ 32 ∨ Falls base (v * base + (c.toNat - 48)) ds := by
  constructor
  · rintro ⟨k, hk, hfall⟩
    cases k with
    | zero => exact .inl hfall
    | succ k => exact .inr ⟨k, Nat.lt_of_succ_lt_succ hk, hfall⟩
  · rintro (hfall | ⟨k, hk, hfall⟩)
    · exact ⟨0, Nat.succ_pos _, hfall⟩
    · exact ⟨k + 1, Nat.succ_lt_succ hk, hfall⟩

theorem not_falls (hbase : 1 ≤ base) (h : value base v ds < 2 ^ 32) : ¬ Falls base v ds := by
  induction ds generalizing v with
  | nil => exact fun ⟨k, hk, _⟩ => absurd hk (Nat.not_lt_zero k)
  | cons c ds ih =>
    rw [falls_cons]
    rintro (hfall | hfall)
    · have hmul : v ≤ v * base := Nat.le_mul_of_pos_right v hbase
      have hle : v * base + (c.toNat - 48) ≤ value base v (c :: ds) := value_le hbase _ ds
      rw [Nat.mod_eq_of_lt (by omega), Nat.mod_eq_of_lt (by omega)] at hfall
      omega
    · exact ih h hfall

end

/-! ## The scan -/

theorem digit_bytes : ∀ n < 256, (48 ≤ n ∧ n < 58 ∧ (digit (UInt8.ofNat n)).toNat = n - 48) ∨
    (n < 48 ∨ 58 ≤ n) ∧ 10 ≤ (digit (UInt8.ofNat n)).toNat := by
  decide +kernel

theorem digit_cases (c : UInt8) : 48 ≤ c.toNat ∧ c.toNat < 58 ∧ (digit c).toNat = c.toNat - 48 ∨
    (c.toNat < 48 ∨ 58 ≤ c.toNat) ∧ 10 ≤ (digit c).toNat := by
  have h := digit_bytes c.toNat c.toNat_lt
  rwa [UInt8.ofNat_toNat] at h

section
variable {base r : UInt32} {v : ℕ} {s : List UInt8} {c : UInt8}

theorem digit_lt_iff (hbase : base.toNat ≤ 10) (c : UInt8) :
    digit c < base ↔ isDigit base.toNat c = true := by
  rw [UInt32.lt_iff_toNat_lt, isDigit, Bool.and_eq_true, decide_eq_true_eq, decide_eq_true_eq]
  have hdigit := digit_cases c
  omega

theorem next_toNat (hbase : base.toNat ≤ 10) (hr : r.toNat = v % 2 ^ 32)
    (hc : isDigit base.toNat c = true) :
    (r * base + digit c).toNat = (v * base.toNat + (c.toNat - 48)) % 2 ^ 32 := by
  have hdigit : (digit c).toNat = c.toNat - 48 := by
    rw [isDigit, Bool.and_eq_true, decide_eq_true_eq, decide_eq_true_eq] at hc
    have hcases := digit_cases c
    omega
  rw [UInt32.toNat_add, UInt32.toNat_mul, hr, hdigit, Nat.mod_add_mod, Nat.add_mod,
    Nat.mod_mul_mod, ← Nat.add_mod]

/-- The scan from `r`, where `v` is the value of what has been read: it stops at a digit
where the value falls, and else behind the numeral. -/
theorem scan_spec (hbase : base.toNat ≤ 10) (hr : r.toNat = v % 2 ^ 32) :
    Falls base.toNat v (numeral base.toNat s) ∧
        (∃ c ∈ (scan base r s).2.head?, isDigit base.toNat c = true) ∨
      ¬ Falls base.toNat v (numeral base.toNat s) ∧
        (scan base r s).1.toNat = value base.toNat v (numeral base.toNat s) % 2 ^ 32 ∧
        (scan base r s).2 = s.dropWhile (isDigit base.toNat) := by
  induction s generalizing r v with
  | nil => exact .inr ⟨fun ⟨k, hk, _⟩ => absurd hk (Nat.not_lt_zero k), hr, rfl⟩
  | cons c s ih =>
    by_cases hc : isDigit base.toNat c = true
    · have hnext := next_toNat hbase hr hc
      rw [scan, if_pos ((digit_lt_iff hbase c).mpr hc), numeral, List.takeWhile_cons_of_pos hc,
        List.dropWhile_cons_of_pos hc, falls_cons, ← hnext, ← hr, ← UInt32.lt_iff_toNat_lt]
      dsimp only
      by_cases hfall : r * base + digit c < r
      · rw [if_pos hfall]
        exact .inl ⟨.inl hfall, c, rfl, hc⟩
      · rw [if_neg hfall]
        simp only [hfall, false_or]
        exact ih hnext
    · rw [scan, if_neg (fun h => hc ((digit_lt_iff hbase c).mp h)), numeral,
        List.takeWhile_cons_of_neg hc, List.dropWhile_cons_of_neg hc]
      exact .inr ⟨fun ⟨k, hk, _⟩ => absurd hk (Nat.not_lt_zero k), hr, rfl⟩

theorem not_digit_of_dropWhile {p : UInt8 → Bool} (h : c ∈ (s.dropWhile p).head?) :
    p c = false := by
  have hnot := List.head?_dropWhile_not p s
  rwa [h] at hnot

theorem numeral_of_all {base : ℕ} (h : ∀ c ∈ s, isDigit base c = true) : numeral base s = s :=
  List.takeWhile_eq_self_iff.mpr h

/-- A string is scanned to its end exactly when it is of digits only and the accumulator does not
fall on the way. -/
theorem nuscan_end (s : List UInt8) :
    ((nuscanUint32 s).2 = [] ↔ (∀ c ∈ s, isDigit 10 c = true) ∧ ¬ Falls 10 0 s) ∧
      ((nuscanUint32 s).2 = [] → (nuscanUint32 s).1.toNat = value 10 0 s % 2 ^ 32) := by
  have hspec : Falls 10 0 (numeral 10 s) ∧
        (∃ c ∈ (nuscanUint32 s).2.head?, isDigit 10 c = true) ∨
      ¬ Falls 10 0 (numeral 10 s) ∧
        (nuscanUint32 s).1.toNat = value 10 0 (numeral 10 s) % 2 ^ 32 ∧
        (nuscanUint32 s).2 = s.dropWhile (isDigit 10) := @scan_spec 10 0 0 s (by decide) rfl
  rcases hspec with ⟨hfall, c, hc, -⟩ | ⟨hfall, hr, hs⟩
  · have hne : (nuscanUint32 s).2 ≠ [] := by
      intro h
      rw [h] at hc
      exact Option.not_mem_none c hc
    refine ⟨iff_of_false hne ?_, fun h => absurd h hne⟩
    rintro ⟨hall, hnot⟩
    rw [numeral_of_all hall] at hfall
    exact hnot hfall
  · rw [hs, List.dropWhile_eq_nil_iff]
    constructor
    · constructor
      · intro hall
        rw [numeral_of_all hall] at hfall
        exact ⟨hall, hfall⟩
      · exact fun h => h.1
    · intro hall
      rw [numeral_of_all hall] at hr
      exact hr

/-- A number is scanned as the header says exactly when it fits or the accumulator falls. -/
theorem scan_exact (hbase : base.toNat ≤ 10) (hpos : 1 ≤ base.toNat) (s : List UInt8) :
    Exact base.toNat s (scan base 0 s) ↔ Noticed base.toNat s := by
  rcases scan_spec (r := 0) (v := 0) (s := s) hbase rfl with ⟨hfall, c, hc, hdigit⟩ | ⟨hfall, hr, hs⟩
  · have hlarge : ¬ value base.toNat 0 (numeral base.toNat s) < 2 ^ 32 :=
      fun h => not_falls hpos h hfall
    have hne : (scan base 0 s).2 ≠ [] := by
      intro h
      rw [h] at hc
      exact Option.not_mem_none c hc
    apply iff_of_true _ (.inr hfall)
    constructor
    · apply iff_of_false hne
      rintro ⟨hall, hfits⟩
      rw [numeral_of_all (List.all_eq_true.mp hall)] at hlarge
      exact hlarge hfits
    · exact fun h => absurd h hne
    · exact fun _ => ⟨c, hc, hdigit⟩
    · exact fun h => absurd h hlarge
  · rw [Noticed, or_iff_left hfall]
    constructor
    · intro hexact
      by_contra hlarge
      obtain ⟨c, hc, hdigit⟩ := hexact.at_digit (Nat.le_of_not_lt hlarge)
      rw [hs] at hc
      rw [not_digit_of_dropWhile hc] at hdigit
      exact Bool.false_ne_true hdigit
    · intro hfits
      constructor
      · rw [hs, List.dropWhile_eq_nil_iff, List.all_eq_true]
        constructor
        · intro hall
          rw [numeral_of_all hall] at hfits
          exact ⟨hall, hfits⟩
        · exact fun h => h.1
      · intro hnil
        rw [hs, List.dropWhile_eq_nil_iff] at hnil
        rw [hr, Nat.mod_eq_of_lt hfits, numeral_of_all hnil]
      · exact fun h => absurd hfits (Nat.not_lt.mpr h)
      · exact fun _ => hs

end

/-- Of every string, both scans tell the number, an overflow or a bad character exactly when
the number fits in 32 bits or the accumulator falls on the way. -/
theorem nuscan_exact (s : List UInt8) :
    (Exact 10 s (nuscanUint32 s) ↔ Noticed 10 s) ∧ (Exact 8 s (nuscanUint32o s) ↔ Noticed 8 s) :=
  ⟨@scan_exact 10 (by decide) (by decide) s, @scan_exact 8 (by decide) (by decide) s⟩

/-- `5000000000` is taken for 705032704. -/
theorem nuscan_accepts_5000000000 : ¬ ∀ s : List UInt8, s ≠ [] → 0 ∉ s →
    ((nuscanUint32 s).2 = [] ↔ s.all (isDigit 10) = true ∧ value 10 0 s < 2 ^ 32) := by
  intro h
  have hscan : (nuscanUint32 [53, 48, 48, 48, 48, 48, 48, 48, 48, 48]).2 = [] := by decide
  have hvalue := ((h _ (by decide) (by decide)).mp hscan).2
  exact absurd hvalue (by decide)

end Perp.Nuscan
