import Mathlib.Algebra.Order.Ring.Nat
import Mathlib.Tactic.Common

set_option autoImplicit false

/-!
# The calendar

Spans of different lengths that follow one another, such as years and months, and the civil date
and time of a count of seconds. A later second has a later date and time, field by field.
-/
namespace Perp.Calendar

/-! ## Spans -/

/-- The span that the instant `n` is in, and the place in it. The span `i` begins at 0, and that
many may be passed. -/
def locate (len : ℕ → ℕ) : ℕ → ℕ → ℕ → ℕ × ℕ
  | 0, i, n => (i, n)
  | fuel + 1, i, n => if n < len i then (i, n) else locate len fuel (i + 1) (n - len i)

/-- The length of that many spans from `i` on -/
def total (len : ℕ → ℕ) : ℕ → ℕ → ℕ
  | 0, _ => 0
  | k + 1, i => len i + total len k (i + 1)

section
variable {len : ℕ → ℕ}

theorem le_locate (fuel i n : ℕ) : i ≤ (locate len fuel i n).1 := by
  induction fuel generalizing i n with
  | zero => exact Nat.le_refl i
  | succ fuel ih =>
    rw [locate]
    split
    · exact Nat.le_refl i
    · exact (Nat.le_succ i).trans (ih (i + 1) _)

/-- Of two instants the later one is in a later span, or later in the same. -/
theorem locate_lt {m n : ℕ} (h : m < n) (fuel i : ℕ) :
    (locate len fuel i m).1 < (locate len fuel i n).1 ∨
      (locate len fuel i m).1 = (locate len fuel i n).1 ∧
        (locate len fuel i m).2 < (locate len fuel i n).2 := by
  induction fuel generalizing i m n with
  | zero => exact .inr ⟨rfl, h⟩
  | succ fuel ih =>
    rw [locate, locate]
    by_cases hn : n < len i
    · rw [if_pos hn, if_pos (h.trans hn)]
      exact .inr ⟨rfl, h⟩
    · rw [if_neg hn]
      by_cases hm : m < len i
      · rw [if_pos hm]
        exact .inl (le_locate fuel (i + 1) _)
      · rw [if_neg hm]
        apply ih
        omega

theorem locate_within {k i n : ℕ} (h : n < total len k i) :
    (locate len k i n).1 < i + k ∧ (locate len k i n).2 < len (locate len k i n).1 := by
  induction k generalizing i n with
  | zero => exact absurd h (Nat.not_lt_zero n)
  | succ k ih =>
    rw [locate]
    rw [total] at h
    by_cases hn : n < len i
    · rw [if_pos hn]
      exact ⟨by omega, hn⟩
    · rw [if_neg hn]
      obtain ⟨hspan, hplace⟩ := @ih (i + 1) (n - len i) (by omega)
      exact ⟨by omega, hplace⟩

/-- Where no span is empty, there is no more to be found with more spans to pass. -/
theorem locate_enough (hlen : ∀ i, 0 < len i) {n k k' : ℕ} (h : n < k) (h' : n < k') (i : ℕ) :
    locate len k i n = locate len k' i n := by
  induction k generalizing k' i n with
  | zero => exact absurd h (Nat.not_lt_zero n)
  | succ k ih =>
    obtain _ | k' := k'
    · exact absurd h' (Nat.not_lt_zero n)
    · rw [locate, locate]
      split
      · rfl
      · have hpos := hlen i
        exact ih (by omega) (by omega) (i + 1)

theorem le_total (hlen : ∀ i, 0 < len i) (k i : ℕ) : k ≤ total len k i := by
  induction k generalizing i with
  | zero => exact Nat.le_refl 0
  | succ k ih =>
    have hpos := hlen i
    have hrest := ih (i + 1)
    rw [total]
    omega

end

/-! ## Dates -/

def leap (year : ℕ) : Bool := year % 4 = 0 && (year % 100 ≠ 0 || year % 400 = 0)

def yearLen (year : ℕ) : ℕ := if leap year then 366 else 365

/-- The days of a month; January is 0. -/
def monthLen (year month : ℕ) : ℕ :=
  if month = 1 then if leap year then 29 else 28
  else if month = 3 ∨ month = 5 ∨ month = 8 ∨ month = 10 then 30
  else 31

/-- The year of a day, and the day of the year. Day 0 is the first of 1970. -/
def yearOf (day : ℕ) : ℕ × ℕ := locate yearLen (day + 1) 1970 day

/-- The month and its day, both from 0 -/
def monthOf (year yday : ℕ) : ℕ × ℕ := locate (monthLen year) 12 0 yday

theorem yearLen_pos (year : ℕ) : 0 < yearLen year := by
  rw [yearLen]
  split <;> decide

theorem total_months (year : ℕ) : total (monthLen year) 12 0 = yearLen year := by
  simp only [total, monthLen, yearLen]
  cases leap year <;> rfl

theorem monthLen_le (year month : ℕ) : monthLen year month ≤ 31 := by
  rw [monthLen]
  split_ifs <;> omega

theorem yday_lt (day : ℕ) : (yearOf day).2 < yearLen (yearOf day).1 :=
  (locate_within (le_total yearLen_pos (day + 1) 1970)).2

theorem month_lt (day : ℕ) : (monthOf (yearOf day).1 (yearOf day).2).1 < 12 ∧
    (monthOf (yearOf day).1 (yearOf day).2).2 < 31 := by
  have hday := yday_lt day
  rw [← total_months] at hday
  obtain ⟨hmonth, hmday⟩ := locate_within hday
  have hlen := monthLen_le (yearOf day).1 (monthOf (yearOf day).1 (yearOf day).2).1
  rw [Nat.zero_add] at hmonth
  exact ⟨hmonth, hmday.trans_le hlen⟩

theorem yearOf_lt {d e : ℕ} (h : d < e) : (yearOf d).1 < (yearOf e).1 ∨
    (yearOf d).1 = (yearOf e).1 ∧ (yearOf d).2 < (yearOf e).2 := by
  rw [yearOf, locate_enough yearLen_pos (Nat.lt_succ_self d) (Nat.lt_succ_of_lt h)]
  exact locate_lt h (e + 1) 1970

/-! ## Dates with the time of the day -/

/-- The fields of a second that is counted from the first of 1970: the year, the month and its day
from 0, the hour, the minute and the second -/
def civil (t : ℕ) : List ℕ :=
  let year := yearOf (t / 86400)
  let month := monthOf year.1 year.2
  [year.1, month.1, month.2, t % 86400 / 3600, t % 3600 / 60, t % 60]

theorem lt_of_le_of_tail {a b : ℕ} {s t : List ℕ} (h : a < b ∨ a = b ∧ s < t) : a :: s < b :: t :=
  List.cons_lt_cons_iff.mpr h

theorem civil_lt {s t : ℕ} (h : s < t) : civil s < civil t := by
  rw [civil, civil]
  by_cases hday : s / 86400 < t / 86400
  · rcases yearOf_lt hday with hyear | ⟨hyear, hyday⟩
    · exact lt_of_le_of_tail (.inl hyear)
    · rw [hyear]
      have hdate := @locate_lt (monthLen (yearOf (t / 86400)).1) _ _ hyday 12 0
      rcases hdate with hmonth | ⟨hmonth, hmday⟩
      · exact lt_of_le_of_tail (.inr ⟨rfl, lt_of_le_of_tail (.inl hmonth)⟩)
      · exact lt_of_le_of_tail (.inr ⟨rfl, lt_of_le_of_tail (.inr ⟨hmonth,
          lt_of_le_of_tail (.inl hmday)⟩)⟩)
  · -- on the same day the rest is decided by the time of it
    have hsame : s / 86400 = t / 86400 := by omega
    rw [hsame]
    refine lt_of_le_of_tail (.inr ⟨rfl, lt_of_le_of_tail (.inr ⟨rfl,
      lt_of_le_of_tail (.inr ⟨rfl, ?_⟩)⟩)⟩)
    by_cases hhour : s % 86400 / 3600 < t % 86400 / 3600
    · exact lt_of_le_of_tail (.inl hhour)
    · refine lt_of_le_of_tail (.inr ⟨by omega, ?_⟩)
      by_cases hmin : s % 3600 / 60 < t % 3600 / 60
      · exact lt_of_le_of_tail (.inl hmin)
      · refine lt_of_le_of_tail (.inr ⟨by omega, lt_of_le_of_tail (.inl ?_)⟩)
        omega

theorem civil_lt_iff {s t : ℕ} : civil s < civil t ↔ s < t := by
  constructor
  · intro h
    by_contra hle
    rcases Nat.lt_or_eq_of_le (Nat.not_lt.mp hle) with hlt | heq
    · exact List.lt_asymm h (civil_lt hlt)
    · rw [heq] at h
      exact List.lt_irrefl _ h
  · exact civil_lt

/-- The 29th of February 2024, at noon -/
example : civil 1709208000 = [2024, 1, 28, 12, 0, 0] := by decide +kernel

end Perp.Calendar
