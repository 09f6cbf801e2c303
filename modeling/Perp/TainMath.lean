import Mathlib.Algebra.Order.Ring.Nat
import Mathlib.Data.Prod.Lex
import Mathlib.Logic.Function.Basic
import Perp.Tain

set_option autoImplicit false

/-!
# Timestamp arithmetic

`tain_plus()` and `tain_minus()` as they store their result field by field, in a memory where the
destination may be either operand, and `tain_uptime()`.
-/
namespace Perp.TainMath
open Tain

section InPlace
variable {ι : Type} [DecidableEq ι]

def setSec (m : ι → Tain) (t : ι) (sec : UInt64) : ι → Tain :=
  Function.update m t { m t with sec := sec }

def setNsec (m : ι → Tain) (t : ι) (nsec : UInt32) : ι → Tain :=
  Function.update m t { m t with nsec := nsec }

def tainPlus (m : ι → Tain) (t a b : ι) : ι → Tain :=
  let m := setSec m t ((m a).sec + (m b).sec)
  let m := setNsec m t ((m a).nsec + (m b).nsec)
  if (m t).nsec > 999999999 then
    let m := setNsec m t ((m t).nsec - 1000000000)
    setSec m t ((m t).sec + 1)
  else m

def tainMinus (m : ι → Tain) (t a b : ι) : ι → Tain :=
  let m := setSec m t ((m a).sec - (m b).sec)
  if (m a).nsec ≥ (m b).nsec then setNsec m t ((m a).nsec - (m b).nsec)
  else
    let m := setSec m t ((m t).sec - 1)
    setNsec m t ((1000000000 + (m a).nsec.toUInt64) - (m b).nsec.toUInt64).toUInt32

@[simp]
theorem setSec_self (m : ι → Tain) (t : ι) (s : UInt64) : setSec m t s t = ⟨s, (m t).nsec⟩ := by
  simp [setSec]

@[simp]
theorem setNsec_self (m : ι → Tain) (t : ι) (n : UInt32) : setNsec m t n t = ⟨(m t).sec, n⟩ := by
  simp [setNsec]

@[simp]
theorem setSec_nsec (m : ι → Tain) (t i : ι) (s : UInt64) : (setSec m t s i).nsec = (m i).nsec := by
  by_cases h : i = t
  · subst h
    rw [setSec_self]
  · simp [setSec, h]

theorem setNsec_setSec (m : ι → Tain) (t : ι) (s : UInt64) (n : UInt32) :
    setNsec (setSec m t s) t n = Function.update m t ⟨s, n⟩ := by
  simp [setNsec, setSec]

theorem setSec_update (m : ι → Tain) (t : ι) (v : Tain) (s : UInt64) :
    setSec (Function.update m t v) t s = Function.update m t ⟨s, v.nsec⟩ := by
  simp [setSec]

theorem setNsec_update (m : ι → Tain) (t : ι) (v : Tain) (n : UInt32) :
    setNsec (Function.update m t v) t n = Function.update m t ⟨v.sec, n⟩ := by
  simp [setNsec]

theorem tainPlus_eq (m : ι → Tain) (t a b : ι) :
    tainPlus m t a b = Function.update m t (plus (m a) (m b)) := by
  simp only [tainPlus, setSec_nsec, setNsec_setSec, Function.update_self, plus]
  split
  · rw [setNsec_update, setSec_update, Function.update_self]
  · rfl

theorem tainMinus_eq (m : ι → Tain) (t a b : ι) :
    tainMinus m t a b = Function.update m t (minus (m a) (m b)) := by
  simp only [tainMinus, setSec_nsec, minus]
  split
  · rw [setNsec_setSec]
  · rw [setNsec_setSec, setSec_self]
    simp [setSec]

end InPlace

/-! ## Seconds of a difference -/

def uptime (now when_ : Tain) : UInt64 :=
  let temp := if less when_ now then minus now when_ else minus when_ now
  let temp := if temp.nsec > 500000000 then { temp with sec := temp.sec + 1 } else temp
  temp.sec

/-- `n` seconds are nearest to `d` nanoseconds; an exact half goes down. -/
def Nearest (d n : ℕ) : Prop :=
  2 * d ≤ 2 * (n * 1000000000) + 1000000000 ∧ 2 * (n * 1000000000) < 2 * d + 1000000000

theorem nearest_unique {d n n' : ℕ} (h : Nearest d n) (h' : Nearest d n') : n = n' := by
  unfold Nearest at h h'
  omega

/-- The seconds that the difference of two timestamps rounds to -/
def rounded (d : ℕ) : ℕ := (d + 499999999) / 1000000000

theorem rounded_nearest (d : ℕ) : Nearest d (rounded d) := by
  unfold Nearest rounded
  omega

/-- The nanoseconds between two timestamps -/
def gap (a b : Tain) : ℕ := ((a.nanos : ℤ) - b.nanos).natAbs

theorem gap_comm (a b : Tain) : gap a b = gap b a := by
  unfold gap
  omega

theorem roundUp_nanos {temp : Tain} (h : temp.Normal) :
    (if temp.nsec > 500000000 then { temp with sec := temp.sec + 1 } else temp).sec.toNat =
      rounded temp.nanos % 2 ^ 64 := by
  have hs := temp.sec.toNat_lt
  unfold Tain.Normal at h
  simp only [gt_iff_lt, UInt32.lt_iff_toNat_lt, UInt32.reduceToNat, rounded, nanos]
  split
  · simp only [UInt64.toNat_add, UInt64.reduceToNat]
    omega
  · omega

theorem uptime_eq {now when_ : Tain} (hn : now.Normal) (hw : when_.Normal) :
    (uptime now when_).toNat = rounded (gap now when_) % 2 ^ 64 := by
  unfold uptime
  by_cases h : less when_ now = true
  · have hlt := (less_iff hw hn).mp h
    have hexact := minus_exact hn hw hlt.le
    have hgap : gap now when_ = (minus now when_).nanos := by
      rw [hexact.2]
      unfold gap
      omega
    rw [hgap, if_pos h]
    exact roundUp_nanos hexact.1
  · have hle : now.nanos ≤ when_.nanos := by
      rw [less_iff hw hn] at h
      omega
    have hexact := minus_exact hw hn hle
    have hgap : gap now when_ = (minus when_ now).nanos := by
      rw [hexact.2]
      unfold gap
      omega
    rw [hgap, if_neg h]
    exact roundUp_nanos hexact.1

theorem uptime_comm {now when_ : Tain} (hn : now.Normal) (hw : when_.Normal) :
    uptime now when_ = uptime when_ now := by
  apply UInt64.toNat_inj.mp
  rw [uptime_eq hn hw, uptime_eq hw hn, gap_comm]

/-! ## The order -/

theorem nanos_inj {a b : Tain} (ha : a.Normal) (hb : b.Normal) (h : a.nanos = b.nanos) : a = b := by
  unfold Tain.Normal at ha hb
  unfold nanos at h
  have hsec : a.sec = b.sec := UInt64.toNat_inj.mp (by omega)
  have hnsec : a.nsec = b.nsec := UInt32.toNat_inj.mp (by omega)
  calc
    a = ⟨a.sec, a.nsec⟩ := rfl
    _ = b := by rw [hsec, hnsec]

/-- Seconds first, then nanoseconds -/
def key (t : Tain) : ℕ ×ₗ ℕ := toLex (t.sec.toNat, t.nsec.toNat)

theorem less_key (a b : Tain) : less a b = true ↔ key a < key b := by
  simp only [less, key, Prod.Lex.toLex_lt_toLex, ne_eq, ← UInt64.toNat_inj]
  split
  · simp only [decide_eq_true_eq, UInt64.lt_iff_toNat_lt]
    omega
  · simp only [decide_eq_true_eq, UInt32.lt_iff_toNat_lt]
    omega

/-- The sum of two timestamps fits in the seconds of one. -/
def Fits (a b : Tain) : Prop := a.nanos + b.nanos < 2 ^ 64 * 1000000000

section Compatible
variable {a b c : Tain} (ha : a.Normal) (hb : b.Normal) (hc : c.Normal)
include ha hb hc

theorem less_plus (hac : Fits a c) (hbc : Fits b c) :
    less (plus a c) (plus b c) = less a b := by
  have hleft := plus_exact ha hc hac
  have hright := plus_exact hb hc hbc
  rw [Bool.eq_iff_iff, less_iff hleft.1 hright.1, less_iff ha hb, hleft.2, hright.2]
  omega

theorem less_minus (hca : c.nanos ≤ a.nanos) (hcb : c.nanos ≤ b.nanos) :
    less (minus a c) (minus b c) = less a b := by
  have hleft := minus_exact ha hc hca
  have hright := minus_exact hb hc hcb
  rw [Bool.eq_iff_iff, less_iff hleft.1 hright.1, less_iff ha hb, hleft.2, hright.2]
  omega

theorem minus_less (hac : a.nanos ≤ c.nanos) (hbc : b.nanos ≤ c.nanos) :
    less (minus c b) (minus c a) = less a b := by
  have hleft := minus_exact hc hb hbc
  have hright := minus_exact hc ha hac
  rw [Bool.eq_iff_iff, less_iff hleft.1 hright.1, less_iff ha hb, hleft.2, hright.2]
  omega

end Compatible

section Inverse
variable {a b : Tain} (ha : a.Normal) (hb : b.Normal)
include ha hb

theorem minus_plus (h : Fits a b) : minus (plus a b) b = a := by
  have hsum := plus_exact ha hb h
  have hdiff := minus_exact hsum.1 hb (by omega)
  apply nanos_inj hdiff.1 ha
  omega

theorem plus_minus (h : b.nanos ≤ a.nanos) : plus (minus a b) b = a := by
  have hdiff := minus_exact ha hb h
  have hlt : a.nanos < 2 ^ 64 * 1000000000 := by
    have hs := a.sec.toNat_lt
    unfold Tain.Normal at ha
    unfold nanos
    omega
  have hsum := plus_exact hdiff.1 hb (by omega)
  apply nanos_inj hsum.1 ha
  omega

end Inverse

/-! ## The arithmetic of two timestamps -/

/-- Sums and differences of `a` and `b` are exact and undo each other. -/
structure Sums (a b : Tain) : Prop where
  plus : Fits a b → (plus a b).Normal ∧ (plus a b).nanos = a.nanos + b.nanos
  minus : b.nanos ≤ a.nanos → (minus a b).Normal ∧ (minus a b).nanos = a.nanos - b.nanos
  minus_plus : Fits a b → Tain.minus (Tain.plus a b) b = a
  plus_minus : b.nanos ≤ a.nanos → Tain.plus (Tain.minus a b) b = a

/-- `tain_less()` is the lexicographic order, and adding or taking away the same keeps it. -/
structure Ordered (a b : Tain) : Prop where
  lex : less a b = true ↔ key a < key b
  plus : ∀ c : Tain, c.Normal → Fits a c → Fits b c →
    less (Tain.plus a c) (Tain.plus b c) = less a b
  minus : ∀ c : Tain, c.Normal → c.nanos ≤ a.nanos → c.nanos ≤ b.nanos →
    less (Tain.minus a c) (Tain.minus b c) = less a b
  minus_from : ∀ c : Tain, c.Normal → a.nanos ≤ c.nanos → b.nanos ≤ c.nanos →
    less (Tain.minus c b) (Tain.minus c a) = less a b

/-- The result and nothing else is stored, whichever places the operands are in. -/
structure Stores {ι : Type} [DecidableEq ι] (m : ι → Tain) (t i j : ι) : Prop where
  plus : tainPlus m t i j = Function.update m t (Tain.plus (m i) (m j))
  minus : tainMinus m t i j = Function.update m t (Tain.minus (m i) (m j))

theorem sums {a b : Tain} (ha : a.Normal) (hb : b.Normal) : Sums a b where
  plus := plus_exact ha hb
  minus := minus_exact ha hb
  minus_plus := minus_plus ha hb
  plus_minus := plus_minus ha hb

theorem ordered {a b : Tain} (ha : a.Normal) (hb : b.Normal) : Ordered a b where
  lex := less_key a b
  plus _ := less_plus ha hb
  minus _ := less_minus ha hb
  minus_from _ := minus_less ha hb

/-- The uptime of `now` since `when_` is `n` seconds. -/
def UptimeIs (now when_ : Tain) (seconds : ℕ → ℕ) : Prop :=
  uptime now when_ = uptime when_ now ∧
    ∃ n, Nearest (gap now when_) n ∧ (uptime now when_).toNat = seconds n

theorem tain_arithmetic {ι : Type} [DecidableEq ι] (m : ι → Tain) (hm : ∀ i, (m i).Normal)
    (t i j : ι) :
    Sums (m i) (m j) ∧ Ordered (m i) (m j) ∧ Stores m t i j ∧
      UptimeIs (m i) (m j) fun n => n % 2 ^ 64 := by
  refine ⟨sums (hm i) (hm j), ordered (hm i) (hm j), ⟨tainPlus_eq m t i j, tainMinus_eq m t i j⟩,
    uptime_comm (hm i) (hm j), ?_⟩
  exact ⟨rounded (gap (m i) (m j)), rounded_nearest _, uptime_eq (hm i) (hm j)⟩

/-- Two timestamps a second and a half apart -/
def places (later : Bool) : Tain :=
  if later then ⟨4611686018427387914, 200000000⟩ else ⟨4611686018427387912, 700000000⟩

theorem places_normal (later : Bool) : (places later).Normal := by
  cases later <;> decide

theorem tain_arithmetic_borrow :
    Sums (places true) (places false) ∧ Ordered (places true) (places false) ∧
      Stores places true true false ∧
      UptimeIs (places true) (places false) fun n => n % 2 ^ 64 :=
  tain_arithmetic places places_normal true true false

/-- More than 2^64 - 1/2 seconds round up to zero. -/
theorem uptime_wraps : ¬ ∀ a b : Tain, a.Normal → b.Normal → Fits a b → UptimeIs a b id := by
  intro h
  have hat := h ⟨18446744073709551615, 600000000⟩ ⟨0, 0⟩ (by decide) (by decide)
    (by unfold Fits; decide)
  obtain ⟨n, hn, hup⟩ := hat.2
  have hzero : n = 0 := by
    rw [← id_eq n, ← hup]
    decide
  subst hzero
  have hgap : gap ⟨18446744073709551615, 600000000⟩ ⟨0, 0⟩ = 18446744073709551615600000000 := by
    decide
  rw [hgap] at hn
  unfold Nearest at hn
  omega

end Perp.TainMath
