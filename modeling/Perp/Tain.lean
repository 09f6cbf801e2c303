import Mathlib.Algebra.Order.Ring.Nat
import Mathlib.Data.Nat.Notation

set_option autoImplicit false

/-!
# Timestamps with nanosecond precision

`struct tain` and the operations of `lasagna/tain` that perpd uses, on the
fixed-width integers of the C code.
-/
namespace Perp

structure Tain where
  sec : UInt64
  nsec : UInt32
  deriving DecidableEq, Repr, Inhabited

namespace Tain

/-- `tain_INIT(s, n)` and `tain_LOAD(t, s, n)` -/
def load (s : UInt64) (n : UInt32) : Tain := ⟨s, n⟩

def zero : Tain := load 0 0

def plus (a b : Tain) : Tain :=
  let sec := a.sec + b.sec
  let nsec := a.nsec + b.nsec
  if nsec > 999999999 then ⟨sec + 1, nsec - 1000000000⟩ else ⟨sec, nsec⟩

def minus (a b : Tain) : Tain :=
  let sec := a.sec - b.sec
  if a.nsec ≥ b.nsec then ⟨sec, a.nsec - b.nsec⟩
  -- the sum is made in `unsigned long` and cut to 32 bits by the assignment
  else ⟨sec - 1, ((1000000000 + a.nsec.toUInt64) - b.nsec.toUInt64).toUInt32⟩

def less (t1 t2 : Tain) : Bool :=
  if t1.sec ≠ t2.sec then t1.sec < t2.sec else t1.nsec < t2.nsec

def iszero (t : Tain) : Bool := t.sec == 0 && t.nsec == 0

/-- `tain_to_msecs()`, which may overflow -/
def toMsecs (t : Tain) : UInt64 := t.sec * 1000 + t.nsec.toUInt64 / 1000000

/-- `tain_pack()`: eight bytes of seconds and four of nanoseconds, most significant first -/
def pack (t : Tain) : List UInt8 :=
  [56, 48, 40, 32, 24, 16, 8, 0].map (fun k : UInt64 => (t.sec >>> k).toUInt8) ++
    [24, 16, 8, 0].map (fun k : UInt32 => (t.nsec >>> k).toUInt8)

/-- `tain_unpack()` -/
def unpack (buf : List UInt8) : Tain :=
  ⟨[0, 1, 2, 3, 4, 5, 6, 7].foldl (fun x i => (x <<< 8) + (buf.getD i 0).toUInt64) 0,
    [8, 9, 10, 11].foldl (fun x i => (x <<< 8) + (buf.getD i 0).toUInt32) 0⟩

theorem unpack_pack (t : Tain) (rest : List UInt8) : unpack (t.pack ++ rest) = t := by
  have hs := t.sec.toNat_lt
  have hn := t.nsec.toNat_lt
  have hsec : (unpack (t.pack ++ rest)).sec = t.sec := by
    apply UInt64.toNat_inj.mp
    simp [unpack, pack, Nat.shiftRight_eq_div_pow, Nat.shiftLeft_eq]
    omega
  have hnsec : (unpack (t.pack ++ rest)).nsec = t.nsec := by
    apply UInt32.toNat_inj.mp
    simp [unpack, pack, Nat.shiftRight_eq_div_pow, Nat.shiftLeft_eq]
    omega
  calc
    unpack (t.pack ++ rest) = ⟨t.sec, t.nsec⟩ := by rw [← hsec, ← hnsec]
    _ = t := rfl

/-- The instant in nanoseconds. -/
def nanos (t : Tain) : ℕ := t.sec.toNat * 1000000000 + t.nsec.toNat

/-- The nanoseconds are less than a second. -/
def Normal (t : Tain) : Prop := t.nsec.toNat < 1000000000

instance (t : Tain) : Decidable t.Normal := inferInstanceAs (Decidable (_ < _))

section Normal
variable {a b : Tain} (ha : a.Normal) (hb : b.Normal)
include ha hb

theorem less_iff : less a b = true ↔ a.nanos < b.nanos := by
  unfold Normal at ha hb
  simp only [less, nanos, ne_eq, ← UInt64.toNat_inj]
  split
  · simp only [decide_eq_true_eq, UInt64.lt_iff_toNat_lt]
    omega
  · simp only [decide_eq_true_eq, UInt32.lt_iff_toNat_lt]
    omega

theorem minus_exact (h : b.nanos ≤ a.nanos) :
    (minus a b).Normal ∧ (minus a b).nanos = a.nanos - b.nanos := by
  have hsa := a.sec.toNat_lt
  have hsb := b.sec.toNat_lt
  unfold Normal at ha hb
  unfold nanos at h
  simp only [minus, ge_iff_le, UInt32.le_iff_toNat_le]
  split
  · next hle =>
    have hsec : (a.sec - b.sec).toNat = a.sec.toNat - b.sec.toNat :=
      UInt64.toNat_sub_of_le _ _ (UInt64.le_iff_toNat_le.mpr (by omega))
    have hnsec : (a.nsec - b.nsec).toNat = a.nsec.toNat - b.nsec.toNat :=
      UInt32.toNat_sub_of_le _ _ (UInt32.le_iff_toNat_le.mpr hle)
    simp only [Normal, nanos, hsec, hnsec]
    omega
  · next hlt =>
    have hsec : (a.sec - b.sec - 1).toNat = a.sec.toNat - b.sec.toNat - 1 := by
      simp only [UInt64.toNat_sub, UInt64.reduceToNat]
      omega
    have hnsec : (1000000000 + a.nsec.toUInt64 - b.nsec.toUInt64).toUInt32.toNat =
        1000000000 + a.nsec.toNat - b.nsec.toNat := by
      simp only [UInt64.toNat_toUInt32, UInt64.toNat_sub, UInt64.toNat_add,
        UInt32.toNat_toUInt64, UInt64.reduceToNat]
      omega
    simp only [Normal, nanos, hsec, hnsec]
    omega

theorem plus_exact (hfit : a.nanos + b.nanos < 2 ^ 64 * 1000000000) :
    (plus a b).Normal ∧ (plus a b).nanos = a.nanos + b.nanos := by
  unfold Normal at ha hb
  unfold nanos at hfit
  have hnsec : (a.nsec + b.nsec).toNat = a.nsec.toNat + b.nsec.toNat := by
    rw [UInt32.toNat_add]
    omega
  have hsec : (a.sec + b.sec).toNat = a.sec.toNat + b.sec.toNat := by
    rw [UInt64.toNat_add]
    omega
  simp only [plus, gt_iff_lt, UInt32.lt_iff_toNat_lt, UInt32.reduceToNat, hnsec]
  split
  · have hcarry : (a.sec + b.sec + 1).toNat = a.sec.toNat + b.sec.toNat + 1 := by
      rw [UInt64.toNat_add, hsec]
      simp only [UInt64.reduceToNat]
      omega
    have hrest : (a.nsec + b.nsec - 1000000000).toNat =
        a.nsec.toNat + b.nsec.toNat - 1000000000 := by
      rw [UInt32.toNat_sub, hnsec]
      simp only [UInt32.reduceToNat]
      omega
    simp only [Normal, nanos, hcarry, hrest]
    omega
  · simp only [Normal, nanos, hsec, hnsec]
    omega

end Normal

theorem toMsecs_exact {t : Tain} (h : t.Normal) (hfit : t.nanos < 2 ^ 64 * 1000000) :
    t.toMsecs.toNat = t.nanos / 1000000 := by
  unfold Normal at h
  unfold nanos at hfit ⊢
  simp only [toMsecs, UInt64.toNat_add, UInt64.toNat_mul, UInt64.toNat_div,
    UInt32.toNat_toUInt64, UInt64.reduceToNat]
  omega

end Tain

end Perp
