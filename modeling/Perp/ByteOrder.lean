import Mathlib.Algebra.Order.Ring.Nat
import Mathlib.Data.UInt
import Mathlib.Tactic.Common
import Mathlib.Tactic.Ring

set_option autoImplicit false

/-!
# Numbers as bytes
-/
namespace Perp.ByteOrder

/-- So many bytes of a number, the lowest first -/
def toBytes : ℕ → ℕ → List UInt8
  | 0, _ => []
  | n + 1, v => UInt8.ofNat v :: toBytes n (v / 256)

def ofBytes : List UInt8 → ℕ
  | [] => 0
  | b :: bs => b.toNat + 256 * ofBytes bs

theorem toBytes_length (n v : ℕ) : (toBytes n v).length = n := by
  induction n generalizing v with
  | zero => rfl
  | succ n ih => rw [toBytes, List.length_cons, ih]

theorem ofBytes_toBytes (n v : ℕ) : ofBytes (toBytes n v) = v % 256 ^ n := by
  induction n generalizing v with
  | zero => rw [pow_zero, Nat.mod_one, toBytes, ofBytes]
  | succ n ih =>
    rw [toBytes, ofBytes, ih, UInt8.toNat_ofNat', pow_succ' 256 n]
    exact Nat.mod_mul.symm

theorem toBytes_ofBytes (bs : List UInt8) : toBytes bs.length (ofBytes bs) = bs := by
  induction bs with
  | nil => rfl
  | cons b bs ih =>
    have hb := b.toNat_lt
    have hlow : UInt8.ofNat (b.toNat + 256 * ofBytes bs) = b := by
      apply UInt8.toNat_inj.mp
      rw [UInt8.toNat_ofNat']
      omega
    have hhigh : (b.toNat + 256 * ofBytes bs) / 256 = ofBytes bs := by omega
    rw [List.length_cons, toBytes, ofBytes, hlow, hhigh, ih]

theorem ofBytes_lt (bs : List UInt8) : ofBytes bs < 256 ^ bs.length := by
  induction bs with
  | nil => exact Nat.one_pos
  | cons b bs ih =>
    have hb := b.toNat_lt
    rw [ofBytes, List.length_cons, pow_succ']
    omega

theorem ofBytes_append (bs cs : List UInt8) :
    ofBytes (bs ++ cs) = ofBytes bs + 256 ^ bs.length * ofBytes cs := by
  induction bs with
  | nil => rw [List.nil_append, ofBytes, List.length_nil, pow_zero, Nat.zero_add, Nat.one_mul]
  | cons b bs ih =>
    rw [List.cons_append, ofBytes, ih, ofBytes, List.length_cons, pow_succ']
    ring

theorem map_getD (bs : List UInt8) (off n : ℕ) (h : off + n ≤ bs.length) :
    (List.range' off n).map (bs.getD · 0) = (bs.drop off).take n := by
  apply List.ext_getElem
  · rw [List.length_map, List.length_range', List.length_take, List.length_drop]
    omega
  · intro i hi hi'
    rw [List.length_map, List.length_range'] at hi
    have hlt : off + i < bs.length := by omega
    rw [List.getElem_map, List.getElem_range', List.getElem_take, List.getElem_drop, Nat.one_mul,
      List.getD_eq_getElem?_getD, List.getElem?_eq_getElem hlt, Option.getD_some]

/-! ## Shift registers -/

/-- A register of any width that takes bytes from below -/
theorem foldl_shift {σ : Type} {f : σ → UInt8 → σ} {val : σ → ℕ} {w : ℕ} (hlt : ∀ x, val x < 2 ^ w)
    (hstep : ∀ x b, val (f x b) = (val x * 256 + b.toNat) % 2 ^ w) (bs : List UInt8) (x : σ) :
    val (bs.foldl f x) = (val x * 256 ^ bs.length + ofBytes bs.reverse) % 2 ^ w := by
  induction bs generalizing x with
  | nil =>
    rw [List.foldl_nil, List.length_nil, pow_zero, List.reverse_nil, ofBytes, Nat.mul_one,
      Nat.add_zero, Nat.mod_eq_of_lt (hlt x)]
  | cons b bs ih =>
    rw [List.foldl_cons, ih, hstep, List.reverse_cons, ofBytes_append, List.length_reverse, ofBytes,
      ofBytes, List.length_cons, pow_succ', Nat.add_mod, Nat.mod_mul_mod, ← Nat.add_mod]
    ring_nf

theorem foldl_shift64 (bs : List UInt8) (x : UInt64) :
    (bs.foldl (fun (x : UInt64) (b : UInt8) => (x <<< 8) + b.toUInt64) x).toNat =
      (x.toNat * 256 ^ bs.length + ofBytes bs.reverse) % 2 ^ 64 := by
  apply foldl_shift UInt64.toNat_lt
  intro x b
  simp [Nat.shiftLeft_eq]

theorem foldl_shift32 (bs : List UInt8) (x : UInt32) :
    (bs.foldl (fun (x : UInt32) (b : UInt8) => (x <<< 8) + b.toUInt32) x).toNat =
      (x.toNat * 256 ^ bs.length + ofBytes bs.reverse) % 2 ^ 32 := by
  apply foldl_shift UInt32.toNat_lt
  intro x b
  simp [Nat.shiftLeft_eq]

end Perp.ByteOrder
