import Mathlib.Algebra.Order.Ring.Nat
import Mathlib.Tactic.Ring
import Perp.PktSplit

set_option autoImplicit false

/-!
# Timestamps of the log

`stamp8601_make()` of tinylog, over the decimal digits of `lasagna/nfmt`.
-/
namespace Perp.Stamp8601
open Pkt

/-- The loop of `nfmt_uint32_()`, from the last digit, for at most `k` digits. -/
def nfmtDigits : ℕ → ℕ → List UInt8
  | 0, _ => []
  | k + 1, n =>
    if n / 10 = 0 then [UInt8.ofNat (48 + n % 10)]
    else nfmtDigits k (n / 10) ++ [UInt8.ofNat (48 + n % 10)]

def nfmtUint32 (n : UInt32) : List UInt8 := nfmtDigits 10 n.toNat

/-- `nfmt_uint32_pad0_()` -/
def nfmtUint32Pad0 (n : UInt32) (w : ℕ) : List UInt8 :=
  List.replicate (w - (nfmtUint32 n).length) 48 ++ nfmtUint32 n

/-- What `gmtime()` makes of the clock, with its year counted from 0 and its
month from 1, and the microseconds. -/
structure Tm where
  year : UInt32
  mon : Fin 13
  mday : Fin 32
  hour : Fin 24
  min : Fin 60
  sec : Fin 61
  usec : Fin 1000000
  deriving DecidableEq, Repr

/-- `stamp8601_make()` into the buffer `s` -/
def stamp8601Make (s : List UInt8) (tm : Tm) : List UInt8 :=
  let s := bufWrite s 0 (nfmtUint32Pad0 tm.year 4)
  let s := bufWrite s 4 (nfmtUint32Pad0 (UInt32.ofNat tm.mon) 2)
  let s := bufWrite s 6 (nfmtUint32Pad0 (UInt32.ofNat tm.mday) 2)
  let s := bufWrite s 8 [84]
  let s := bufWrite s 9 (nfmtUint32Pad0 (UInt32.ofNat tm.hour) 2)
  let s := bufWrite s 11 (nfmtUint32Pad0 (UInt32.ofNat tm.min) 2)
  let s := bufWrite s 13 (nfmtUint32Pad0 (UInt32.ofNat tm.sec) 2)
  let s := bufWrite s 15 [46]
  bufWrite s 16 (nfmtUint32Pad0 (UInt32.ofNat tm.usec) 6)

theorem nfmtDigits_length_le (k n : ℕ) : (nfmtDigits k n).length ≤ k := by
  induction k generalizing n with
  | zero => simp [nfmtDigits]
  | succ k ih =>
    simp only [nfmtDigits]
    split
    · simp
    · simpa using ih (n / 10)

/-- A number below `10 ^ (m + 1)` has no more than `m + 1` digits. -/
theorem nfmtDigits_length_of_lt {m n : ℕ} (h : n < 10 ^ (m + 1)) (k : ℕ) :
    (nfmtDigits k n).length ≤ m + 1 := by
  induction k generalizing m n with
  | zero => simp [nfmtDigits]
  | succ k ih =>
    simp only [nfmtDigits]
    split
    · simp
    · next hn =>
      obtain _ | m := m
      · exact absurd (Nat.div_eq_of_lt (by simpa using h)) hn
      · have hd : n / 10 < 10 ^ (m + 1) := by
          rw [Nat.div_lt_iff_lt_mul (by decide)]
          exact h
        simpa using ih hd

theorem pad0_length_le (n : UInt32) {w : ℕ} (h : w ≤ 10) : (nfmtUint32Pad0 n w).length ≤ 10 := by
  have := nfmtDigits_length_le 10 n.toNat
  simp only [nfmtUint32Pad0, List.length_append, List.length_replicate, nfmtUint32]
  omega

theorem pad0_length {n m : ℕ} (h : n < 10 ^ (m + 1)) (h32 : n < 2 ^ 32) :
    (nfmtUint32Pad0 (UInt32.ofNat n) (m + 1)).length = m + 1 := by
  have hn : (UInt32.ofNat n).toNat = n := by simpa using h32
  have := nfmtDigits_length_of_lt h 10
  simp only [nfmtUint32Pad0, List.length_append, List.length_replicate, nfmtUint32, hn]
  omega

theorem bufWrites_length (fields : List (ℕ × List UInt8)) (s : List UInt8)
    (h : ∀ f ∈ fields, f.1 + f.2.length ≤ s.length) :
    (fields.foldl (fun s f => bufWrite s f.1 f.2) s).length = s.length := by
  induction fields generalizing s with
  | nil => rfl
  | cons f fields ih =>
    have hf := bufWrite_length (h f List.mem_cons_self)
    rw [List.foldl_cons, ih, hf]
    intro g hg
    rw [hf]
    exact h g (List.mem_cons_of_mem _ hg)

/-- The stamp is 22 bytes long: it stays in a buffer that holds as many. -/
theorem stamp8601Make_length {s : List UInt8} (h : 22 ≤ s.length) (tm : Tm) :
    (stamp8601Make s tm).length = s.length := by
  have hyear := pad0_length_le tm.year (w := 4) (by decide)
  have hmon := pad0_length (n := tm.mon) (m := 1) (by omega) (by omega)
  have hmday := pad0_length (n := tm.mday) (m := 1) (by omega) (by omega)
  have hhour := pad0_length (n := tm.hour) (m := 1) (by omega) (by omega)
  have hmin := pad0_length (n := tm.min) (m := 1) (by omega) (by omega)
  have hsec := pad0_length (n := tm.sec) (m := 1) (by omega) (by omega)
  have husec := pad0_length (n := tm.usec) (m := 5) (by omega) (by omega)
  simp only [Nat.reduceAdd] at hmon hmday hhour hmin hsec husec
  apply bufWrites_length [(0, nfmtUint32Pad0 tm.year 4), (4, nfmtUint32Pad0 (UInt32.ofNat tm.mon) 2),
    (6, nfmtUint32Pad0 (UInt32.ofNat tm.mday) 2), (8, [84]),
    (9, nfmtUint32Pad0 (UInt32.ofNat tm.hour) 2), (11, nfmtUint32Pad0 (UInt32.ofNat tm.min) 2),
    (13, nfmtUint32Pad0 (UInt32.ofNat tm.sec) 2), (15, [46]),
    (16, nfmtUint32Pad0 (UInt32.ofNat tm.usec) 6)]
  simp only [List.forall_mem_cons, List.length_cons, List.length_nil]
  exact ⟨by omega, by omega, by omega, by omega, by omega, by omega, by omega, by omega,
    by omega, by simp⟩

end Perp.Stamp8601
