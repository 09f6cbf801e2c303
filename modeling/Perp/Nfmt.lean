import Mathlib.Algebra.Order.Ring.Nat
import Mathlib.Data.Nat.Init
import Mathlib.Tactic.Common
import Perp.Nuscan
import Perp.Stamp8601

set_option autoImplicit false

/-!
# Formatting numbers

The functions of `lasagna/nfmt` on a memory: the length that one loop counts, and the digits
that another stores from the end.
-/
namespace Perp.Nfmt

/-! ## Memory -/

/-- The bytes at their addresses -/
abbrev Mem := ℤ → UInt8

def store (m : Mem) (a : ℤ) (c : UInt8) : Mem := fun b => if b = a then c else m b

/-- The text stands at `s`, and all else is as in `m`. -/
def overlay (m : Mem) (s : ℤ) (text : List UInt8) : Mem := fun a =>
  if s ≤ a then (text[(a - s).toNat]?).getD (m a) else m a

/-! ## The formats -/

def byte (c : Char) : UInt8 := UInt8.ofNat c.toNat

/-- A base, the largest `q` that the counting loop leaves alone, and the characters of the
digits -/
structure Format where
  base : ℕ
  cap : ℕ
  digit : ℕ → UInt8
  one_lt : 1 < base
  base_le : base ≤ cap + 1
  cap_lt : cap < base * base
  digit_eq : ∀ d < base, digit d = byte d.digitChar

def decimal : Format where
  base := 10
  cap := 9
  digit := fun d => UInt8.ofNat (48 + d)
  one_lt := by decide
  base_le := by decide
  cap_lt := by decide
  digit_eq := by decide

def octal : Format where
  base := 8
  cap := 7
  digit := fun d => UInt8.ofNat (48 + d)
  one_lt := by decide
  base_le := by decide
  cap_lt := by decide
  digit_eq := by decide

/-- `NFMT_HEXIFY()` -/
def hexify (x : ℕ) : UInt8 := UInt8.ofNat (if x < 10 then x + 48 else x - 10 + 97)

/-- Its loop is left at 16. -/
def hexadecimal : Format where
  base := 16
  cap := 16
  digit := hexify
  one_lt := by decide
  base_le := by decide
  cap_lt := by decide
  digit_eq := by decide

/-- `while (q > 9) { ++len; q /= 10; }` -/
def count (f : Format) (q len : ℕ) : ℕ :=
  if f.cap < q then count f (q / f.base) (len + 1) else len
termination_by q
decreasing_by exact Nat.div_lt_self (by omega) f.one_lt

/-- `do{ *--s = '0' + (n % 10); n /= 10; }while(n);` -/
def write (f : Format) (m : Mem) (s : ℤ) (n : ℕ) : Mem :=
  let m := store m (s - 1) (f.digit (n % f.base))
  if n / f.base = 0 then m else write f m (s - 1) (n / f.base)
termination_by n
decreasing_by
  rename_i h
  have hpos : 0 < n := by
    apply Nat.pos_of_ne_zero
    intro hn
    rw [hn, Nat.zero_div] at h
    exact h rfl
  exact Nat.div_lt_self hpos f.one_lt

/-- The variants without a width. A missing `s` is NULL. -/
def plain_ (f : Format) (s : Option ℤ) (m : Mem) (n : ℕ) : ℕ × Mem :=
  let len := count f n 1
  (len, s.elim m fun s => write f m (s + len) n)

def plain (f : Format) (s : ℤ) (m : Mem) (n : ℕ) : ℤ × Mem :=
  let out := plain_ f (some s) m n
  (s, store out.2 (s + out.1) 0)

/-- `while(len < w){ if(s){ *s = ' '; ++s; } ++len; }` -/
def fill (c : UInt8) (w len : ℕ) (s : Option ℤ) (m : Mem) : ℕ × Option ℤ × Mem :=
  if len < w then fill c w (len + 1) (s.map (· + 1)) (s.elim m fun s => store m s c)
  else (len, s, m)
termination_by w - len

def pad_ (f : Format) (c : UInt8) (s : Option ℤ) (m : Mem) (n w : ℕ) : ℕ × Mem :=
  let out := fill c w (plain_ f none m n).1 s m
  (out.1, out.2.1.elim out.2.2 fun s => (plain_ f (some s) out.2.2 n).2)

def pad (f : Format) (c : UInt8) (s : ℤ) (m : Mem) (n w : ℕ) : ℤ × Mem :=
  let out := fill c w (plain_ f none m n).1 (some s) m
  (s, out.2.1.elim out.2.2 fun s => (plain f s out.2.2 n).2)

def nfmtUint32_ (s : Option ℤ) (m : Mem) (n : UInt32) := plain_ decimal s m n.toNat
def nfmtUint32 (s : ℤ) (m : Mem) (n : UInt32) := plain decimal s m n.toNat
def nfmtUint32Pad_ (s : Option ℤ) (m : Mem) (n : UInt32) (w : ℕ) := pad_ decimal 32 s m n.toNat w
def nfmtUint32Pad (s : ℤ) (m : Mem) (n : UInt32) (w : ℕ) := pad decimal 32 s m n.toNat w
def nfmtUint32Pad0_ (s : Option ℤ) (m : Mem) (n : UInt32) (w : ℕ) := pad_ decimal 48 s m n.toNat w
def nfmtUint32Pad0 (s : ℤ) (m : Mem) (n : UInt32) (w : ℕ) := pad decimal 48 s m n.toNat w
def nfmtUint32o_ (s : Option ℤ) (m : Mem) (n : UInt32) := plain_ octal s m n.toNat
def nfmtUint32o (s : ℤ) (m : Mem) (n : UInt32) := plain octal s m n.toNat
def nfmtUint32oPad0_ (s : Option ℤ) (m : Mem) (n : UInt32) (w : ℕ) := pad_ octal 48 s m n.toNat w
def nfmtUint32oPad0 (s : ℤ) (m : Mem) (n : UInt32) (w : ℕ) := pad octal 48 s m n.toNat w
def nfmtUint32x_ (s : Option ℤ) (m : Mem) (n : UInt32) := plain_ hexadecimal s m n.toNat
def nfmtUint32x (s : ℤ) (m : Mem) (n : UInt32) := plain hexadecimal s m n.toNat
def nfmtUint32xPad_ (s : Option ℤ) (m : Mem) (n : UInt32) (w : ℕ) := pad_ hexadecimal 32 s m n.toNat w
def nfmtUint32xPad (s : ℤ) (m : Mem) (n : UInt32) (w : ℕ) := pad hexadecimal 32 s m n.toNat w
def nfmtUint32xPad0_ (s : Option ℤ) (m : Mem) (n : UInt32) (w : ℕ) := pad_ hexadecimal 48 s m n.toNat w
def nfmtUint32xPad0 (s : ℤ) (m : Mem) (n : UInt32) (w : ℕ) := pad hexadecimal 48 s m n.toNat w
def nfmtUint64_ (s : Option ℤ) (m : Mem) (n : UInt64) := plain_ decimal s m n.toNat
def nfmtUint64 (s : ℤ) (m : Mem) (n : UInt64) := plain decimal s m n.toNat
def nfmtUint64Pad_ (s : Option ℤ) (m : Mem) (n : UInt64) (w : ℕ) := pad_ decimal 32 s m n.toNat w
def nfmtUint64Pad (s : ℤ) (m : Mem) (n : UInt64) (w : ℕ) := pad decimal 32 s m n.toNat w
def nfmtUint64Pad0_ (s : Option ℤ) (m : Mem) (n : UInt64) (w : ℕ) := pad_ decimal 48 s m n.toNat w
def nfmtUint64Pad0 (s : ℤ) (m : Mem) (n : UInt64) (w : ℕ) := pad decimal 48 s m n.toNat w

/-! ## What they are for -/

/-- The canonical digits of `n` -/
def digits (base n : ℕ) : List UInt8 := (Nat.toDigits base n).map byte

/-- A function and its terminating variant give the digits, padded to the width `w`. -/
structure Right (counts : Option ℤ → Mem → ℕ × Mem) (ends : ℤ → Mem → ℤ × Mem) (c : UInt8) (w : ℕ)
    (ds : List UInt8) : Prop where
  counted : ∀ m, counts none m = (max w ds.length, m)
  stored : ∀ s m, counts (some s) m = (max w ds.length, overlay m s (ds.leftpad w c))
  ended : ∀ s m, ends s m = (s, overlay m s (ds.leftpad w c ++ [0]))

/-- Some leading part of the number is past the base and yet not past the cap. -/
def Short (f : Format) (n : ℕ) : Prop := ∃ k, f.base ≤ n / f.base ^ k ∧ n / f.base ^ k ≤ f.cap

/-! ## Stores -/

section
variable {m : Mem} {s a : ℤ} {c : UInt8} {xs ys : List UInt8}

@[simp] theorem overlay_nil (m : Mem) (s : ℤ) : overlay m s [] = m := by
  funext a
  simp [overlay]

theorem overlay_append (m : Mem) (s : ℤ) (xs ys : List UInt8) :
    overlay (overlay m s xs) (s + xs.length) ys = overlay m s (xs ++ ys) := by
  funext a
  simp only [overlay]
  by_cases hs : s ≤ a
  · by_cases hx : s + xs.length ≤ a
    · have hle : xs.length ≤ (a - s).toNat := by omega
      have hsub : (a - (s + xs.length)).toNat = (a - s).toNat - xs.length := by omega
      rw [if_pos hx, if_pos hs, if_pos hs, List.getElem?_append_right hle,
        List.getElem?_eq_none hle, hsub, Option.getD_none]
    · have hlt : (a - s).toNat < xs.length := by omega
      rw [if_neg hx, if_pos hs, if_pos hs, List.getElem?_append_left hlt]
  · have hx : ¬ s + xs.length ≤ a := by omega
    rw [if_neg hs, if_neg hx, if_neg hs]

theorem overlay_single (m : Mem) (s : ℤ) (c : UInt8) : overlay m s [c] = store m s c := by
  funext a
  simp only [overlay, store]
  by_cases ha : a = s
  · subst ha
    simp
  · rw [if_neg ha]
    by_cases hs : s ≤ a
    · have hle : [c].length ≤ (a - s).toNat := by
        rw [List.length_singleton]
        omega
      rw [if_pos hs, List.getElem?_eq_none hle, Option.getD_none]
    · rw [if_neg hs]

theorem store_overlay (m : Mem) (s : ℤ) (xs : List UInt8) (c : UInt8) :
    store (overlay m s xs) (s + xs.length) c = overlay m s (xs ++ [c]) := by
  rw [← overlay_append, overlay_single]

theorem overlay_cons (m : Mem) (s : ℤ) (c : UInt8) (xs : List UInt8) :
    overlay (store m s c) (s + 1) xs = overlay m s (c :: xs) := by
  rw [← overlay_single]
  exact overlay_append m s [c] xs

theorem overlay_store (m : Mem) (s : ℤ) (xs : List UInt8) (c : UInt8) :
    overlay (store m (s + xs.length) c) s xs = overlay m s (xs ++ [c]) := by
  rw [← store_overlay]
  funext a
  simp only [overlay, store]
  by_cases ha : a = s + xs.length
  · have hle : xs.length ≤ (a - s).toNat := by omega
    rw [if_pos ha, if_pos ha, if_pos (by omega), List.getElem?_eq_none hle, Option.getD_none]
  · rw [if_neg ha, if_neg ha]

end

/-! ## Digits -/

section
variable {f : Format} {m : Mem} {s : ℤ} {c : UInt8} {n w len : ℕ}

theorem digits_of_lt (h : n < f.base) : digits f.base n = [f.digit n] := by
  rw [digits, Nat.toDigits_of_lt_base h, f.digit_eq n h]
  rfl

theorem digits_of_le (h : f.base ≤ n) :
    digits f.base n = digits f.base (n / f.base) ++ [f.digit (n % f.base)] := by
  rw [digits, Nat.toDigits_of_base_le f.one_lt h, List.map_append,
    f.digit_eq _ (Nat.mod_lt n (Nat.lt_trans Nat.zero_lt_one f.one_lt))]
  rfl

theorem digits_pos (f : Format) (n : ℕ) : 0 < (digits f.base n).length := by
  rw [digits, List.length_map]
  exact Nat.length_toDigits_pos

theorem digits_length_of_le (h : f.base ≤ n) :
    (digits f.base n).length = (digits f.base (n / f.base)).length + 1 := by
  rw [digits_of_le h, List.length_append, List.length_singleton]

/-- The digits are stored in front of `s`. -/
theorem write_eq (f : Format) (m : Mem) (s : ℤ) (n : ℕ) :
    write f m s n = overlay m (s - (digits f.base n).length) (digits f.base n) := by
  induction n using Nat.strongRecOn generalizing m s with
  | ind n ih =>
    rw [write]
    by_cases hn : n < f.base
    · rw [if_pos (Nat.div_eq_of_lt hn), Nat.mod_eq_of_lt hn, digits_of_lt hn, overlay_single]
      rfl
    · have hle : f.base ≤ n := Nat.le_of_not_lt hn
      have hone := f.one_lt
      have hdiv : n / f.base ≠ 0 := (Nat.div_pos hle (by omega)).ne'
      have hstart : s - ((digits f.base n).length : ℤ) =
          s - 1 - ((digits f.base (n / f.base)).length : ℤ) := by
        rw [digits_length_of_le hle]
        push_cast
        omega
      rw [if_neg hdiv, ih _ (Nat.div_lt_self (by omega) hone), hstart, digits_of_le hle,
        ← overlay_store, Int.sub_add_cancel]

/-! ## Lengths -/

theorem count_next (h : f.cap < n) : count f n len = count f (n / f.base) (len + 1) := by
  rw [count, if_pos h]

theorem count_last (h : ¬ f.cap < n) : count f n len = len := by
  rw [count, if_neg h]

theorem count_add (f : Format) (n len k : ℕ) : count f n (len + k) = count f n len + k := by
  induction n using Nat.strongRecOn generalizing len with
  | ind n ih =>
    by_cases h : f.cap < n
    · have hadd : len + k + 1 = len + 1 + k := by omega
      rw [count_next h, count_next h, hadd]
      exact ih _ (Nat.div_lt_self (by omega) f.one_lt) (len + 1)
    · rw [count_last h, count_last h]

theorem short_of_lt (h : f.cap < n) : Short f n ↔ Short f (n / f.base) := by
  constructor
  · rintro ⟨k, hk⟩
    cases k with
    | zero =>
      rw [Nat.pow_zero, Nat.div_one] at hk
      omega
    | succ k =>
      rw [Nat.pow_succ', ← Nat.div_div_eq_div_mul] at hk
      exact ⟨k, hk⟩
  · rintro ⟨k, hk⟩
    rw [Nat.div_div_eq_div_mul, ← Nat.pow_succ'] at hk
    exact ⟨k + 1, hk⟩

/-- The loop counts the digits, but for a number that is short. -/
theorem count_short (h : Short f n) : count f n 1 + 1 = (digits f.base n).length := by
  induction n using Nat.strongRecOn with
  | ind n ih =>
    have hle := f.base_le
    have hone := f.one_lt
    by_cases hcap : f.cap < n
    · have hrec := ih _ (Nat.div_lt_self (by omega) hone) ((short_of_lt hcap).mp h)
      rw [count_next hcap, count_add, digits_length_of_le (by omega)]
      omega
    · obtain ⟨k, hbase, -⟩ := h
      have hdiv : n / f.base ^ k ≤ n := Nat.div_le_self n _
      have hlt : n / f.base < f.base := by
        apply Nat.div_lt_of_lt_mul
        have hcap_lt := f.cap_lt
        omega
      rw [count_last hcap, digits_length_of_le (by omega), digits_of_lt hlt]
      rfl

theorem count_exact (h : ¬ Short f n) : count f n 1 = (digits f.base n).length := by
  induction n using Nat.strongRecOn with
  | ind n ih =>
    have hle := f.base_le
    have hone := f.one_lt
    by_cases hcap : f.cap < n
    · have hrec := ih _ (Nat.div_lt_self (by omega) hone) (fun hs => h ((short_of_lt hcap).mpr hs))
      rw [count_next hcap, count_add, digits_length_of_le (by omega), hrec]
    · have hlt : n < f.base := by
        by_contra hbase
        exact h ⟨0, by rw [Nat.pow_zero, Nat.div_one]; omega⟩
      rw [count_last hcap, digits_of_lt hlt]
      rfl

theorem not_short (h : f.cap < f.base) (n : ℕ) : ¬ Short f n := by
  rintro ⟨k, hk⟩
  omega

/-! ## Padding -/

theorem fill_none (c : UInt8) (w len : ℕ) (m : Mem) : fill c w len none m = (max w len, none, m) := by
  induction hk : w - len generalizing len with
  | zero =>
    rw [fill, if_neg (by omega), Nat.max_eq_right (by omega)]
  | succ k ih =>
    have hmax : max w (len + 1) = max w len := by omega
    rw [fill, if_pos (by omega), ← hmax]
    exact ih (len + 1) (by omega)

theorem fill_some (c : UInt8) (w len : ℕ) (s : ℤ) (m : Mem) : fill c w len (some s) m =
    (max w len, some (s + (w - len : ℕ)), overlay m s (List.replicate (w - len) c)) := by
  induction hk : w - len generalizing len s m with
  | zero =>
    rw [fill, if_neg (by omega), Nat.max_eq_right (by omega), List.replicate_zero, overlay_nil]
    simp
  | succ k ih =>
    have hmax : max w (len + 1) = max w len := by omega
    have hs : s + 1 + (k : ℤ) = s + ((k + 1 : ℕ) : ℤ) := by
      push_cast
      omega
    rw [fill, if_pos (by omega), ← hmax, List.replicate_succ, ← overlay_cons, ← hs]
    exact ih (len + 1) (s + 1) (store m s c) (by omega)

theorem overlay_store_same (m : Mem) (s : ℤ) (c d : UInt8) (xs : List UInt8) :
    overlay (store m s c) s (d :: xs) = overlay m s (d :: xs) := by
  rw [← overlay_cons, ← overlay_cons]
  congr 1
  funext a
  simp only [store]
  split_ifs <;> rfl

theorem plain_none (f : Format) (m : Mem) (n : ℕ) : plain_ f none m n = (count f n 1, m) := rfl

theorem plain_some (f : Format) (s : ℤ) (m : Mem) (n : ℕ) : plain_ f (some s) m n =
    (count f n 1, overlay m (s + count f n 1 - (digits f.base n).length) (digits f.base n)) := by
  rw [plain_, ← write_eq]
  rfl

/-- The first digit takes the place of the last pad where the count is one short. -/
theorem padded_eq (c : UInt8) (h : ¬ (Short f n ∧ w < (digits f.base n).length)) (s : ℤ) (m : Mem) :
    overlay (overlay m s (List.replicate (w - count f n 1) c))
        (s + (w - count f n 1 : ℕ) + count f n 1 - (digits f.base n).length) (digits f.base n) =
      overlay m s ((digits f.base n).leftpad w c) := by
  by_cases hs : Short f n
  · have hcount := count_short hs
    have hle : (digits f.base n).length ≤ w := Nat.le_of_not_lt fun hlt => h ⟨hs, hlt⟩
    have hpads : w - count f n 1 = w - (digits f.base n).length + 1 := by omega
    have hplace : s + (w - count f n 1 : ℕ) + count f n 1 - (digits f.base n).length =
        s + (List.replicate (w - (digits f.base n).length) c).length := by
      rw [List.length_replicate]
      omega
    rw [hplace, hpads, List.replicate_succ', ← store_overlay, List.leftpad, ← overlay_append]
    obtain ⟨d, ds, hds⟩ := List.exists_cons_of_length_pos (digits_pos f n)
    rw [hds]
    exact overlay_store_same _ _ c d ds
  · have hplace : s + (w - count f n 1 : ℕ) + count f n 1 - (digits f.base n).length =
        s + (List.replicate (w - (digits f.base n).length) c).length := by
      rw [count_exact hs, List.length_replicate, Int.add_sub_cancel]
    rw [hplace, count_exact hs, List.leftpad, ← overlay_append]

theorem max_count (h : ¬ (Short f n ∧ w < (digits f.base n).length)) :
    max w (count f n 1) = max w (digits f.base n).length := by
  by_cases hs : Short f n
  · have hcount := count_short hs
    have hle : (digits f.base n).length ≤ w := Nat.le_of_not_lt fun hlt => h ⟨hs, hlt⟩
    omega
  · rw [count_exact hs]

/-- The padded variants are right unless the number is short and the width does not help. -/
theorem pad_right (f : Format) (c : UInt8) (n w : ℕ) :
    Right (fun s m => pad_ f c s m n w) (fun s m => pad f c s m n w) c w (digits f.base n) ↔
      ¬ (Short f n ∧ w < (digits f.base n).length) := by
  constructor
  · rintro hright ⟨hs, hlt⟩
    have hcounted := congrArg Prod.fst (hright.counted fun _ => 0)
    have hcount := count_short hs
    simp only [pad_, plain_none, Option.elim_none, fill_none] at hcounted
    omega
  · intro h
    have hmax := max_count h
    constructor
    · intro m
      simp only [pad_, plain_none, Option.elim_none, fill_none, hmax]
    · intro s m
      simp only [pad_, plain_none, fill_some, Option.elim_some, plain_some, padded_eq c h, hmax]
    · intro s m
      have hend : s + (w - count f n 1 : ℕ) + count f n 1 =
          s + ((digits f.base n).leftpad w c).length := by
        rw [List.length_leftpad, ← hmax]
        omega
      simp only [pad, plain_none, fill_some, Option.elim_some, plain, plain_some, padded_eq c h]
      rw [hend, store_overlay]

theorem fill_zero (c : UInt8) (len : ℕ) (s : Option ℤ) (m : Mem) : fill c 0 len s m = (len, s, m) := by
  rw [fill, if_neg (Nat.not_lt_zero len)]

theorem plain_right (f : Format) (n : ℕ) :
    Right (fun s m => plain_ f s m n) (fun s m => plain f s m n) 32 0 (digits f.base n) ↔
      ¬ Short f n := by
  have hcounts : (fun s m => plain_ f s m n) = fun s m => pad_ f 32 s m n 0 := by
    funext s m
    cases s with
    | none => simp only [pad_, plain_none, fill_zero, Option.elim_none]
    | some s => simp only [pad_, plain_none, plain_some, fill_zero, Option.elim_some]
  have hends : (fun s m => plain f s m n) = fun s m => pad f 32 s m n 0 := by
    funext s m
    simp only [pad, fill_zero, Option.elim_some, plain]
  rw [hcounts, hends, pad_right, and_iff_left (digits_pos f n)]

/-! ## Read back -/

theorem digits_decimal (hbase : f.base ≤ 10) (hdigit : ∀ d < f.base, f.digit d = UInt8.ofNat (48 + d))
    (n : ℕ) : (∀ c ∈ digits f.base n, Nuscan.isDigit f.base c = true) ∧
      Nuscan.value f.base 0 (digits f.base n) = n := by
  have hbyte : ∀ d < f.base, (f.digit d).toNat = 48 + d := by
    intro d hd
    rw [hdigit d hd, UInt8.toNat_ofNat', Nat.mod_eq_of_lt (by omega)]
  have hone : ∀ d < f.base, Nuscan.isDigit f.base (f.digit d) = true := by
    intro d hd
    rw [Nuscan.isDigit, hbyte d hd]
    simp [hd]
  induction n using Nat.strongRecOn with
  | ind n ih =>
    by_cases hn : n < f.base
    · rw [digits_of_lt hn]
      simp [hone n hn, Nuscan.value, hbyte n hn]
    · have hbase1 := f.one_lt
      have hmod : n % f.base < f.base := Nat.mod_lt n (by omega)
      obtain ⟨hall, hvalue⟩ := ih _ (Nat.div_lt_self (by omega) hbase1)
      rw [digits_of_le (Nat.le_of_not_lt hn)]
      constructor
      · intro c hc
        rcases List.mem_append.mp hc with hc | hc
        · exact hall c hc
        · rw [List.mem_singleton.mp hc]
          exact hone _ hmod
      · rw [Nuscan.value_append, hvalue]
        change n / f.base * f.base + ((f.digit (n % f.base)).toNat - 48) = n
        rw [hbyte _ hmod, Nat.add_sub_cancel_left, Nat.mul_comm]
        exact Nat.div_add_mod n f.base

theorem value_zeros (base k : ℕ) : Nuscan.value base 0 (List.replicate k 48) = 0 := by
  induction k with
  | zero => rfl
  | succ k ih =>
    rw [List.replicate_succ]
    change Nuscan.value base (0 * base + 0) (List.replicate k 48) = 0
    rw [Nat.zero_mul, ih]

theorem scan_digits {base : UInt32} (hf : f.base = base.toNat) (hbase : f.base ≤ 10)
    (hdigit : ∀ d < f.base, f.digit d = UInt8.ofNat (48 + d)) (n : UInt32) (w : ℕ) :
    Nuscan.scan base 0 ((digits f.base n.toNat).leftpad w 48) = (n, []) := by
  obtain ⟨hall, hvalue⟩ := digits_decimal hbase hdigit n.toNat
  have hone := f.one_lt
  rw [hf] at hall hvalue hbase hone ⊢
  have hpadded : ∀ c ∈ (digits base.toNat n.toNat).leftpad w 48,
      Nuscan.isDigit base.toNat c = true := by
    intro c hc
    rcases List.mem_append.mp hc with hc | hc
    · rw [List.eq_of_mem_replicate hc, Nuscan.isDigit]
      simpa using Nat.lt_trans Nat.zero_lt_one hone
    · exact hall c hc
  have hsame : Nuscan.value base.toNat 0 ((digits base.toNat n.toNat).leftpad w 48) = n.toNat := by
    rw [List.leftpad, Nuscan.value_append, value_zeros, hvalue]
  have hfits := n.toNat_lt
  rw [← hsame] at hfits
  have hnoticed : Nuscan.Noticed base.toNat ((digits base.toNat n.toNat).leftpad w 48) := by
    rw [Nuscan.Noticed, Nuscan.numeral_of_all hpadded]
    exact .inl hfits
  have hexact := (Nuscan.scan_exact hbase (by omega) _).mpr hnoticed
  have hnil := hexact.at_nul.mpr ⟨List.all_eq_true.mpr hpadded, hfits⟩
  apply Prod.ext
  · apply UInt32.toNat_inj.mp
    rw [hexact.result hnil, hsame]
  · exact hnil

end

/-! ## The stamps -/

theorem nfmtDigits_eq {k n : ℕ} (h : n < 10 ^ k) (hk : 0 < k) :
    Stamp8601.nfmtDigits k n = digits 10 n := by
  induction k generalizing n with
  | zero => exact absurd hk (Nat.lt_irrefl 0)
  | succ k ih =>
    have hdigit : UInt8.ofNat (48 + n % 10) = decimal.digit (n % 10) := rfl
    rw [Stamp8601.nfmtDigits, hdigit]
    by_cases hn : n < 10
    · rw [if_pos (Nat.div_eq_of_lt hn), Nat.mod_eq_of_lt hn]
      exact (digits_of_lt (f := decimal) hn).symm
    · have hle : 10 ≤ n := Nat.le_of_not_lt hn
      have hkpos : 0 < k := by
        by_contra hzero
        obtain rfl : k = 0 := by omega
        exact hn h
      have hdiv : n / 10 < 10 ^ k := Nat.div_lt_of_lt_mul (by rw [← Nat.pow_succ']; exact h)
      rw [if_neg (by omega), ih hdiv hkpos]
      exact (digits_of_le (f := decimal) hle).symm

/-- The fields of a stamp are what `nfmt_uint32_pad0_()` stores. -/
theorem stamp_field (n : UInt32) (w : ℕ) (s : ℤ) (m : Mem) :
    (nfmtUint32Pad0_ (some s) m n w).2 = overlay m s (Stamp8601.nfmtUint32Pad0 n w) := by
  have hlt : n.toNat < 10 ^ 10 := Nat.lt_trans n.toNat_lt (by decide)
  have hright := (pad_right decimal 48 n.toNat w).mpr fun h => not_short (by decide) n.toNat h.1
  rw [Stamp8601.nfmtUint32Pad0, Stamp8601.nfmtUint32, nfmtDigits_eq hlt (by decide)]
  exact congrArg Prod.snd (hright.stored s m)

/-! ## All functions -/

/-- The decimal and octal functions are right, and the hexadecimal ones exactly for numbers
whose digits do not begin with `10`, or where the width covers the digits. -/
theorem nfmt_right (n : UInt32) (l : UInt64) (w : ℕ) :
    (Right (nfmtUint32_ · · n) (nfmtUint32 · · n) 32 0 (digits 10 n.toNat) ∧
      Right (nfmtUint32Pad_ · · n w) (nfmtUint32Pad · · n w) 32 w (digits 10 n.toNat) ∧
      Right (nfmtUint32Pad0_ · · n w) (nfmtUint32Pad0 · · n w) 48 w (digits 10 n.toNat)) ∧
    (Right (nfmtUint64_ · · l) (nfmtUint64 · · l) 32 0 (digits 10 l.toNat) ∧
      Right (nfmtUint64Pad_ · · l w) (nfmtUint64Pad · · l w) 32 w (digits 10 l.toNat) ∧
      Right (nfmtUint64Pad0_ · · l w) (nfmtUint64Pad0 · · l w) 48 w (digits 10 l.toNat)) ∧
    (Right (nfmtUint32o_ · · n) (nfmtUint32o · · n) 32 0 (digits 8 n.toNat) ∧
      Right (nfmtUint32oPad0_ · · n w) (nfmtUint32oPad0 · · n w) 48 w (digits 8 n.toNat)) ∧
    (Nuscan.nuscanUint32 ((digits 10 n.toNat).leftpad w 48) = (n, []) ∧
      Nuscan.nuscanUint32o ((digits 8 n.toNat).leftpad w 48) = (n, [])) ∧
    ((Right (nfmtUint32x_ · · n) (nfmtUint32x · · n) 32 0 (digits 16 n.toNat) ↔
        ¬ ∃ k, n.toNat / 16 ^ k = 16) ∧
      (Right (nfmtUint32xPad_ · · n w) (nfmtUint32xPad · · n w) 32 w (digits 16 n.toNat) ↔
        ¬ ((∃ k, n.toNat / 16 ^ k = 16) ∧ w < (digits 16 n.toNat).length)) ∧
      (Right (nfmtUint32xPad0_ · · n w) (nfmtUint32xPad0 · · n w) 48 w (digits 16 n.toNat) ↔
        ¬ ((∃ k, n.toNat / 16 ^ k = 16) ∧ w < (digits 16 n.toNat).length))) := by
  have hdec := not_short (f := decimal) (by decide)
  have hoct := not_short (f := octal) (by decide)
  have hhex : Short hexadecimal n.toNat ↔ ∃ k, n.toNat / 16 ^ k = 16 :=
    exists_congr fun k => and_comm.trans (antisymm_iff (r := (· ≤ ·)))
  rw [← hhex]
  refine ⟨⟨?_, ?_, ?_⟩, ⟨?_, ?_, ?_⟩, ⟨?_, ?_⟩, ⟨?_, ?_⟩, ?_, ?_, ?_⟩
  · exact (plain_right decimal n.toNat).mpr (hdec n.toNat)
  · exact (pad_right decimal 32 n.toNat w).mpr fun h => hdec n.toNat h.1
  · exact (pad_right decimal 48 n.toNat w).mpr fun h => hdec n.toNat h.1
  · exact (plain_right decimal l.toNat).mpr (hdec l.toNat)
  · exact (pad_right decimal 32 l.toNat w).mpr fun h => hdec l.toNat h.1
  · exact (pad_right decimal 48 l.toNat w).mpr fun h => hdec l.toNat h.1
  · exact (plain_right octal n.toNat).mpr (hoct n.toNat)
  · exact (pad_right octal 48 n.toNat w).mpr fun h => hoct n.toNat h.1
  · exact @scan_digits decimal 10 rfl (by decide) (fun _ _ => rfl) n w
  · exact @scan_digits octal 8 rfl (by decide) (fun _ _ => rfl) n w
  · exact plain_right hexadecimal n.toNat
  · exact pad_right hexadecimal 32 n.toNat w
  · exact pad_right hexadecimal 48 n.toNat w

/-- 16 is counted for one digit. -/
theorem nfmtUint32x_counts_16 : ¬ ∀ (n : UInt32) (m : Mem),
    (nfmtUint32x_ none m n).1 = (digits 16 n.toNat).length := by
  intro h
  have hlen := h 16 fun _ => 0
  simp only [nfmtUint32x_, plain_none] at hlen
  rw [count_last (by decide)] at hlen
  exact absurd hlen (by decide)

end Perp.Nfmt
