import Mathlib.Algebra.Order.Ring.Nat
import Mathlib.Data.UInt
import Mathlib.Tactic.Common

set_option autoImplicit false

/-!
# Names of errors and signals

`sysno_lookup()`: a binary search with unsigned indices.
-/
namespace Perp.SysnoLookup

structure SysnoDef where
  n : ℤ
  name : Option String
  mesg : Option String
  deriving DecidableEq, Repr

/-- The loop; none is a read outside the table. -/
def lookupLoop (defs : List SysnoDef) (key : ℤ) : ℕ → UInt64 → UInt64 → Option (Option SysnoDef)
  | 0, _, _ => none
  | fuel + 1, low, high =>
    if low ≤ high then
      let mid := (low + high) >>> 1
      defs[mid.toNat]?.bind fun d =>
        if key < d.n then lookupLoop defs key fuel low (mid - 1)
        else if key ≠ d.n then lookupLoop defs key fuel (mid + 1) high
        else some (some d)
    else some none

/-- `high = items - 1` puts the -1 of an empty table into a `size_t`. -/
def sysnoLookup (fuel : ℕ) (defs : List SysnoDef) (items : ℕ) (n : ℤ) : Option (Option SysnoDef) :=
  lookupLoop defs n fuel 0 (UInt64.ofNat items - 1)

/-- `sysstr_errno()`, and with its own table `sysstr_signal()` -/
def sysstrName (fuel : ℕ) (defs : List SysnoDef) (n : ℤ) : Option (Option String) :=
  (sysnoLookup fuel defs defs.length n).map fun d => d.bind (·.name)

/-- `sysstr_errno_mesg()`, and with its own table `sysstr_signal_mesg()` -/
def sysstrMesg (fuel : ℕ) (defs : List SysnoDef) (n : ℤ) : Option (Option String) :=
  (sysnoLookup fuel defs defs.length n).map fun d => d.bind (·.mesg)

/-- A table of so many entries as an `int` can count, strictly ascending -/
structure Table where
  defs : List SysnoDef
  ascending : defs.Pairwise fun d e => d.n < e.n
  small : defs.length < 2 ^ 31

/-- The entry of a key if there is one -/
def Answers (defs : List SysnoDef) (key : ℤ) (r : Option SysnoDef) : Prop :=
  r = none ∧ (∀ d ∈ defs, d.n ≠ key) ∨ ∃ d ∈ defs, d.n = key ∧ r = some d

/-- The search ends, within the table, with the entry of the key if there is one. -/
def Finds (t : Table) (key : ℤ) : Prop :=
  ∃ fuel r, sysnoLookup fuel t.defs t.defs.length key = some r ∧ Answers t.defs key r

/-- The entries below `low` are smaller than the key, and those above `high` are greater. -/
structure Between (defs : List SysnoDef) (key : ℤ) (low high : ℕ) : Prop where
  high_lt : high < defs.length
  below : ∀ i d, i < low → defs[i]? = some d → d.n < key
  above : ∀ i d, high < i → defs[i]? = some d → key < d.n

section
variable {defs : List SysnoDef} {key : ℤ} {low high : UInt64} {d : SysnoDef} {fuel i j : ℕ}

theorem mid_toNat (low high : UInt64) (hlow : low.toNat < 2 ^ 31) (hhigh : high.toNat < 2 ^ 31) :
    ((low + high) >>> 1).toNat = (low.toNat + high.toNat) / 2 := by
  have hsum : (low + high).toNat = low.toNat + high.toNat := by
    rw [UInt64.toNat_add]
    omega
  rw [UInt64.toNat_shiftRight, hsum, Nat.shiftRight_eq_div_pow]
  rfl

theorem sub_one_toNat {mid : UInt64} (h : mid.toNat ≠ 0) : (mid - 1).toNat = mid.toNat - 1 := by
  have hle : (1 : UInt64) ≤ mid := UInt64.le_iff_toNat_le.mpr (Nat.pos_of_ne_zero h)
  rw [UInt64.toNat_sub_of_le _ _ hle]
  rfl

theorem ascending_of_lt (hasc : defs.Pairwise fun d e => d.n < e.n) {e : SysnoDef} (hlt : i < j)
    (hi : defs[i]? = some d) (hj : defs[j]? = some e) : d.n < e.n := by
  rw [List.getElem?_eq_some_iff] at hi hj
  obtain ⟨hi, rfl⟩ := hi
  obtain ⟨hj, rfl⟩ := hj
  exact List.pairwise_iff_getElem.mp hasc i j hi hj hlt

/-- With the first entry not above the key, `high` does not go below 0. -/
theorem lookupLoop_finds (hasc : defs.Pairwise fun d e => d.n < e.n) (hsmall : defs.length < 2 ^ 31)
    (hfirst : ∀ d, defs[0]? = some d → d.n ≤ key) (hlow : low.toNat ≤ defs.length)
    (h : Between defs key low.toNat high.toNat) (hfuel : high.toNat + 1 - low.toNat < fuel) :
    ∃ r, lookupLoop defs key fuel low high = some r ∧ Answers defs key r := by
  induction fuel generalizing low high with
  | zero => cases hfuel
  | succ fuel ih =>
    have hhigh := h.high_lt
    by_cases hle : low ≤ high
    · have hle' : low.toNat ≤ high.toNat := UInt64.le_iff_toNat_le.mp hle
      have hmid := mid_toNat low high (by omega) (by omega)
      generalize hm : (low + high) >>> 1 = mid at hmid
      have hlt : mid.toNat < defs.length := by omega
      have hget := List.getElem?_eq_getElem hlt
      generalize hd : defs[mid.toNat] = d at hget
      have hmem : d ∈ defs := List.mem_of_getElem? hget
      rw [lookupLoop, if_pos hle]
      simp only [hm, hget, Option.bind_some]
      by_cases hless : key < d.n
      · have hpos : mid.toNat ≠ 0 := by
          intro hzero
          rw [hzero] at hget
          have := hfirst d hget
          omega
        have hpred := sub_one_toNat hpos
        rw [if_pos hless]
        apply ih hlow
        · rw [hpred]
          refine ⟨by omega, h.below, ?_⟩
          intro i e hi he
          rcases Nat.lt_or_ge mid.toNat i with hgt | hge
          · exact Int.lt_trans hless (ascending_of_lt hasc hgt hget he)
          · obtain rfl : i = mid.toNat := by omega
            rw [hget, Option.some.injEq] at he
            exact he ▸ hless
        · omega
      · rw [if_neg hless]
        by_cases hne : key ≠ d.n
        · have hsucc : (mid + 1).toNat = mid.toNat + 1 := by
            have hone : (1 : UInt64).toNat = 1 := rfl
            rw [UInt64.toNat_add, hone]
            exact Nat.mod_eq_of_lt (by omega)
          rw [if_pos hne]
          apply ih
          · omega
          · rw [hsucc]
            refine ⟨h.high_lt, ?_, h.above⟩
            intro i e hi he
            rcases Nat.lt_or_ge i mid.toNat with hlt | hge
            · have := ascending_of_lt hasc hlt he hget
              omega
            · obtain rfl : i = mid.toNat := by omega
              rw [hget, Option.some.injEq] at he
              rw [← he]
              omega
          · omega
        · rw [if_neg hne]
          exact ⟨some d, rfl, .inr ⟨d, hmem, (not_not.mp hne).symm, rfl⟩⟩
    · rw [lookupLoop, if_neg hle]
      refine ⟨none, rfl, .inl ⟨rfl, ?_⟩⟩
      intro d hd
      obtain ⟨i, hi⟩ := List.mem_iff_getElem?.mp hd
      rw [UInt64.le_iff_toNat_le] at hle
      rcases Nat.lt_or_ge i low.toNat with hlt | hge
      · exact ne_of_lt (h.below i d hlt hi)
      · exact ne_of_gt (h.above i d (by omega) hi)

/-- The greatest index is not in the table, nor is the half of it. -/
theorem lookupLoop_passed (hsmall : defs.length < 2 ^ 31) (key : ℤ) (fuel : ℕ) :
    lookupLoop defs key fuel 0 (0 - 1) = none := by
  cases fuel with
  | zero => rfl
  | succ fuel =>
    have hle : (0 : UInt64) ≤ 0 - 1 := by decide
    have hmid : (((0 : UInt64) + (0 - 1)) >>> 1).toNat = 9223372036854775807 := by decide
    have hout : defs[(((0 : UInt64) + (0 - 1)) >>> 1).toNat]? = none := by
      rw [hmid, List.getElem?_eq_none_iff]
      omega
    rw [lookupLoop, if_pos hle]
    simp only [hout, Option.bind_none]

/-- Below the first entry `high` comes to 0 and passes it. -/
theorem lookupLoop_below (hsmall : defs.length < 2 ^ 31) (hbelow : ∀ d ∈ defs, key < d.n)
    (hhigh : high.toNat < defs.length) (fuel : ℕ) : lookupLoop defs key fuel 0 high = none := by
  induction fuel generalizing high with
  | zero => rfl
  | succ fuel ih =>
    have hle : (0 : UInt64) ≤ high := UInt64.le_iff_toNat_le.mpr (Nat.zero_le _)
    have hzero : (0 : UInt64).toNat = 0 := rfl
    have hmid := mid_toNat 0 high (by omega) (by omega)
    generalize hm : (0 + high) >>> 1 = mid at hmid
    have hlt : mid.toNat < defs.length := by omega
    have hless : key < defs[mid.toNat].n := hbelow _ (List.getElem_mem hlt)
    rw [lookupLoop, if_pos hle]
    simp only [hm, List.getElem?_eq_getElem hlt, Option.bind_some, if_pos hless]
    by_cases hpos : mid.toNat = 0
    · obtain rfl : mid = 0 := UInt64.toNat_inj.mp hpos
      exact lookupLoop_passed hsmall key fuel
    · apply ih
      rw [sub_one_toNat hpos]
      omega

end

/-- A key is found, or found to be missing, from the first entry on. -/
theorem sysno_lookup_iff (t : Table) (key : ℤ) : Finds t key ↔ ∃ d ∈ t.defs.head?, d.n ≤ key := by
  have hsmall := t.small
  by_cases hlen : t.defs.length = 0
  · have hnil : t.defs = [] := List.eq_nil_of_length_eq_zero hlen
    have hout := lookupLoop_passed hsmall key
    apply iff_of_false
    · rintro ⟨fuel, r, hr, _⟩
      rw [sysnoLookup, hlen] at hr
      exact Option.some_ne_none r (hr.symm.trans (hout fuel))
    · rw [hnil]
      rintro ⟨d, hd, _⟩
      cases hd
  · have hhigh : (UInt64.ofNat t.defs.length - 1).toNat = t.defs.length - 1 := by
      have hofNat : (UInt64.ofNat t.defs.length).toNat = t.defs.length :=
        Nat.mod_eq_of_lt (by omega)
      have hpos : (UInt64.ofNat t.defs.length).toNat ≠ 0 := by omega
      rw [sub_one_toNat hpos, hofNat]
    have hget := List.getElem?_eq_getElem (Nat.pos_of_ne_zero hlen)
    rw [List.head?_eq_getElem?, hget]
    constructor
    · rintro ⟨fuel, r, hr, _⟩
      use t.defs[0], rfl
      by_contra hgt
      have hbelow : ∀ d ∈ t.defs, key < d.n := by
        intro d hd
        obtain ⟨i, hi⟩ := List.mem_iff_getElem?.mp hd
        cases i with
        | zero =>
          rw [hget, Option.some.injEq] at hi
          rw [← hi]
          omega
        | succ i =>
          have hlt := ascending_of_lt t.ascending (Nat.succ_pos i) hget hi
          omega
      have hnone := lookupLoop_below hsmall hbelow (by rw [hhigh]; omega) fuel
      exact Option.some_ne_none r (hr.symm.trans hnone)
    · rintro ⟨d, hd, hle⟩
      have hbetween : Between t.defs key (0 : UInt64).toNat (UInt64.ofNat t.defs.length - 1).toNat := by
        rw [hhigh]
        refine ⟨by omega, fun i d hi => absurd hi (Nat.not_lt_zero i), ?_⟩
        intro i d hi hget
        rw [List.getElem?_eq_none (by omega)] at hget
        cases hget
      have hfirst : ∀ d, t.defs[0]? = some d → d.n ≤ key := by
        intro e he
        rw [← hget] at hd
        obtain rfl : d = e := Option.some.inj (hd.symm.trans he)
        exact hle
      use t.defs.length + 1
      exact lookupLoop_finds t.ascending hsmall hfirst (Nat.zero_le _) hbetween (by rw [hhigh]; omega)

/-- The signals from 1 on -/
def signals : List SysnoDef :=
  [⟨1, some "SIGHUP", some "hangup"⟩, ⟨2, some "SIGINT", some "terminal interrupt"⟩]

theorem sysno_lookup_misses_zero : ¬ Finds ⟨signals, by decide, by decide⟩ 0 := by
  rintro ⟨fuel, r, hr, _⟩
  have hsmall : signals.length < 2 ^ 31 := by decide
  have hhigh : (1 : UInt64).toNat < signals.length := by decide
  have hbelow : ∀ d ∈ signals, 0 < d.n := by decide
  exact Option.some_ne_none r (hr.symm.trans (lookupLoop_below hsmall hbelow hhigh fuel))

end Perp.SysnoLookup
