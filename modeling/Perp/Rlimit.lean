import Mathlib.Algebra.Order.Ring.Nat
import Mathlib.Data.UInt
import Perp.Nuscan

set_option autoImplicit false

/-!
# Resource limits

The names of the limits, `rlimit_lookup()`, and the limit that a number asks for.
-/
namespace Perp.Rlimit
open Nuscan (nuscanUint32 nuscan_end isDigit value Falls not_falls)

/-- The limits that runlimit and runtool name -/
inductive Resource where
  | as | vmem | core | data | fsize | memlock | nofile | nproc | rss | stack | cpu
  deriving DecidableEq, Repr

/-- What follows `RLIMIT_` -/
def Resource.suffix : Resource → List UInt8
  | as => [65, 83]
  | vmem => [86, 77, 69, 77]
  | core => [67, 79, 82, 69]
  | data => [68, 65, 84, 65]
  | fsize => [70, 83, 73, 90, 69]
  | memlock => [77, 69, 77, 76, 79, 67, 75]
  | nofile => [78, 79, 70, 73, 76, 69]
  | nproc => [78, 80, 82, 79, 67]
  | rss => [82, 83, 83]
  | stack => [83, 84, 65, 67, 75]
  | cpu => [67, 80, 85]

def Resource.name (r : Resource) : List UInt8 := [82, 76, 73, 77, 73, 84, 95] ++ r.suffix

/-- `struct rlimit_def`, without the description -/
structure RlimitDef where
  r : ℕ
  name : List UInt8
  deriving DecidableEq, Repr

/-- `rlimit_lookup()`, in the table that the build makes. A return of -1 is none. -/
def rlimitLookup (defs : List RlimitDef) (name : List UInt8) : Option ℕ :=
  (defs.find? (·.name = name)).map (·.r)

/-- `struct rlimit` -/
structure Limit where
  cur : UInt64
  max : UInt64
  deriving DecidableEq, Repr

/-- `u < rlim.rlim_max ? u : rlim.rlim_max` -/
def clamp (u : UInt32) (max : UInt64) : UInt64 := if u.toUInt64 < max then u.toUInt64 else max

/-- What the three readers of an argument make of it: begun by a mark it is the hard limit, and
else a number up to its end. A bad number is none. -/
def softLimit (marks arg : List UInt8) (max : UInt64) : Option UInt64 :=
  if ∃ c ∈ marks, arg.head? = some c then some max
  else if (nuscanUint32 arg).2 = [] then some (clamp (nuscanUint32 arg).1 max)
  else none

/-! ## What a value asks for -/

/-- The hard limit, or a number -/
inductive Value where
  | hard
  | number (n : ℕ)
  deriving DecidableEq, Repr

/-- The soft limit, which is not to be above the hard limit -/
def Value.soft (max : UInt64) : Value → UInt64
  | .hard => max
  | .number n => if n < max.toNat then UInt64.ofNat n else max

def Digits (v : List UInt8) : Prop := ∀ c ∈ v, isDigit 10 c = true

instance (v : List UInt8) : Decidable (Digits v) := List.decidableBAll _ v

/-- A mark alone, or the digits of a number -/
def valueOf (marks v : List UInt8) : Option Value :=
  if ∃ c ∈ marks, v = [c] then some .hard
  else if v ≠ [] ∧ Digits v then some (.number (value 10 0 v))
  else none

/-- A number that 32 bits can hold -/
def Value.Fits : Value → Prop
  | .hard => True
  | .number n => n < 2 ^ 32

instance (value : Value) : Decidable value.Fits := by
  cases value with
  | hard => exact isTrue trivial
  | number n => exact inferInstanceAs (Decidable (n < 2 ^ 32))

/-- A value that is neither begun by a mark nor scanned to its end -/
def Unscanned (marks v : List UInt8) : Prop :=
  (∀ c ∈ marks, v.head? ≠ some c) ∧ ((∃ c ∈ v, isDigit 10 c = false) ∨ Falls 10 0 v)

/-- What any other value is taken for -/
def scanned (marks v : List UInt8) : Value :=
  if ∃ c ∈ marks, v.head? = some c then .hard else .number (value 10 0 v % 2 ^ 32)

variable {marks v : List UInt8} {max : UInt64} {val : Value}

theorem Value.soft_number (n : ℕ) (max : UInt64) :
    ((Value.number n).soft max).toNat = min n max.toNat := by
  have hmax := max.toNat_lt
  rw [Value.soft]
  by_cases hn : n < max.toNat
  · rw [if_pos hn, UInt64.toNat_ofNat', Nat.mod_eq_of_lt (hn.trans hmax), Nat.min_eq_left hn.le]
  · rw [if_neg hn, Nat.min_eq_right (Nat.le_of_not_lt hn)]

theorem Value.soft_le (max : UInt64) (val : Value) : val.soft max ≤ max := by
  cases val with
  | hard => exact UInt64.le_refl max
  | number n =>
    rw [UInt64.le_iff_toNat_le, Value.soft_number]
    exact Nat.min_le_right n max.toNat

theorem clamp_eq (u : UInt32) (max : UInt64) : clamp u max = (Value.number u.toNat).soft max := by
  have hlt : u.toUInt64 < max ↔ u.toNat < max.toNat := by
    rw [UInt64.lt_iff_toNat_lt, UInt32.toNat_toUInt64]
  rw [clamp, Value.soft]
  by_cases hu : u.toNat < max.toNat
  · rw [if_pos (hlt.mpr hu), if_pos hu]
    apply UInt64.toNat_inj.mp
    rw [UInt32.toNat_toUInt64, UInt64.toNat_ofNat', Nat.mod_eq_of_lt (hu.trans max.toNat_lt)]
  · rw [if_neg fun h => hu (hlt.mp h), if_neg hu]

theorem softLimit_unscanned (h : Unscanned marks v) (max : UInt64) : softLimit marks v max = none := by
  obtain ⟨hmark, hbad⟩ := h
  have hnot : ¬ ∃ c ∈ marks, v.head? = some c := fun ⟨c, hc, hhead⟩ => hmark c hc hhead
  rw [softLimit, if_neg hnot, if_neg]
  rw [(nuscan_end v).1]
  rintro ⟨hall, hfalls⟩
  rcases hbad with ⟨c, hc, hdigit⟩ | hfall
  · rw [hall c hc] at hdigit
    cases hdigit
  · exact hfalls hfall

theorem softLimit_scanned (h : ¬ Unscanned marks v) (max : UInt64) :
    softLimit marks v max = some ((scanned marks v).soft max) := by
  rw [softLimit, scanned]
  by_cases hmark : ∃ c ∈ marks, v.head? = some c
  · rw [if_pos hmark, if_pos hmark]
    rfl
  · have hhead : ∀ c ∈ marks, v.head? ≠ some c := fun c hc hhead => hmark ⟨c, hc, hhead⟩
    have hend : (nuscanUint32 v).2 = [] := by
      rw [(nuscan_end v).1]
      constructor
      · intro c hc
        by_contra hdigit
        exact h ⟨hhead, .inl ⟨c, hc, Bool.eq_false_iff.mpr hdigit⟩⟩
      · exact fun hfall => h ⟨hhead, .inr hfall⟩
    rw [if_neg hmark, if_neg hmark, if_pos hend, clamp_eq, (nuscan_end v).2 hend]

theorem valueOf_nil (marks : List UInt8) : valueOf marks [] = none := by
  rw [valueOf, if_neg, if_neg]
  · exact fun h => h.1 rfl
  · rintro ⟨c, -, h⟩
    cases h

/-- A value that says something is scanned as what it says, up to 32 bits. -/
theorem scanned_of_valueOf (hmarks : ∀ c ∈ marks, isDigit 10 c = false)
    (h : valueOf marks v = some val) (hfits : val.Fits) :
    ¬ Unscanned marks v ∧ scanned marks v = val := by
  rw [valueOf] at h
  by_cases hmark : ∃ c ∈ marks, v = [c]
  · rw [if_pos hmark] at h
    obtain ⟨c, hc, rfl⟩ := hmark
    have hhead : ∃ d ∈ marks, [c].head? = some d := ⟨c, hc, rfl⟩
    constructor
    · exact fun hun => hun.1 c hc rfl
    · rw [scanned, if_pos hhead]
      exact Option.some.inj h
  · rw [if_neg hmark] at h
    by_cases hnumber : v ≠ [] ∧ Digits v
    · rw [if_pos hnumber] at h
      obtain rfl := Option.some.inj h
      obtain ⟨hne, hall⟩ := hnumber
      have hhead : ¬ ∃ c ∈ marks, v.head? = some c := by
        rintro ⟨c, hc, hhead⟩
        have hdigit := hall c (List.mem_of_mem_head? hhead)
        rw [hmarks c hc] at hdigit
        cases hdigit
      constructor
      · rintro ⟨-, ⟨c, hc, hdigit⟩ | hfall⟩
        · rw [hall c hc] at hdigit
          cases hdigit
        · exact not_falls (by decide) hfits hfall
      · rw [scanned, if_neg hhead, Nat.mod_eq_of_lt hfits]
    · rw [if_neg hnumber] at h
      cases h

end Perp.Rlimit
