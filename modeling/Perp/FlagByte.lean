import Mathlib.Data.BitVec
import Mathlib.Tactic.Common

set_option autoImplicit false

/-!
# Named single-bit flags packed in one byte

A flag type names some of the eight bits of an `unsigned char`. The tests and
updates are the C idioms `b & F`, `b |= F` and `b &= ~F`.
-/
namespace Perp.FlagByte

/-- Every flag is a mask with one bit, and different flags have different bits. -/
class Flag (F : Type) where
  mask : F → UInt8
  bit : F → ℕ
  bit_lt : ∀ f, bit f < 8
  mask_bit : ∀ f, (mask f).toBitVec = BitVec.twoPow 8 (bit f)
  bit_inj : ∀ f g, bit f = bit g → f = g

variable {F : Type} [Flag F]

def has (b : UInt8) (f : F) : Bool := b &&& Flag.mask f != 0
def put (b : UInt8) (f : F) : UInt8 := b ||| Flag.mask f
def drop (b : UInt8) (f : F) : UInt8 := b &&& ~~~ Flag.mask f

theorem has_eq_bit (b : UInt8) (f : F) : has b f = b.toBitVec.getLsbD (Flag.bit f) := by
  have hb := Flag.bit_lt f
  have hm : (b &&& Flag.mask f).toBitVec =
      if b.toBitVec.getLsbD (Flag.bit f) then BitVec.twoPow 8 (Flag.bit f) else 0#8 := by
    rw [UInt8.toBitVec_and, Flag.mask_bit, BitVec.and_twoPow]
  have hz : b &&& Flag.mask f = 0 ↔ (b &&& Flag.mask f).toBitVec = 0#8 :=
    ⟨fun h => by rw [h]; rfl, fun h => UInt8.toBitVec_inj.mp h⟩
  have hne : BitVec.twoPow 8 (Flag.bit f) ≠ 0#8 := by
    intro h
    have := congrArg (fun x => x.getLsbD (Flag.bit f)) h
    simp [hb] at this
  unfold has
  by_cases h : b.toBitVec.getLsbD (Flag.bit f)
  · simp only [h, ↓reduceIte] at hm
    simp [hz, hm, hne, h]
  · simp only [h] at hm
    simp [hz, hm, h]

theorem mask_getLsbD (f g : F) :
    (Flag.mask f).toBitVec.getLsbD (Flag.bit g) = decide (Flag.bit f = Flag.bit g) := by
  have hb := Flag.bit_lt g
  rw [Flag.mask_bit, BitVec.getLsbD_twoPow]
  by_cases h : Flag.bit f = Flag.bit g <;> simp [h, hb]

theorem bit_eq_iff (f g : F) : Flag.bit f = Flag.bit g ↔ f = g :=
  ⟨Flag.bit_inj f g, fun h => h ▸ rfl⟩

@[simp] theorem has_zero (f : F) : has 0 f = false := by
  simp [has]

variable [DecidableEq F]

@[simp] theorem has_put (b : UInt8) (f g : F) : has (put b f) g = (decide (f = g) || has b g) := by
  simp only [has_eq_bit, put, UInt8.toBitVec_or, BitVec.getLsbD_or, mask_getLsbD, bit_eq_iff]
  exact Bool.or_comm _ _

@[simp] theorem has_drop (b : UInt8) (f g : F) :
    has (drop b f) g = (!decide (f = g) && has b g) := by
  have hb := Flag.bit_lt g
  simp only [has_eq_bit, drop, UInt8.toBitVec_and, UInt8.toBitVec_not, BitVec.getLsbD_and,
    BitVec.getLsbD_not, mask_getLsbD, bit_eq_iff, hb, decide_true, Bool.true_and]
  exact Bool.and_comm _ _

end Perp.FlagByte
