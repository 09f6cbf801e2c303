import Mathlib.Data.List.Basic
import Mathlib.Tactic.Common

set_option autoImplicit false

/-!
# Bytes of a file

Which bytes stand where in a file, and what `write()` at an offset does to them.
-/
namespace Perp.ByteImage

universe u
variable {f bytes a b : List UInt8} {off o n : ℕ}

/-- `n` bytes of `f` from `off` on -/
def slice (f : List UInt8) (off n : ℕ) : List UInt8 := (f.drop off).take n

/-- `bytes` stand in `f` at `off`. -/
def At (f : List UInt8) (off : ℕ) (bytes : List UInt8) : Prop := bytes <+: f.drop off

theorem at_nil (f : List UInt8) (off : ℕ) : At f off [] := List.nil_prefix

theorem At.slice_eq (h : At f off bytes) : slice f off bytes.length = bytes :=
  (List.prefix_iff_eq_take.mp h).symm

theorem slice_at (h : off + n ≤ f.length) :
    At f off (slice f off n) ∧ (slice f off n).length = n := by
  refine ⟨List.take_prefix _ _, ?_⟩
  rw [slice, List.length_take, List.length_drop]
  omega

theorem At.end_le (h : At f off bytes) (hne : 0 < bytes.length) :
    off + bytes.length ≤ f.length := by
  have hle := List.IsPrefix.length_le h
  rw [List.length_drop] at hle
  omega

theorem at_append : At f off (a ++ b) ↔ At f off a ∧ At f (off + a.length) b := by
  unfold At
  constructor
  · rintro ⟨rest, hrest⟩
    refine ⟨⟨b ++ rest, by rw [← hrest, List.append_assoc]⟩, ⟨rest, ?_⟩⟩
    rw [← List.drop_drop, ← hrest, List.append_assoc, List.drop_left]
  · rintro ⟨⟨rest, ha⟩, ⟨rest', hb⟩⟩
    refine ⟨rest', ?_⟩
    rw [← List.drop_drop, ← ha, List.drop_left] at hb
    rw [List.append_assoc, hb, ha]

/-- What stands in a part of a file stands in the file. -/
theorem At.part (h : At f off bytes) (hn : o + b.length ≤ bytes.length) (hb : At bytes o b) :
    At f (off + o) b := by
  obtain ⟨rest, hrest⟩ := h
  unfold At
  rw [← List.drop_drop, ← hrest, List.drop_append_of_le_length (by omega)]
  exact List.IsPrefix.trans hb (List.prefix_append _ _)

theorem At.append_left (a : List UInt8) (h : At bytes o b) : At (a ++ bytes) (a.length + o) b := by
  unfold At
  rw [List.drop_append, Nat.add_sub_cancel_left, List.drop_eq_nil_of_le (Nat.le_add_right _ _),
    List.nil_append]
  exact h

theorem At.append_right (c : List UInt8) (h : At bytes o b) (hn : o + b.length ≤ bytes.length) :
    At (bytes ++ c) o b := by
  unfold At
  rw [List.drop_append_of_le_length (by omega)]
  exact List.IsPrefix.trans h (List.prefix_append _ _)

theorem at_replicate (x : UInt8) {k : ℕ} (h : o + k ≤ n) :
    At (List.replicate n x) o (List.replicate k x) := by
  unfold At
  rw [List.drop_replicate]
  exact ⟨List.replicate (n - o - k) x, by rw [List.replicate_append_replicate]; congr 1; omega⟩

theorem at_take (hn : o + b.length ≤ n) (hb : At f o b) : At (f.take n) o b := by
  unfold At
  rw [List.drop_take]
  exact List.prefix_take_iff.mpr ⟨hb, by omega⟩

section pieces
variable {g : ℕ → List UInt8} {w i : ℕ}

theorem pieces_length (hg : ∀ i, (g i).length = w) (n : ℕ) :
    ((List.range n).map g).flatten.length = w * n := by
  induction n with
  | zero => rfl
  | succ n ih =>
    rw [List.range_succ, List.map_append, List.flatten_append, List.length_append, ih]
    simp [hg, Nat.mul_succ]

/-- Where a piece stands when all of them are `w` bytes long -/
theorem at_pieces (hg : ∀ i, (g i).length = w) (h : At f off ((List.range n).map g).flatten)
    (hi : i < n) : At f (off + w * i) (g i) := by
  induction n with
  | zero => exact absurd hi (Nat.not_lt_zero i)
  | succ n ih =>
    rw [List.range_succ, List.map_append, List.flatten_append, at_append, pieces_length hg] at h
    rcases Nat.lt_succ_iff_lt_or_eq.mp hi with hlt | rfl
    · exact ih h.1 hlt
    · simpa using h.2

end pieces

/-- `write()` of `bytes` at the offset `off`. A file that is shorter is filled
with zeros. -/
def pwrite (f : List UInt8) (off : ℕ) (bytes : List UInt8) : List UInt8 :=
  if bytes = [] then f
  else (f ++ List.replicate (off - f.length) 0).take off ++ bytes ++ f.drop (off + bytes.length)

theorem pwrite_nil (f : List UInt8) (off : ℕ) : pwrite f off [] = f := by simp [pwrite]

theorem pwrite_before_length (f : List UInt8) (off : ℕ) :
    ((f ++ List.replicate (off - f.length) (0 : UInt8)).take off).length = off := by
  simp only [List.length_take, List.length_append, List.length_replicate]
  omega

theorem pwrite_at (f : List UInt8) (off : ℕ) (bytes : List UInt8) :
    At (pwrite f off bytes) off bytes := by
  by_cases h : bytes = []
  · rw [h]
    exact at_nil _ _
  · unfold pwrite At
    rw [if_neg h, List.append_assoc, List.drop_left' (pwrite_before_length f off)]
    exact List.prefix_append _ _

/-- Bytes after those written stay. -/
theorem pwrite_after (ho : off + bytes.length ≤ o) (h : At f o b) :
    At (pwrite f off bytes) o b := by
  by_cases hnil : bytes = []
  · rwa [hnil, pwrite_nil]
  · obtain ⟨k, rfl⟩ := Nat.exists_eq_add_of_le ho
    unfold pwrite At
    rw [if_neg hnil, ← List.drop_drop, List.drop_left' (by
      rw [List.length_append, pwrite_before_length]), List.drop_drop]
    exact h

/-- Bytes before those written stay. -/
theorem pwrite_before (ho : o + b.length ≤ off) (h : At f o b) :
    At (pwrite f off bytes) o b := by
  by_cases hnil : bytes = []
  · rwa [hnil, pwrite_nil]
  · by_cases hb : b = []
    · rw [hb]
      exact at_nil _ _
    have hpos : 0 < b.length := List.length_pos_iff.mpr hb
    have hend := h.end_le hpos
    have hpad : At (f ++ List.replicate (off - f.length) 0) o b := by
      unfold At
      rw [List.drop_append_of_le_length (by omega)]
      exact List.IsPrefix.trans h (List.prefix_append _ _)
    have htake := at_take ho hpad
    unfold pwrite At
    rw [if_neg hnil, List.append_assoc, List.drop_append_of_le_length (by
      rw [pwrite_before_length]; omega)]
    exact List.IsPrefix.trans htake (List.prefix_append _ _)

/-- Writing on where the last write ended. -/
theorem pwrite_pwrite (f : List UInt8) (off : ℕ) (a b : List UInt8) :
    pwrite (pwrite f off a) (off + a.length) b = pwrite f off (a ++ b) := by
  by_cases ha : a = []
  · rw [ha, pwrite_nil, List.length_nil, Nat.add_zero, List.nil_append]
  by_cases hb : b = []
  · rw [hb, pwrite_nil, List.append_nil]
  have hbefore := pwrite_before_length f off
  generalize hpre : (f ++ List.replicate (off - f.length) (0 : UInt8)).take off = pre at hbefore
  have hlen : (pre ++ a).length = off + a.length := by rw [List.length_append, hbefore]
  have hfst : pwrite f off a = pre ++ a ++ f.drop (off + a.length) := by
    simp [pwrite, ha, hpre]
  have hsnd : pwrite f off (a ++ b) = pre ++ (a ++ b) ++ f.drop (off + (a ++ b).length) := by
    simp [pwrite, ha, hpre]
  rw [hfst, hsnd, pwrite, if_neg hb]
  have htake : ((pre ++ a ++ f.drop (off + a.length)) ++ List.replicate
      (off + a.length - (pre ++ a ++ f.drop (off + a.length)).length) 0).take (off + a.length) =
      pre ++ a := by
    rw [List.append_assoc (pre ++ a), List.take_left' hlen]
  have hdrop : (pre ++ a ++ f.drop (off + a.length)).drop (off + a.length + b.length) =
      f.drop (off + (a ++ b).length) := by
    rw [← List.drop_drop, List.drop_left' hlen, List.drop_drop, List.length_append, Nat.add_assoc]
  rw [htake, hdrop, List.append_assoc pre a b]

end Perp.ByteImage
