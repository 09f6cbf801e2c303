import Mathlib.Data.Nat.Notation
import Mathlib.Tactic.Common

set_option autoImplicit false

/-!
# Arrays written in place
-/
namespace Perp.Inplace

variable {α : Type}

/-- A store into an array; none is a store outside it. -/
def store (b : List α) (i : ℕ) (x : α) : Option (List α) :=
  if i < b.length then some (b.set i x) else none

/-- Stores into successive places -/
def storeAll (b : List α) (i : ℕ) : List α → Option (List α)
  | [] => some b
  | x :: xs => (store b i x).bind fun b => storeAll b (i + 1) xs

variable {b pre post xs : List α} {i : ℕ} {x : α}

theorem store_at (pre post : List α) (c x : α) :
    store (pre ++ c :: post) pre.length x = some (pre ++ x :: post) := by
  have hlt : pre.length < (pre ++ c :: post).length := by
    rw [List.length_append, List.length_cons]
    omega
  rw [store, if_pos hlt, List.set_append_right _ _ (Nat.le_refl _), Nat.sub_self]
  rfl

theorem store_outside (h : b.length ≤ i) : store b i x = none := if_neg (Nat.not_lt.mpr h)

theorem get_at (pre post : List α) (c : α) : (pre ++ c :: post)[pre.length]? = some c := by
  rw [List.getElem?_append_right (Nat.le_refl _), Nat.sub_self]
  rfl

/-- A cursor that stores behind one that reads: what is read goes into the gap between them. -/
theorem store_tail (done gap rest : List α) (c x : α) :
    store (done ++ gap ++ c :: rest) done.length x =
      some (done ++ [x] ++ (gap ++ [c]).tail ++ rest) := by
  cases gap with
  | nil =>
    rw [List.append_nil, store_at]
    simp
  | cons g gap =>
    rw [List.append_assoc, List.cons_append, store_at]
    simp

theorem store_gap (done gap rest : List α) (c x : α) :
    ∃ gap' : List α, gap'.length = gap.length ∧
      store (done ++ gap ++ c :: rest) done.length x = some (done ++ [x] ++ gap' ++ rest) := by
  refine ⟨_, ?_, store_tail done gap rest c x⟩
  rw [List.length_tail, List.length_append]
  rfl

theorem storeAll_at (pre old post xs : List α) (h : old.length = xs.length) :
    storeAll (pre ++ old ++ post) pre.length xs = some (pre ++ xs ++ post) := by
  induction xs generalizing pre old with
  | nil =>
    obtain rfl : old = [] := List.eq_nil_of_length_eq_zero h
    rfl
  | cons x xs ih =>
    cases old with
    | nil => cases h
    | cons c old =>
      have hrest := ih (pre ++ [x]) old (Nat.succ.inj h)
      rw [List.length_append, List.length_singleton] at hrest
      rw [storeAll, List.append_assoc, List.cons_append, store_at]
      simpa using hrest

theorem store_length {b' : List α} (h : store b i x = some b') : b'.length = b.length := by
  rw [store] at h
  split at h
  · rw [← Option.some.inj h, List.length_set]
  · cases h

theorem storeAll_outside (hi : i ≤ b.length) (h : b.length < i + xs.length) :
    storeAll b i xs = none := by
  induction xs generalizing b i with
  | nil => exact absurd h (Nat.not_lt.mpr hi)
  | cons x xs ih =>
    rw [storeAll]
    by_cases hlt : i < b.length
    · have hstore : store b i x = some (b.set i x) := if_pos hlt
      have hlen := store_length hstore
      rw [hstore, Option.bind_some]
      rw [List.length_cons] at h
      apply ih
      · rw [hlen]
        exact hlt
      · rw [hlen]
        omega
    · rw [store_outside (Nat.not_lt.mp hlt), Option.bind_none]

/-- A string and its terminator in a buffer: there is a place for the terminator when the
string is shorter than the buffer. -/
theorem fill (b xs : List α) (x : α) (h : xs.length < b.length) :
    ∃ post, (storeAll b 0 xs).bind (fun b => store b xs.length x) = some (xs ++ x :: post) ∧
      (xs ++ x :: post).length = b.length := by
  have hlen : (b.take xs.length).length = xs.length := by
    rw [List.length_take]
    omega
  have hall := storeAll_at [] (b.take xs.length) (b.drop xs.length) xs hlen
  rw [List.nil_append, List.take_append_drop] at hall
  obtain ⟨c, post, hpost⟩ := List.exists_cons_of_ne_nil (List.drop_eq_nil_iff.not.mpr (Nat.not_le.mpr h))
  refine ⟨post, ?_, ?_⟩
  · change (storeAll b ([] : List α).length xs).bind _ = _
    rw [hall, Option.bind_some, List.nil_append, hpost, store_at]
  · have htail := congrArg List.length hpost
    rw [List.length_drop, List.length_cons] at htail
    rw [List.length_append, List.length_cons]
    omega

theorem fill_outside (b xs : List α) (x : α) (h : b.length = xs.length) :
    (storeAll b 0 xs).bind (fun b => store b xs.length x) = none := by
  have hall := storeAll_at [] b [] xs h
  rw [List.nil_append, List.append_nil] at hall
  change (storeAll b ([] : List α).length xs).bind _ = _
  rw [hall, Option.bind_some, List.append_nil, List.nil_append]
  exact store_outside (Nat.le_refl _)

end Perp.Inplace
