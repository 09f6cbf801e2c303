import Perp.Newenv

set_option autoImplicit false

/-!
# The array of newenv_merge()

Whatever the strings are, the merge stays in the array that has been allocated.
-/
namespace Perp.NewenvInside
open Newenv (Slot environ newenvMerge mergeOne store)

/-- The first `n` slots of an array hold strings, and the next is NULL; there is room for more. -/
structure Shape (ee : List Slot) (n room : ℕ) : Prop where
  strings : ∀ j < n, ∃ s, ee[j]? = some (some (some s))
  null : ee[n]? = some (some none)
  fits : n + room < ee.length

section
variable {ee : List Slot} {n room : ℕ}

theorem store_of_lt {j : ℕ} (h : j < ee.length) (v : Slot) : store ee j v = some (ee.set j v) :=
  if_pos h

theorem Shape.set (h : Shape ee n room) {j : ℕ} (hj : j < n) (s : List UInt8) :
    Shape (ee.set j (some (some s))) n room := by
  have hlen := h.fits
  refine ⟨fun k hk => ?_, ?_, by rw [List.length_set]; exact hlen⟩
  · by_cases hkj : j = k
    · subst hkj
      exact ⟨s, List.getElem?_set_self (by omega)⟩
    · rw [List.getElem?_set_ne hkj]
      exact h.strings k hk
  · rw [List.getElem?_set_ne (by omega)]
    exact h.null

/-- The last string takes the place of another one. -/
theorem Shape.remove (h : Shape ee (n + 1) room) {j : ℕ} (hj : j < n + 1) :
    ∃ last, ee[n]? = some last ∧ Shape ((ee.set j last).set n (some none)) n room := by
  obtain ⟨s, hs⟩ := h.strings n (Nat.lt_succ_self n)
  have hlen := h.fits
  refine ⟨some (some s), hs, fun k hk => ?_, ?_, by simp only [List.length_set]; omega⟩
  · rw [List.getElem?_set_ne (by omega)]
    exact (h.set hj s).strings k (by omega)
  · rw [List.getElem?_set_self (by rw [List.length_set]; omega)]

theorem Shape.push (h : Shape ee n (room + 1)) (s : List UInt8) :
    Shape ((ee.set n (some (some s))).set (n + 1) (some none)) (n + 1) room := by
  have hlen := h.fits
  refine ⟨fun k hk => ?_, ?_, by simp only [List.length_set]; omega⟩
  · rw [List.getElem?_set_ne (by omega)]
    by_cases hkn : n = k
    · subst hkn
      exact ⟨s, List.getElem?_set_self (by omega)⟩
    · rw [List.getElem?_set_ne hkn]
      exact h.strings k (by omega)
  · rw [List.getElem?_set_self (by rw [List.length_set]; omega)]

theorem search_shape (envstr : List UInt8) (split : ℕ) {j : ℕ} (h : Shape ee n room) :
    ∃ k ee' n', Newenv.search envstr split ee n j = some (k, ee', n') ∧ Shape ee' n' room := by
  induction hd : n - j generalizing j with
  | zero =>
    rw [Newenv.search, if_neg (by omega)]
    exact ⟨j, ee, n, rfl, h⟩
  | succ d ih =>
    have hj : j < n := by omega
    have hlen := h.fits
    obtain ⟨e, he⟩ := h.strings j hj
    have hnext := ih (j := j + 1) (by omega)
    rw [Newenv.search, if_pos hj, he]
    simp only [Option.bind_eq_bind, Option.bind_some, Option.join_some]
    split
    · split
      · rw [store_of_lt (by omega)]
        exact ⟨j, _, n, rfl, h.set hj envstr⟩
      · split
        · obtain ⟨n, rfl⟩ : ∃ m, n = m + 1 := ⟨n - 1, by omega⟩
          obtain ⟨last, hlast, hshape⟩ := h.remove hj
          rw [Nat.add_sub_cancel, hlast, Option.bind_some, store_of_lt (by omega), Option.bind_some,
            store_of_lt (by rw [List.length_set]; omega)]
          exact ⟨j, _, n, rfl, hshape⟩
        · exact hnext
    · exact hnext

theorem mergeOne_shape (envstr : List UInt8) (h : Shape ee n (room + 1)) :
    ∃ ee' n', mergeOne (ee, n) envstr = some (ee', n') ∧ Shape ee' n' room := by
  obtain ⟨k, ee', n', hsearch, hshape⟩ := search_shape envstr (Cstr.cstrPos envstr 61) (j := 0) h
  have hlen := hshape.fits
  rw [mergeOne]
  simp only [Option.bind_eq_bind, hsearch, Option.bind_some]
  split
  · rw [store_of_lt (by omega), Option.bind_some, store_of_lt (by rw [List.length_set]; omega)]
    exact ⟨_, _, rfl, hshape.push envstr⟩
  · exact ⟨ee', n', rfl, hshape.strings, hshape.null, by omega⟩

theorem foldlM_shape (newenv : List (List UInt8)) (h : Shape ee n newenv.length) :
    ∃ ee' n', newenv.foldlM mergeOne (ee, n) = some (ee', n') ∧ Shape ee' n' 0 := by
  induction newenv generalizing ee n with
  | nil => exact ⟨ee, n, rfl, h⟩
  | cons s newenv ih =>
    obtain ⟨ee', n', hone, hshape⟩ := mergeOne_shape s h
    obtain ⟨ee'', n'', hall, hshape'⟩ := ih hshape
    exact ⟨ee'', n'', by rw [List.foldlM_cons, hone]; exact hall, hshape'⟩

theorem Shape.environ (h : Shape ee n room) : ∃ env, environ ee = some env := by
  induction n generalizing ee with
  | zero =>
    have hnull := h.null
    cases ee with
    | nil => cases hnull
    | cons x ee =>
      obtain rfl : x = some none := Option.some.inj hnull
      exact ⟨[], rfl⟩
  | succ n ih =>
    obtain ⟨s, hs⟩ := h.strings 0 (Nat.succ_pos n)
    cases ee with
    | nil => cases hs
    | cons x ee =>
      obtain rfl : x = some (some s) := Option.some.inj hs
      have hfits := h.fits
      rw [List.length_cons] at hfits
      have htail : Shape ee n room :=
        ⟨fun j hj => h.strings (j + 1) (by omega), h.null, by omega⟩
      obtain ⟨env, henv⟩ := ih htail
      exact ⟨s :: env, by rw [Newenv.environ, henv]; rfl⟩

/-- `newenv_merge()` stays in its array, whatever the strings are. -/
theorem merge_inside (envp newenv : List (List UInt8)) :
    ∃ env, (newenvMerge envp newenv).bind environ = some env := by
  have hlen : (envp.map fun s => (some (some s) : Slot)).length = envp.length := List.length_map _
  have hstart : Shape ((envp.map (fun s => (some (some s) : Slot)) ++
      List.replicate (newenv.length + 1) none).set envp.length (some none)) envp.length
      newenv.length := by
    refine ⟨fun j hj => ?_, ?_, ?_⟩
    · refine ⟨envp.get ⟨j, hj⟩, ?_⟩
      rw [List.getElem?_set_ne (by omega), List.getElem?_append_left (by omega), List.getElem?_map,
        List.getElem?_eq_getElem hj]
      rfl
    · rw [List.getElem?_set_self]
      rw [List.length_append, List.length_replicate, hlen]
      omega
    · rw [List.length_set, List.length_append, List.length_replicate, hlen]
      omega
  obtain ⟨ee, n, hfold, hshape⟩ := foldlM_shape newenv hstart
  obtain ⟨env, henv⟩ := hshape.environ
  refine ⟨env, ?_⟩
  rw [newenvMerge, store_of_lt]
  · simp only [Option.bind_eq_bind, Option.bind_some, hfold]
    exact henv
  · rw [List.length_append, List.length_replicate, hlen]
    omega

end

end Perp.NewenvInside
