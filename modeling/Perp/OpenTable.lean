import Mathlib.Data.Finset.Card
import Mathlib.Data.Nat.Find
import Mathlib.Data.Nat.ModEq
import Mathlib.Logic.Function.Basic
import Mathlib.Tactic.Common

set_option autoImplicit false

/-!
# Tables with open addressing

A table of `T` slots in which an entry goes to the first empty slot from its home
on, cyclically. A walk from a home meets the entries of that home in the order in
which they were loaded, before the first empty slot.
-/
namespace Perp.OpenTable

universe u
variable {α : Type u}

/-- The slot after `t`. -/
def next (T t : ℕ) : ℕ := if t + 1 = T then 0 else t + 1

/-- The entries from the slot `t` on, up to an empty slot or for `k` slots. -/
def walk (T : ℕ) (tbl : ℕ → Option α) : ℕ → ℕ → List α
  | 0, _ => []
  | k + 1, t =>
    match tbl t with
    | none => []
    | some x => x :: walk T tbl k (next T t)

/-- The first empty slot from `t` on, within `k` slots. -/
def seek (T : ℕ) (tbl : ℕ → Option α) : ℕ → ℕ → Option ℕ
  | 0, _ => none
  | k + 1, t =>
    match tbl t with
    | none => some t
    | some _ => seek T tbl k (next T t)

variable {T : ℕ} {tbl : ℕ → Option α} {t e j k : ℕ}

theorem next_add (i : ℕ) : (next T t + i) % T = (t + (i + 1)) % T := by
  unfold next
  split
  · next h =>
    rw [show t + (i + 1) = 0 + i + T by omega, Nat.add_mod_right]
  · rw [show t + 1 + i = t + (i + 1) by omega]

theorem next_lt (ht : t < T) : next T t < T := by
  unfold next
  split <;> omega

/-- From the slot `t` on, the first empty slot is the one after `j` others. -/
structure Gap (T : ℕ) (tbl : ℕ → Option α) (t j : ℕ) : Prop where
  empty : tbl ((t + j) % T) = none
  full : ∀ i, i < j → tbl ((t + i) % T) ≠ none

theorem Gap.tail (hg : Gap T tbl t (j + 1)) : Gap T tbl (next T t) j where
  empty := by
    rw [next_add]
    exact hg.empty
  full i hi := by
    rw [next_add]
    exact hg.full (i + 1) (Nat.succ_lt_succ hi)

theorem Gap.unique {j' : ℕ} (h : Gap T tbl t j) (h' : Gap T tbl t j') : j = j' := by
  rcases Nat.lt_trichotomy j j' with hlt | heq | hgt
  · exact absurd h.empty (h'.full j hlt)
  · exact heq
  · exact absurd h'.empty (h.full j' hgt)

theorem seek_eq (hg : Gap T tbl t j) (ht : t < T) (hk : j < k) :
    seek T tbl k t = some ((t + j) % T) := by
  induction k generalizing t j with
  | zero => exact absurd hk (Nat.not_lt_zero _)
  | succ k ih =>
    have hmod : t % T = t := Nat.mod_eq_of_lt ht
    cases j with
    | zero =>
      have he := hg.empty
      rw [Nat.add_zero, hmod] at he
      simp [seek, he, hmod]
    | succ j =>
      have hf := hg.full 0 (Nat.succ_pos j)
      rw [Nat.add_zero, hmod] at hf
      obtain ⟨x, hx⟩ := Option.ne_none_iff_exists'.mp hf
      simp only [seek, hx]
      rw [ih hg.tail (next_lt ht) (Nat.lt_of_succ_lt_succ hk), next_add]

/-- A search that ends has met the first gap. -/
theorem seek_gap (ht : t < T) (h : seek T tbl k t = some e) :
    ∃ j, j < k ∧ Gap T tbl t j ∧ e = (t + j) % T := by
  induction k generalizing t with
  | zero => cases h
  | succ k ih =>
    have hmod : (t + 0) % T = t := Nat.mod_eq_of_lt ht
    unfold seek at h
    cases htbl : tbl t with
    | none =>
      rw [htbl] at h
      obtain rfl := Option.some.inj h
      refine ⟨0, Nat.succ_pos k, ⟨by rw [hmod]; exact htbl, fun i hi => ?_⟩, hmod.symm⟩
      exact absurd hi (Nat.not_lt_zero i)
    | some x =>
      rw [htbl] at h
      obtain ⟨j, hj, hg, he⟩ := ih (next_lt ht) h
      rw [next_add] at he
      refine ⟨j + 1, Nat.succ_lt_succ hj, ⟨?_, fun i hi => ?_⟩, he⟩
      · rw [← next_add]
        exact hg.empty
      · cases i with
        | zero =>
          rw [hmod, htbl]
          exact Option.some_ne_none x
        | succ i =>
          rw [← next_add]
          exact hg.full i (Nat.lt_of_succ_lt_succ hi)

theorem walk_eq (hg : Gap T tbl t j) (ht : t < T) (hk : j ≤ k) :
    walk T tbl k t = (List.range j).filterMap fun i => tbl ((t + i) % T) := by
  induction k generalizing t j with
  | zero =>
    obtain rfl : j = 0 := Nat.le_zero.mp hk
    rfl
  | succ k ih =>
    have hmod : t % T = t := Nat.mod_eq_of_lt ht
    cases j with
    | zero =>
      have he := hg.empty
      rw [Nat.add_zero, hmod] at he
      simp [walk, he]
    | succ j =>
      have hf := hg.full 0 (Nat.succ_pos j)
      rw [Nat.add_zero, hmod] at hf
      obtain ⟨x, hx⟩ := Option.ne_none_iff_exists'.mp hf
      have htail := ih hg.tail (next_lt ht) (Nat.le_of_succ_le_succ hk)
      simp only [next_add] at htail
      simp only [walk, hx, htail]
      rw [List.range_succ_eq_map, List.filterMap_cons_some (b := x) (by rw [Nat.add_zero, hmod, hx]),
        List.filterMap_map]
      rfl

/-- Different distances from `t` are different slots. -/
theorem slot_inj {i : ℕ} (hi : i < T) (hj : j < T) (h : (t + i) % T = (t + j) % T) : i = j := by
  have hcongr : i % T = j % T := Nat.ModEq.add_left_cancel' t h
  rwa [Nat.mod_eq_of_lt hi, Nat.mod_eq_of_lt hj] at hcongr

/-- A table that is not full has an empty slot, at some distance from `t`. -/
theorem exists_gap (ht : t < T) (h : ∃ s, s < T ∧ tbl s = none) : ∃ j, j < T ∧ Gap T tbl t j := by
  obtain ⟨s, hs, hempty⟩ := h
  have hat : ∃ i, i < T ∧ tbl ((t + i) % T) = none := by
    refine ⟨(s + T - t) % T, Nat.mod_lt _ (by omega), ?_⟩
    rw [Nat.add_mod_mod, show t + (s + T - t) = s + T by omega, Nat.add_mod_right,
      Nat.mod_eq_of_lt hs, hempty]
  refine ⟨Nat.find hat, (Nat.find_spec hat).1, (Nat.find_spec hat).2, fun i hi hnone => ?_⟩
  exact Nat.find_min hat hi ⟨Nat.lt_trans hi (Nat.find_spec hat).1, hnone⟩

/-- From the slot `t` on, the gap after `j` others comes before the slot `o`. -/
def Clear (T o t j : ℕ) : Prop := ∀ i, i < j → (t + (i + 1)) % T ≠ o

theorem clear_home (ht : t < T) (hj : j < T) : Clear T t t j := by
  intro i hi heq
  have hself : (t + 0) % T = t := Nat.mod_eq_of_lt ht
  have := slot_inj (by omega) (by omega) (heq.trans hself.symm)
  omega

theorem Clear.tail {o : ℕ} (h : Clear T o t (j + 1)) : Clear T o (next T t) j := by
  intro i hi
  rw [next_add]
  exact h (i + 1) (Nat.succ_lt_succ hi)

theorem Clear.next_ne {o : ℕ} (h : Clear T o t (j + 1)) (ht : t < T) : next T t ≠ o := by
  have h0 := h 0 (Nat.succ_pos j)
  rw [← next_add, Nat.add_zero, Nat.mod_eq_of_lt (next_lt ht)] at h0
  exact h0

section load
variable (T) (home : α → ℕ)

/-- An entry goes to the first empty slot from its home on. -/
def load (tbl : ℕ → Option α) (x : α) : Option (ℕ → Option α) :=
  (seek T tbl T (home x)).map fun e => Function.update tbl e (some x)

/-- The table `tbl` with the entries `xs` loaded one after the other into an empty
one. -/
structure Loaded (tbl : ℕ → Option α) (xs : List α) : Prop where
  homes : ∀ x ∈ xs, home x < T
  mem : ∀ s x, s < T → tbl s = some x → x ∈ xs
  /-- as many slots are taken as there are entries -/
  count : ((Finset.range T).filter fun s => tbl s ≠ none).card = xs.length
  /-- there is no empty slot from the home of an entry to its slot -/
  settled : ∀ s x, s < T → tbl s = some x →
    ∃ j, j < T ∧ s = (home x + j) % T ∧ ∀ i, i < j → tbl ((home x + i) % T) ≠ none
  /-- entries of one home are met in order -/
  order : ∀ h, h < T → ∀ j, Gap T tbl h j → j < T →
    ((List.range j).filterMap fun i => tbl ((h + i) % T)).filter (fun x => home x = h) =
      xs.filter fun x => home x = h
  outside : ∀ s, T ≤ s → tbl s = none

theorem loaded_nil : Loaded T home (fun _ => none) [] where
  homes := by simp
  mem := by simp
  count := by simp
  settled := by simp
  order h _ j hg hj := by
    cases j with
    | zero => rfl
    | succ j => exact absurd rfl (hg.full 0 (Nat.succ_pos j))
  outside _ _ := rfl

end load

section
variable {home : α → ℕ} {xs : List α} {x : α}

theorem Loaded.not_full (h : Loaded T home tbl xs) (hlt : xs.length < T) :
    ∃ s, s < T ∧ tbl s = none := by
  by_contra hno
  have hall : (Finset.range T).filter (fun s => tbl s ≠ none) = Finset.range T := by
    apply Finset.filter_true_of_mem
    intro s hs hnone
    exact hno ⟨s, Finset.mem_range.mp hs, hnone⟩
  have hcount := h.count
  rw [hall, Finset.card_range] at hcount
  omega

/-- A walk up to the first empty slot meets the entries of its home in order. -/
theorem Loaded.walk (h : Loaded T home tbl xs) (ht : t < T) (hg : Gap T tbl t j) (hj : j < T) :
    (walk T tbl j t).filter (fun x => home x = t) = xs.filter fun x => home x = t := by
  rw [walk_eq hg ht (Nat.le_refl j)]
  exact h.order t ht j hg hj

theorem update_full {s : ℕ} (h : tbl s ≠ none) : Function.update tbl e (some x) s ≠ none := by
  by_cases hse : s = e
  · simp [hse]
  · simpa [hse] using h

/-- What is met before a gap is not changed by an entry in an empty slot. -/
theorem met_update (hfull : ∀ i, i < j → tbl ((t + i) % T) ≠ none) (hempty : tbl e = none) :
    ((List.range j).filterMap fun i => Function.update tbl e (some x) ((t + i) % T)) =
      (List.range j).filterMap fun i => tbl ((t + i) % T) := by
  apply List.filterMap_congr
  intro i hi
  have hne : (t + i) % T ≠ e := fun heq => hfull i (List.mem_range.mp hi) (heq ▸ hempty)
  rw [Function.update_of_ne hne]

theorem Loaded.count_update (h : Loaded T home tbl xs) (he : e < T) (hempty : tbl e = none) :
    ((Finset.range T).filter fun s => Function.update tbl e (some x) s ≠ none).card =
      (xs ++ [x]).length := by
  have hset : (Finset.range T).filter (fun s => Function.update tbl e (some x) s ≠ none) =
      insert e ((Finset.range T).filter fun s => tbl s ≠ none) := by
    ext s
    by_cases hse : s = e
    · simp [hse, he]
    · simp [hse]
  rw [hset, Finset.card_insert_of_notMem (by simp [hempty]), h.count, List.length_append,
    List.length_singleton]

/-- No entry of the home `t` is past the gap of `t`. -/
theorem Loaded.none_past {m : ℕ} (h : Loaded T home tbl xs) (hg : Gap T tbl t j)
    (hm : j + 1 + m ≤ T) :
    (((List.range m).map (j + 1 + ·)).filterMap fun i =>
      Function.update tbl ((t + j) % T) (some x) ((t + i) % T)).filter (fun y => home y = t) = [] := by
  rw [List.filter_eq_nil_iff]
  intro y hy hhome
  rw [List.filterMap_map] at hy
  obtain ⟨l, hl, hy⟩ := List.mem_filterMap.mp hy
  have hlm := List.mem_range.mp hl
  simp only [Function.comp] at hy
  have hne : (t + (j + 1 + l)) % T ≠ (t + j) % T := by
    intro heq
    have := slot_inj (by omega) (by omega) heq
    omega
  rw [Function.update_of_ne hne] at hy
  obtain ⟨j', hj', hslot, hfull⟩ := h.settled _ y (Nat.mod_lt _ (by omega)) hy
  have hyt : home y = t := by simpa using hhome
  rw [hyt] at hslot hfull
  have hj'eq := slot_inj (by omega) hj' hslot
  exact hfull j (by omega) hg.empty

/-- The entry fills the gap `j0` of the home `t`. -/
theorem Loaded.order_filled {j0 : ℕ} (h : Loaded T home tbl xs) (ht : t < T) (hj0 : j0 < T)
    (hg0 : Gap T tbl t j0) (hj : j < T)
    (hg : Gap T (Function.update tbl ((t + j0) % T) (some x)) t j) :
    ((List.range j).filterMap fun i =>
      Function.update tbl ((t + j0) % T) (some x) ((t + i) % T)).filter (fun y => home y = t) =
        (xs ++ [x]).filter fun y => home y = t := by
  have hj0j : j0 < j := by
    by_contra hle
    have hnone := hg.empty
    rcases Nat.lt_or_eq_of_le (Nat.not_lt.mp hle) with hlt | heq
    · exact update_full (hg0.full j hlt) hnone
    · rw [heq] at hnone
      simp at hnone
  obtain ⟨m, rfl⟩ : ∃ m, j = j0 + 1 + m := ⟨j - (j0 + 1), by omega⟩
  have hbefore := @met_update α T tbl t ((t + j0) % T) j0 x hg0.full hg0.empty
  have hafter := @Loaded.none_past α T tbl t j0 home xs x m h hg0 (by omega)
  rw [List.range_add, List.range_succ, List.filterMap_append, List.filterMap_append,
    List.filter_append, List.filter_append, hbefore, h.order t ht j0 hg0 hj0, hafter,
    List.append_nil, List.filter_append]
  simp

/-- The entry does not go to the gap of the home `t`. -/
theorem Loaded.order_kept {j0 jx : ℕ} (h : Loaded T home tbl xs) (ht : t < T) (hj0 : j0 < T)
    (hg0 : Gap T tbl t j0) (hgx : Gap T tbl (home x) jx) (he : (home x + jx) % T = e)
    (hfill : (t + j0) % T ≠ e) (hg : Gap T (Function.update tbl e (some x)) t j) :
    ((List.range j).filterMap fun i =>
      Function.update tbl e (some x) ((t + i) % T)).filter (fun y => home y = t) =
        (xs ++ [x]).filter fun y => home y = t := by
  have hempty : tbl e = none := he ▸ hgx.empty
  have hgap : Gap T (Function.update tbl e (some x)) t j0 :=
    ⟨by rw [Function.update_of_ne hfill]; exact hg0.empty, fun i hi => update_full (hg0.full i hi)⟩
  obtain rfl := hg.unique hgap
  have hother : home x ≠ t := by
    intro hxt
    rw [hxt] at hgx he
    rw [hgx.unique hg0] at he
    exact hfill he
  rw [met_update hg0.full hempty, h.order t ht j hg0 hj0, List.filter_append]
  simp [hother]

/-- Loading an entry into a table that is not full keeps the order of every home. -/
theorem Loaded.load (h : Loaded T home tbl xs) (hlt : xs.length < T) (hx : home x < T) :
    ∃ e, e < T ∧ tbl e = none ∧ seek T tbl T (home x) = some e ∧
      Loaded T home (Function.update tbl e (some x)) (xs ++ [x]) := by
  obtain ⟨jx, hjx, hgx⟩ := exists_gap hx (h.not_full hlt)
  have hT : 0 < T := by omega
  refine ⟨(home x + jx) % T, Nat.mod_lt _ hT, hgx.empty, seek_eq hgx hx hjx, ?_⟩
  generalize he : (home x + jx) % T = e
  have heT : e < T := he ▸ Nat.mod_lt _ hT
  have hempty : tbl e = none := he ▸ hgx.empty
  refine
    { homes := fun y hy => ?_
      mem := fun s y hs hy => ?_
      count := h.count_update heT hempty
      settled := fun s y hs hy => ?_
      order := fun t ht j hg hj => ?_
      outside := fun s hs => ?_ }
  · rcases List.mem_append.mp hy with hy | hy
    · exact h.homes y hy
    · exact List.mem_singleton.mp hy ▸ hx
  · rw [List.mem_append]
    by_cases hse : s = e
    · obtain rfl : x = y := by simpa [hse] using hy
      exact .inr (List.mem_singleton_self x)
    · rw [Function.update_of_ne hse] at hy
      exact .inl (h.mem s y hs hy)
  · by_cases hse : s = e
    · obtain rfl : x = y := by simpa [hse] using hy
      exact ⟨jx, hjx, hse.trans he.symm, fun i hi => update_full (hgx.full i hi)⟩
    · rw [Function.update_of_ne hse] at hy
      obtain ⟨j, hj, hsj, hfull⟩ := h.settled s y hs hy
      exact ⟨j, hj, hsj, fun i hi => update_full (hfull i hi)⟩
  · obtain ⟨j0, hj0, hg0⟩ := exists_gap ht (h.not_full hlt)
    by_cases hfill : (t + j0) % T = e
    · rw [← hfill] at hg ⊢
      exact h.order_filled ht hj0 hg0 hj hg
    · exact h.order_kept ht hj0 hg0 hgx he hfill hg
  · rw [Function.update_of_ne (by omega)]
    exact h.outside s hs

end

end Perp.OpenTable
