import Mathlib.Data.Finset.Dedup
import Mathlib.Data.List.Nodup
import Mathlib.Order.Interval.Finset.Nat
import Perp.OpenTable

set_option autoImplicit false

/-!
# Probes of a table with open addressing

How far from its home each entry of a table is, and when no walk of the loading
reaches a slot that is not to be used.
-/
namespace Perp.Probing
open OpenTable

universe u
variable {α : Type u}

/-- The slot of an entry that is so far from its home -/
def place (T : ℕ) (home : α → ℕ) (p : α × ℕ) : ℕ := (home p.1 + p.2) % T

/-- The entries of a table in the order in which they were loaded, each with how far
from its home it is. -/
structure Probed (T : ℕ) (home : α → ℕ) (tbl : ℕ → Option α) (ps : List (α × ℕ)) : Prop where
  homes : ∀ p ∈ ps, home p.1 < T
  near : ∀ p ∈ ps, p.2 < T
  /-- no two entries are in one slot -/
  apart : (ps.map (place T home)).Nodup
  holds : ∀ p ∈ ps, tbl (place T home p) = some p.1
  owned : ∀ s, s < T → tbl s ≠ none → s ∈ ps.map (place T home)
  /-- there is no empty slot from the home of an entry to its slot -/
  full : ∀ p ∈ ps, ∀ k, k < p.2 → tbl ((home p.1 + k) % T) ≠ none
  /-- entries of one home are met in order -/
  order : ps.Pairwise fun p q => home p.1 = home q.1 → p.2 < q.2

/-- The number of entries whose home is `a` or after it -/
def homesFrom (home : α → ℕ) (a : ℕ) (ps : List (α × ℕ)) : ℕ := ps.countP fun p => a ≤ home p.1

variable {T B j : ℕ} {home : α → ℕ} {tbl : ℕ → Option α} {ps : List (α × ℕ)} {x : α}

theorem probed_nil : Probed T home (fun _ => none) [] where
  homes := by simp
  near := by simp
  apart := List.nodup_nil
  holds := by simp
  owned _ _ h := absurd rfl h
  full := by simp
  order := List.Pairwise.nil

/-! ## One entry more -/

theorem place_snd (T : ℕ) (home : α → ℕ) (x : α) (j : ℕ) : place T home (x, j) = (home x + j) % T :=
  rfl

theorem Probed.not_here (h : Probed T home tbl ps) (hg : Gap T tbl (home x) j) :
    ∀ p ∈ ps, place T home p ≠ place T home (x, j) := by
  intro p hp heq
  have hnone := hg.empty
  rw [← place_snd, ← heq, h.holds p hp] at hnone
  cases hnone

theorem Probed.before_gap (h : Probed T home tbl ps) (hg : Gap T tbl (home x) j) {p : α × ℕ}
    (hp : p ∈ ps) (hhome : home p.1 = home x) : p.2 < j := by
  rcases Nat.lt_trichotomy p.2 j with hlt | heq | hgt
  · exact hlt
  · exact absurd (by rw [place, place_snd, hhome, heq]) (h.not_here hg p hp)
  · have hfull := h.full p hp j hgt
    rw [hhome] at hfull
    exact absurd hg.empty hfull

theorem Probed.load (h : Probed T home tbl ps) (hx : home x < T) (hg : Gap T tbl (home x) j)
    (hj : j < T) :
    Probed T home (Function.update tbl ((home x + j) % T) (some x)) (ps ++ [(x, j)]) := by
  have hother := h.not_here hg
  rw [place_snd] at hother
  refine
    { homes := fun p hp => ?_
      near := fun p hp => ?_
      apart := ?_
      holds := fun p hp => ?_
      owned := fun s hs hne => ?_
      full := fun p hp k hk => ?_
      order := ?_ }
  · rcases List.mem_append.mp hp with hp | hp
    · exact h.homes p hp
    · exact List.mem_singleton.mp hp ▸ hx
  · rcases List.mem_append.mp hp with hp | hp
    · exact h.near p hp
    · exact List.mem_singleton.mp hp ▸ hj
  · rw [List.map_append, List.nodup_append]
    refine ⟨h.apart, List.nodup_singleton _, fun s hs t ht => ?_⟩
    obtain ⟨p, hp, rfl⟩ := List.mem_map.mp hs
    rw [List.mem_singleton.mp ht]
    exact hother p hp
  · rcases List.mem_append.mp hp with hp | hp
    · rw [Function.update_of_ne (hother p hp)]
      exact h.holds p hp
    · rw [List.mem_singleton.mp hp]
      exact Function.update_self _ _ _
  · rw [List.map_append, List.mem_append]
    by_cases hse : s = (home x + j) % T
    · exact .inr (List.mem_singleton.mpr hse)
    · rw [Function.update_of_ne hse] at hne
      exact .inl (h.owned s hs hne)
  · rcases List.mem_append.mp hp with hp | hp
    · exact update_full (h.full p hp k hk)
    · obtain rfl := List.mem_singleton.mp hp
      exact update_full (hg.full k hk)
  · rw [List.pairwise_append]
    refine ⟨h.order, List.pairwise_singleton _ _, fun p hp q hq hhome => ?_⟩
    obtain rfl := List.mem_singleton.mp hq
    exact h.before_gap hg hp hhome

/-! ## Slots that are taken -/

theorem Probed.taken (h : Probed T home tbl ps) :
    ((Finset.range T).filter fun s => tbl s ≠ none) = (ps.map (place T home)).toFinset := by
  ext s
  simp only [Finset.mem_filter, Finset.mem_range, List.mem_toFinset]
  constructor
  · exact fun hs => h.owned s hs.1 hs.2
  · intro hs
    obtain ⟨p, hp, rfl⟩ := List.mem_map.mp hs
    have hlt := h.near p hp
    refine ⟨Nat.mod_lt _ (by omega), ?_⟩
    rw [h.holds p hp]
    exact Option.some_ne_none _

theorem Probed.empties (h : Probed T home tbl ps) :
    ((Finset.range T).filter fun s => tbl s = none).card + ps.length = T := by
  have hsplit := @Finset.card_filter_add_card_filter_not _ (Finset.range T) (fun s => tbl s = none)
    _ _
  rw [h.taken, List.toFinset_card_of_nodup h.apart, List.length_map, Finset.card_range] at hsplit
  exact hsplit

theorem Probed.not_full (h : Probed T home tbl ps) (hlt : ps.length < T) :
    ∃ s, s < T ∧ tbl s = none := by
  have hcard := h.empties
  obtain ⟨s, hs⟩ := Finset.card_pos.mp
    (show 0 < ((Finset.range T).filter fun s => tbl s = none).card by omega)
  simp only [Finset.mem_filter, Finset.mem_range] at hs
  exact ⟨s, hs⟩

/-! ## Walks that stay below a slot -/

section below
variable (h : Probed T home tbl ps) (hB : B < T) (hempty : ∀ s, B ≤ s → s < T → tbl s = none)
include h hB hempty

/-- No walk goes past the last slot, which is empty. -/
theorem Probed.no_wrap {p : α × ℕ} (hp : p ∈ ps) : place T home p = home p.1 + p.2 := by
  have hhome := h.homes p hp
  have hlt : home p.1 + p.2 < T := by
    by_contra hge
    have hlast := h.full p hp (T - 1 - home p.1) (by omega)
    rw [Nat.add_sub_cancel' (by omega), Nat.mod_eq_of_lt (by omega)] at hlast
    exact hlast (hempty (T - 1) (by omega) (by omega))
  exact Nat.mod_eq_of_lt hlt

/-- Entries whose homes are `a` or after it take slots from `a` on. -/
theorem Probed.homes_le (a : ℕ) : homesFrom home a ps ≤ B - a := by
  have hsub : ((ps.filter fun p => a ≤ home p.1).map (place T home)).toFinset ⊆ Finset.Ico a B := by
    intro s hs
    rw [List.mem_toFinset] at hs
    obtain ⟨p, hp, rfl⟩ := List.mem_map.mp hs
    obtain ⟨hp, ha⟩ := List.mem_filter.mp hp
    have ha : a ≤ home p.1 := by simpa using ha
    have hplace := h.no_wrap hB hempty hp
    have hlt : place T home p < B := by
      by_contra hge
      have hnone := hempty _ (Nat.not_lt.mp hge) (Nat.mod_lt _ (by omega))
      rw [h.holds p hp] at hnone
      cases hnone
    rw [Finset.mem_Ico]
    omega
  have hnodup : ((ps.filter fun p => a ≤ home p.1).map (place T home)).Nodup :=
    List.Nodup.sublist (List.Sublist.map _ List.filter_sublist) h.apart
  have hcard := Finset.card_le_card hsub
  rw [List.toFinset_card_of_nodup hnodup, List.length_map, Nat.card_Ico] at hcard
  rw [homesFrom, List.countP_eq_length_filter]
  exact hcard

/-- The slots from `a` up to `B` are taken by entries whose homes are `a` or after it
when the slot before `a` is empty. -/
theorem Probed.le_homes {a : ℕ} (hfull : ∀ s, a ≤ s → s < B → tbl s ≠ none)
    (hbefore : ∀ s, s + 1 = a → tbl s = none) : B - a ≤ homesFrom home a ps := by
  have hsub : Finset.Ico a B ⊆ ((ps.filter fun p => a ≤ home p.1).map (place T home)).toFinset := by
    intro s hs
    obtain ⟨has, hsB⟩ := Finset.mem_Ico.mp hs
    obtain ⟨p, hp, hplace⟩ := List.mem_map.mp (h.owned s (by omega) (hfull s has hsB))
    rw [List.mem_toFinset]
    refine List.mem_map.mpr ⟨p, List.mem_filter.mpr ⟨hp, ?_⟩, hplace⟩
    rw [h.no_wrap hB hempty hp] at hplace
    apply decide_eq_true
    -- a walk from before `a` would have met the slot that is empty
    by_contra hlt
    have hmet := h.full p hp (a - 1 - home p.1) (by omega)
    have hhome := h.homes p hp
    rw [Nat.add_sub_cancel' (by omega), Nat.mod_eq_of_lt (by omega)] at hmet
    exact hmet (hbefore (a - 1) (by omega))
  have hcard := (Finset.card_le_card hsub).trans (List.toFinset_card_le _)
  rw [List.length_map, Nat.card_Ico] at hcard
  rw [homesFrom, List.countP_eq_length_filter]
  exact hcard

/-- Where the entries leave room below `B`, the gap of a home is below `B`. -/
theorem Probed.room (hx : ∀ a, a ≤ B → a ≤ home x → homesFrom home a ps < B - a) :
    ∃ s, home x ≤ s ∧ s < B ∧ tbl s = none := by
  by_contra hno
  have hall : ∀ s, home x ≤ s → s < B → tbl s ≠ none := fun s h1 h2 h3 => hno ⟨s, h1, h2, h3⟩
  by_cases hxB : home x ≤ B
  · have hex : ∃ a, ∀ s, a ≤ s → s < B → tbl s ≠ none := ⟨home x, hall⟩
    classical
    have hle : Nat.find hex ≤ home x := Nat.find_min' hex hall
    have hbefore : ∀ s, s + 1 = Nat.find hex → tbl s = none := by
      intro s hs
      by_contra hne
      refine Nat.find_min hex (show s < Nat.find hex by omega) fun t hst htB => ?_
      by_cases heq : t = s
      · rwa [heq]
      · exact Nat.find_spec hex t (by omega) htB
    have hcount := h.le_homes hB hempty (Nat.find_spec hex) hbefore
    have hroom := hx _ (hle.trans hxB) hle
    omega
  · have hroom := hx B (Nat.le_refl B) (by omega)
    omega

end below

/-- The gap of a home, and that the walk to it stays below `B`. -/
theorem Probed.gap (h : Probed T home tbl ps) (hlt : ps.length < T) (hx : home x < T)
    (hbelow : T ≤ B ∨ (∀ s, B ≤ s → s < T → tbl s = none) ∧
      ∀ a, a ≤ B → a ≤ home x → homesFrom home a ps < B - a) :
    ∃ j, j < T ∧ Gap T tbl (home x) j ∧ ∀ i, i ≤ j → (home x + i) % T < B := by
  by_cases hTB : T ≤ B
  · obtain ⟨j, hj, hg⟩ := exists_gap hx (h.not_full hlt)
    exact ⟨j, hj, hg, fun i _ => Nat.lt_of_lt_of_le (Nat.mod_lt _ (by omega)) hTB⟩
  · obtain ⟨hempty, hroom⟩ := hbelow.resolve_left hTB
    obtain ⟨s, hxs, hsB, hnone⟩ := h.room (by omega) hempty hroom
    obtain ⟨j, hj, hg⟩ := exists_gap hx ⟨s, by omega, hnone⟩
    have hjs : j ≤ s - home x := by
      by_contra hgt
      have hfull := hg.full (s - home x) (by omega)
      rw [Nat.add_sub_cancel' hxs, Nat.mod_eq_of_lt (by omega)] at hfull
      exact hfull hnone
    refine ⟨j, hj, hg, fun i hi => ?_⟩
    rw [Nat.mod_eq_of_lt (by omega)]
    omega

end Perp.Probing
