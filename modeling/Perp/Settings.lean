import Mathlib.Logic.Function.Basic
import Perp.Refusal

set_option autoImplicit false

/-!
# Settings from several sources

Lists of settings, of which the last or the first for a key counts.
-/
namespace Perp.Settings

variable {κ ι τ : Type} [DecidableEq κ] [DecidableEq ι]

/-- The last setting for a key -/
def lastOf (es : List (κ × τ)) (k : κ) : Option τ := ((es.filter (·.1 = k)).getLast?).map (·.2)

/-- The first setting for a key -/
def firstOf (es : List (κ × τ)) (k : κ) : Option τ := (es.find? (·.1 = k)).map (·.2)

def put (m : κ → Option τ) (e : κ × τ) : κ → Option τ := Function.update m e.1 (some e.2)

/-- A setting for what is not yet set -/
def offer (m : κ → Option τ) (e : κ × τ) : κ → Option τ :=
  if (m e.1).isNone = true then put m e else m

/-- The settings under other keys, where there are such -/
def rekey (f : κ → Option ι) (es : List (κ × τ)) : List (ι × τ) :=
  es.filterMap fun e => (f e.1).map fun i => (i, e.2)

section
variable {es : List (κ × τ)} {m : κ → Option τ} {k : κ} {v : τ} {f : κ → Option ι} {i : ι}

theorem lastOf_cons (e : κ × τ) (es : List (κ × τ)) (k : κ) :
    lastOf (e :: es) k = (lastOf es k).or (if e.1 = k then some e.2 else none) := by
  rw [lastOf, lastOf, List.filter_cons]
  by_cases he : e.1 = k
  · rw [if_pos (decide_eq_true he), List.getLast?_cons, if_pos he]
    cases (es.filter (·.1 = k)).getLast? <;> rfl
  · have hneg : ¬ decide (e.1 = k) = true := fun h => he (of_decide_eq_true h)
    rw [if_neg hneg, if_neg he, Option.or_none]

theorem firstOf_cons (e : κ × τ) (es : List (κ × τ)) (k : κ) :
    firstOf (e :: es) k = if e.1 = k then some e.2 else firstOf es k := by
  rw [firstOf, firstOf, List.find?_cons]
  by_cases he : e.1 = k
  · rw [decide_eq_true he, if_pos he]
    rfl
  · rw [decide_eq_false he, if_neg he]

theorem foldl_put (es : List (κ × τ)) (m : κ → Option τ) (k : κ) :
    es.foldl put m k = (lastOf es k).or (m k) := by
  induction es generalizing m with
  | nil => rfl
  | cons e es ih =>
    rw [List.foldl_cons, ih, lastOf_cons, Option.or_assoc, put]
    by_cases he : e.1 = k
    · rw [if_pos he, he, Function.update_self, Option.some_or]
    · rw [if_neg he, Function.update_of_ne (Ne.symm he), Option.none_or]

theorem lastOf_append (es fs : List (κ × τ)) (k : κ) :
    lastOf (es ++ fs) k = (lastOf fs k).or (lastOf es k) := by
  induction es with
  | nil => exact (Option.or_none).symm
  | cons e es ih => rw [List.cons_append, lastOf_cons, ih, lastOf_cons, Option.or_assoc]

theorem foldl_offer (es : List (κ × τ)) (m : κ → Option τ) (k : κ) :
    es.foldl offer m k = (m k).or (firstOf es k) := by
  induction es generalizing m with
  | nil => exact (Option.or_none).symm
  | cons e es ih =>
    rw [List.foldl_cons, ih, firstOf_cons, offer]
    by_cases he : e.1 = k
    · rw [if_pos he, he]
      cases hm : m k with
      | none => rw [Option.isNone_none, if_pos rfl, put, he, Function.update_self, Option.none_or,
          Option.some_or]
      | some v => rw [Option.isNone_some, if_neg (by decide), hm, Option.some_or, Option.some_or]
    · rw [if_neg he]
      by_cases hm : (m e.1).isNone = true
      · rw [if_pos hm, put, Function.update_of_ne (Ne.symm he)]
      · rw [if_neg hm]

theorem offer_eq_none {e : κ × τ} : offer m e k = none ↔ m k = none ∧ e.1 ≠ k := by
  rw [offer]
  by_cases he : e.1 = k
  · subst he
    apply iff_of_false _ fun h => h.2 rfl
    by_cases hm : (m e.1).isNone = true
    · rw [if_pos hm, put, Function.update_self]
      exact Option.some_ne_none _
    · rw [if_neg hm]
      exact fun h => hm (Option.isNone_iff_eq_none.mpr h)
  · by_cases hm : (m e.1).isNone = true
    · rw [if_pos hm, put, Function.update_of_ne (Ne.symm he)]
      exact (and_iff_left he).symm
    · rw [if_neg hm]
      exact (and_iff_left he).symm

theorem mem_of_firstOf (h : firstOf es k = some v) : (k, v) ∈ es := by
  obtain ⟨⟨k', v'⟩, hfind, rfl⟩ := Option.map_eq_some_iff.mp h
  obtain rfl : k' = k := of_decide_eq_true (List.find?_some hfind :)
  exact List.mem_of_find?_eq_some hfind

/-- Where a setting is looked at only if it is the first for its key, and for some keys always -/
theorem faulty_offer (bad : κ × τ → Prop) (always : κ → Prop) (es : List (κ × τ))
    (m : κ → Option τ) :
    Refusal.Faulty (fun m e => bad e ∧ (always e.1 ∨ m e.1 = none)) offer es m ↔
      ∃ e ∈ es, bad e ∧ (always e.1 ∨ m e.1 = none ∧ firstOf es e.1 = some e.2) := by
  induction es generalizing m with
  | nil => exact iff_of_false id fun ⟨e, he, _⟩ => absurd he List.not_mem_nil
  | cons x xs ih =>
    rw [Refusal.Faulty, ih]
    constructor
    · rintro (⟨hbad, hx⟩ | ⟨e, he, hbad, hcount⟩)
      · refine ⟨x, List.mem_cons_self, hbad, hx.imp_right fun hm => ⟨hm, ?_⟩⟩
        rw [firstOf_cons, if_pos rfl]
      · refine ⟨e, List.mem_cons_of_mem x he, hbad, hcount.imp_right ?_⟩
        rintro ⟨hoffer, hfirst⟩
        obtain ⟨hm, hne⟩ := offer_eq_none.mp hoffer
        refine ⟨hm, ?_⟩
        rw [firstOf_cons, if_neg hne]
        exact hfirst
    · rintro ⟨e, he, hbad, halways | ⟨hm, hfirst⟩⟩
      · rcases List.mem_cons.mp he with rfl | he
        · exact .inl ⟨hbad, .inl halways⟩
        · exact .inr ⟨e, he, hbad, .inl halways⟩
      · rw [firstOf_cons] at hfirst
        by_cases hx : x.1 = e.1
        · rw [if_pos hx] at hfirst
          obtain rfl : x = e := Prod.ext hx (Option.some.inj hfirst)
          exact .inl ⟨hbad, .inr hm⟩
        · rw [if_neg hx] at hfirst
          exact .inr ⟨e, mem_of_firstOf hfirst, hbad, .inr ⟨offer_eq_none.mpr ⟨hm, hx⟩, hfirst⟩⟩

theorem lastOf_eq_none : lastOf es k = none ↔ ∀ v, (k, v) ∉ es := by
  rw [lastOf, Option.map_eq_none_iff, List.getLast?_eq_none_iff, List.filter_eq_nil_iff]
  constructor
  · intro h v hmem
    exact h (k, v) hmem (decide_eq_true rfl)
  · rintro h ⟨k', v⟩ hmem hk
    rw [decide_eq_true_eq] at hk
    exact h v (hk ▸ hmem)

theorem firstOf_eq_none : firstOf es k = none ↔ ∀ v, (k, v) ∉ es := by
  rw [firstOf, Option.map_eq_none_iff, List.find?_eq_none]
  constructor
  · intro h v hmem
    exact h (k, v) hmem (decide_eq_true rfl)
  · rintro h ⟨k', v⟩ hmem hk
    rw [decide_eq_true_eq] at hk
    exact h v (hk ▸ hmem)

omit [DecidableEq κ] [DecidableEq ι] in
theorem mem_rekey : (i, v) ∈ rekey f es ↔ ∃ k, f k = some i ∧ (k, v) ∈ es := by
  rw [rekey, List.mem_filterMap]
  constructor
  · rintro ⟨⟨k, v'⟩, hmem, h⟩
    obtain ⟨i', hi, heq⟩ := Option.map_eq_some_iff.mp h
    cases heq
    exact ⟨k, hi, hmem⟩
  · rintro ⟨k, hi, hmem⟩
    exact ⟨(k, v), hmem, by rw [hi]; rfl⟩

theorem lastOf_rekey_eq_none :
    lastOf (rekey f es) i = none ↔ ∀ k, f k = some i → lastOf es k = none := by
  simp only [lastOf_eq_none, mem_rekey, not_exists, not_and]
  exact ⟨fun h k hk v => h v k hk, fun h v k hk => h k hk v⟩

theorem firstOf_rekey_eq_none :
    firstOf (rekey f es) i = none ↔ ∀ k, f k = some i → firstOf es k = none := by
  simp only [firstOf_eq_none, mem_rekey, not_exists, not_and]
  exact ⟨fun h k hk v => h v k hk, fun h v k hk => h k hk v⟩

omit [DecidableEq κ] [DecidableEq ι] in
theorem rekey_cons_none {e : κ × τ} (h : f e.1 = none) (es : List (κ × τ)) :
    rekey f (e :: es) = rekey f es := by
  rw [rekey, rekey, List.filterMap_cons, h, Option.map_none]

omit [DecidableEq κ] [DecidableEq ι] in
theorem rekey_cons_some {e : κ × τ} (h : f e.1 = some i) (es : List (κ × τ)) :
    rekey f (e :: es) = (i, e.2) :: rekey f es := by
  rw [rekey, rekey, List.filterMap_cons, h, Option.map_some]

/-- Where one key alone counts for another -/
theorem lastOf_rekey (hk : f k = some i)
    (halone : ∀ k', f k' = some i → k' ≠ k → lastOf es k' = none) :
    lastOf (rekey f es) i = lastOf es k := by
  induction es with
  | nil => rfl
  | cons e es ih =>
    have hrest : ∀ k', f k' = some i → k' ≠ k → lastOf es k' = none := by
      intro k' hk' hne
      have hnone := halone k' hk' hne
      rw [lastOf_cons, Option.or_eq_none_iff] at hnone
      exact hnone.1
    rw [lastOf_cons, ← ih hrest]
    by_cases he : e.1 = k
    · rw [rekey_cons_some (he ▸ hk), lastOf_cons, if_pos rfl, if_pos he]
    · rw [if_neg he, Option.or_none]
      cases hf : f e.1 with
      | none => rw [rekey_cons_none hf]
      | some j =>
        have hj : j ≠ i := by
          rintro rfl
          have hnone := halone e.1 hf he
          rw [lastOf_cons, if_pos rfl, Option.or_eq_none_iff] at hnone
          cases hnone.2
        rw [rekey_cons_some hf, lastOf_cons, if_neg hj, Option.or_none]

theorem firstOf_rekey (hk : f k = some i)
    (halone : ∀ k', f k' = some i → k' ≠ k → firstOf es k' = none) :
    firstOf (rekey f es) i = firstOf es k := by
  induction es with
  | nil => rfl
  | cons e es ih =>
    rw [firstOf_cons]
    by_cases he : e.1 = k
    · rw [rekey_cons_some (he ▸ hk), firstOf_cons, if_pos rfl, if_pos he]
    · have hrest : ∀ k', f k' = some i → k' ≠ k → firstOf es k' = none := by
        intro k' hk' hne
        have hnone := halone k' hk' hne
        rw [firstOf_cons] at hnone
        by_cases hke : e.1 = k'
        · rw [if_pos hke] at hnone
          cases hnone
        · rwa [if_neg hke] at hnone
      rw [if_neg he, ← ih hrest]
      cases hf : f e.1 with
      | none => rw [rekey_cons_none hf]
      | some j =>
        have hj : j ≠ i := by
          rintro rfl
          have hnone := halone e.1 hf he
          rw [firstOf_cons, if_pos rfl] at hnone
          cases hnone
        rw [rekey_cons_some hf, firstOf_cons, if_neg hj]

theorem mem_of_lastOf (h : lastOf es k = some v) : (k, v) ∈ es := by
  obtain ⟨⟨k', v'⟩, hlast, rfl⟩ := Option.map_eq_some_iff.mp h
  have hmem := List.mem_filter.mp (List.mem_of_getLast? hlast)
  obtain rfl : k' = k := of_decide_eq_true hmem.2
  exact hmem.1

end

end Perp.Settings
