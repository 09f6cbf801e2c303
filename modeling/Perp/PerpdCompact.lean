import Perp.PerpdMoves

set_option autoImplicit false

/-!
# Removal by swapping

`perpd_cull()` and the cull of closed connections go through an array once and
put the last element into the place of each that is gone.
-/
namespace Perp.PerpdCompact
open PerpdState PerpdSvdef PerpdConn PerpdMainloop PerpdMoves

section Array
variable {α : Type}

/-- The loop at index `i`, with `left` elements from there on. -/
def compact (gone : α → Bool) : ℕ → ℕ → List α → List α
  | 0, _, l => l
  | left + 1, i, l =>
    match l[i]? with
    | none => l
    | some x => if gone x then compact gone left i (swapRemove l i) else compact gone left (i + 1) l

theorem swapRemove_getElem? (l : List α) (i j : ℕ) (hj : j < i) (hi : i < l.length) :
    (swapRemove l i)[j]? = l[j]? := by
  rcases List.eq_nil_or_concat l with rfl | ⟨front, last, rfl⟩
  · rfl
  rw [List.concat_eq_append] at hi ⊢
  rw [swapRemove_concat]
  have hlen : i ≤ front.length := by
    simp only [List.length_append, List.length_singleton] at hi
    omega
  rw [List.getElem?_append_left (by omega)]
  split
  · rw [List.getElem?_set_ne (by omega)]
  · rfl

theorem swapRemove_take (l : List α) (i : ℕ) (hi : i < l.length) :
    (swapRemove l i).take i = l.take i := by
  refine List.ext_getElem? fun j => ?_
  by_cases hj : j < i
  · rw [List.getElem?_take_of_lt hj, List.getElem?_take_of_lt hj, swapRemove_getElem? _ _ _ hj hi]
  · rw [List.getElem?_take_eq_none (by omega), List.getElem?_take_eq_none (by omega)]

theorem swapRemove_drop (l : List α) (i : ℕ) (x : α) (hi : l[i]? = some x) :
    (l.drop i).Perm (x :: (swapRemove l i).drop i) := by
  have h1 : (l.take i ++ l.drop i).Perm (l.take i ++ x :: (swapRemove l i).drop i) := by
    rw [List.take_append_drop, ← swapRemove_take l i (List.getElem?_eq_some_iff.mp hi).1]
    refine (swapRemove_perm l i x hi).trans ?_
    conv_lhs => rw [← List.take_append_drop i (swapRemove l i)]
    exact List.perm_middle.symm
  exact (List.perm_append_left_iff _).mp h1

theorem compact_perm (gone : α → Bool) (left i : ℕ) (l : List α) (hlen : i + left = l.length) :
    (compact gone left i l).Perm (l.take i ++ (l.drop i).filter (fun x => !gone x)) := by
  induction left generalizing i l with
  | zero =>
    rw [List.take_of_length_le (by omega), List.drop_eq_nil_of_le (by omega)]
    simp [compact]
  | succ left ih =>
    have hlt : i < l.length := by omega
    have hi : l[i]? = some l[i] := List.getElem?_eq_getElem hlt
    unfold compact
    simp only [hi]
    split
    · next hg =>
      have hl := (swapRemove_perm l i _ hi).length_eq
      rw [List.length_cons] at hl
      refine (ih i _ (by omega)).trans ?_
      rw [swapRemove_take l i hlt]
      refine (List.perm_append_left_iff _).mpr (((swapRemove_drop l i _ hi).filter _).trans ?_).symm
      simp [hg]
    · next hg =>
      refine (ih (i + 1) _ (by omega)).trans ?_
      have hfilter : (l.drop i).filter (fun x => !gone x) =
          l[i] :: (l.drop (i + 1)).filter (fun x => !gone x) := by
        rw [List.drop_eq_getElem_cons hlt, List.filter_cons_of_pos]
        simpa using hg
      have htake : l.take (i + 1) = l.take i ++ [l[i]] := by
        rw [List.take_add_one, hi]
        rfl
      rw [htake, hfilter, List.append_assoc]
      exact .refl _

theorem compact_perm_all (gone : α → Bool) (l : List α) :
    (compact gone l.length 0 l).Perm (l.filter (fun x => !gone x)) := by
  have h := compact_perm gone l.length 0 l (by simp)
  rwa [List.take_zero, List.drop_zero, List.nil_append] at h

end Array

theorem cullLoop_compact (left i : ℕ) (s : Sys) (svdefs : List Svdef) :
    (perpdCullLoop left i s svdefs).2 = compact perpdSvdefCullok left i svdefs := by
  induction left generalizing i s svdefs with
  | zero => rfl
  | succ left ih =>
    unfold perpdCullLoop compact
    cases hi : svdefs[i]? with
    | none => rfl
    | some sd =>
      dsimp only
      split
      · exact ih _ _ _
      · exact ih _ _ _

theorem cull_perm (s : Sys) (svdefs : List Svdef) :
    (perpdCull s svdefs).2.Perm (svdefs.filter (fun sd => !perpdSvdefCullok sd)) := by
  rw [perpdCull, cullLoop_compact]
  exact compact_perm_all _ _

theorem cull_clean (s : Sys) (svdefs : List Svdef) :
    ∀ sd ∈ (perpdCull s svdefs).2, perpdSvdefCullok sd = false := by
  intro sd hsd
  simpa using (List.mem_filter.mp ((cull_perm s svdefs).mem_iff.mp hsd)).2

theorem connCullLoop_compact (left i : ℕ) (cs : List Conn) :
    connCullLoop left i cs = compact (fun c => c.connfd.isNone) left i cs := by
  induction left generalizing i cs with
  | zero => rfl
  | succ left ih =>
    unfold connCullLoop compact
    cases hi : cs[i]? with
    | none => rfl
    | some c =>
      simp only [Option.isNone_iff_eq_none]
      split
      · exact ih _ _
      · exact ih _ _

theorem connCull_perm (cs : List Conn) :
    (connCullLoop cs.length 0 cs).Perm (cs.filter (fun c => c.connfd.isSome)) := by
  rw [connCullLoop_compact]
  refine (compact_perm_all _ cs).trans (.of_eq (List.filter_congr fun c _ => ?_))
  cases c.connfd <;> rfl

end Perp.PerpdCompact
