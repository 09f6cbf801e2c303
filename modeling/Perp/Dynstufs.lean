import Mathlib.Data.List.Induction
import Perp.Capacity
import Perp.Inplace

set_option autoImplicit false

/-!
# Containers of pointers

The functions of `dynstuf`, and the list that a container stands for in a run of them.
-/
namespace Perp.Dynstufs
open Inplace (store)

variable {α κ : Type}

/-! ## The functions -/

/-- A `void *`; none is NULL. -/
abbrev Ptr (α : Type) := Option α

/-- The places of an array; none is one in which nothing has been stored. -/
abbrev Places (α : Type) := List (Option (Ptr α))

/-- `struct dynstuf` -/
structure Dynstuf (α : Type) where
  stuf : Option (Places α)
  slots : UInt64
  items : UInt64
  deriving DecidableEq, Repr

/-- `realloc()` of an array of pointers; no object has 2^63 bytes. -/
def realloc (got : Bool) (stuf : Option (Places α)) (bytes : UInt64) : Option (Places α) :=
  let old := stuf.getD []
  let n := bytes.toNat / 8
  if got ∧ bytes.toNat < 2 ^ 63 then some (old.take n ++ List.replicate (n - old.length) none)
  else none

def dynstufGrow (got : Bool) (S : Dynstuf α) (add : UInt64) : ℤ × Dynstuf α :=
  let need := S.items + add
  if need < S.items then (-1, S)
  else if S.stuf.isNone ∨ S.slots < need then
    let checkNeed := need <<< 1
    if checkNeed < need then (-1, S)
    else
      let need := checkNeed
      let checkNeed := need * 8
      if checkNeed < need then (-1, S)
      else (realloc got S.stuf checkNeed).elim (-1, S) fun stuf =>
        (0, { S with stuf := some stuf, slots := need })
  else (0, S)

/-- `dynstuf_init()` on a structure of the caller's -/
def dynstufInit (got : Bool) : Option (Dynstuf α) :=
  let out := dynstufGrow got ⟨none, 0, 0⟩ 1
  if out.1 ≠ 0 then none else some out.2

/-- `dynstuf_new()`, with an answer of `malloc()` for the structure -/
def dynstufNew (gotNew got : Bool) : Option (Dynstuf α) :=
  if gotNew then dynstufInit got else none

/-- What is read at a place of the array; none if nothing can be read there. -/
def load (b : Places α) (i : UInt64) : Option (Ptr α) := b[i.toNat]?.join

def Dynstuf.array (S : Dynstuf α) : Places α := S.stuf.getD []

/-- A store into the array -/
def Dynstuf.put (S : Dynstuf α) (i : UInt64) (data : Ptr α) : Option (Dynstuf α) :=
  (store S.array i.toNat (some data)).map fun stuf => { S with stuf := some stuf }

def dynstufPush (got : Bool) (S : Dynstuf α) (data : Ptr α) : Option (ℤ × Dynstuf α) :=
  let out := dynstufGrow got S 1
  if out.1 = 0 then
    (out.2.put out.2.items data).map fun S => (0, { S with items := S.items + 1 })
  else some (-1, out.2)

def dynstufPop (S : Dynstuf α) : Option (Ptr α × Dynstuf α) :=
  if S.items > 0 then
    let S := { S with items := S.items - 1 }
    (load S.array S.items).map fun data => (data, S)
  else some (none, S)

def dynstufPeek (S : Dynstuf α) : Option (Ptr α) :=
  if S.items > 0 then load S.array (S.items - 1) else some none

def dynstufGet (S : Dynstuf α) (slot : UInt64) : Option (Ptr α) :=
  if slot < S.items then load S.array slot else some none

def dynstufSet (S : Dynstuf α) (slot : UInt64) (data : Ptr α) : Option (Ptr α × Dynstuf α) :=
  if slot < S.items then (S.put slot data).map fun S => (data, S) else some (none, S)

def dynstufReplace (S : Dynstuf α) (slot : UInt64) (newdata : Ptr α) :
    Option (Ptr α × Dynstuf α) :=
  if slot < S.items then
    (load S.array slot).bind fun data => (S.put slot newdata).map fun S => (data, S)
  else some (none, S)

/-- The loop of `dynstuf_find()`, with the turns that are left -/
def findLoop (S : Dynstuf α) (key : κ) (cmp : Ptr α → κ → ℤ) : ℕ → UInt64 → Option UInt64
  | 0, _ => some S.items
  | turns + 1, slot =>
    if slot < S.items then
      (load S.array slot).bind fun p =>
        if cmp p key = 0 then some slot else findLoop S key cmp turns (slot + 1)
    else some S.items

def dynstufFind (S : Dynstuf α) (slot : UInt64) (key : κ) (cmp : Ptr α → κ → ℤ) :
    Option UInt64 :=
  findLoop S key cmp S.items.toNat slot

/-- `DYNSTUF_SWAP()` -/
def swap (stuf : Places α) (a b : UInt64) : Option (Places α) :=
  (load stuf a).bind fun t =>
    (load stuf b).bind fun u =>
      (store stuf a.toNat (some u)).bind fun stuf => store stuf b.toNat (some t)

def reverseLoop : ℕ → Places α → UInt64 → UInt64 → Option (Places α)
  | 0, stuf, _, _ => some stuf
  | turns + 1, stuf, ix0, ixN =>
    if ix0 < ixN then
      (swap stuf ix0 ixN).bind fun stuf => reverseLoop turns stuf (ix0 + 1) (ixN - 1)
    else some stuf

def dynstufReverse (S : Dynstuf α) : Option (Dynstuf α) :=
  if S.items < 2 then some S
  else (reverseLoop S.items.toNat S.array 0 (S.items - 1)).map fun stuf =>
    { S with stuf := some stuf }

/-- The pointers that a loop over the items comes to -/
def visitLoop (S : Dynstuf α) : ℕ → UInt64 → Option (List (Ptr α))
  | 0, _ => some []
  | turns + 1, i =>
    if i < S.items then
      (load S.array i).bind fun p => (visitLoop S turns (i + 1)).map (p :: ·)
    else some []

/-- What the visitor is called with, in this order -/
def dynstufVisit (S : Dynstuf α) : Option (List (Ptr α)) := visitLoop S S.items.toNat 0

/-- What `free_data()` is called with, if there is one -/
def dynstufFree (S : Dynstuf α) (freeData : Bool) : Option (List (Ptr α)) :=
  if freeData then visitLoop S S.items.toNat 0 else some []

/-- `qsort()` as far as it is known: from a comparison and an array -/
abbrev Qsort (α : Type) := (Ptr α → Ptr α → ℤ) → List (Ptr α) → List (Ptr α)

def dynstufSort (qsort : Qsort α) (cmp : Ptr α → Ptr α → ℤ) (S : Dynstuf α) :
    Option (Dynstuf α) :=
  (visitLoop S S.items.toNat 0).map fun xs =>
    { S with stuf := S.stuf.map fun b => (qsort cmp xs).map some ++ b.drop S.items.toNat }

/-! ## What they are for -/

/-- A container holds a list: in the first of the places that it has been given. -/
structure Holds (S : Dynstuf α) (l : List (Ptr α)) : Prop where
  array : ∃ free : Places α, S.array = l.map some ++ free
  slots : S.array.length = S.slots.toNat
  items : S.items.toNat = l.length
  small : 8 * S.slots.toNat < 2 ^ 63

/-- A comparison that orders the items of a list -/
structure Orders (cmp : Ptr α → Ptr α → ℤ) (l : List (Ptr α)) : Prop where
  flip : ∀ a ∈ l, ∀ b ∈ l, 0 < cmp a b ↔ cmp b a < 0
  trans : ∀ a ∈ l, ∀ b ∈ l, ∀ c ∈ l, cmp a b ≤ 0 → cmp b c ≤ 0 → cmp a c ≤ 0

/-- A list put in order -/
def Sorted (cmp : Ptr α → Ptr α → ℤ) (l l' : List (Ptr α)) : Prop :=
  l'.Perm l ∧ l'.Pairwise fun a b => cmp a b ≤ 0

/-- What `qsort()` promises -/
def Sorts (qsort : Qsort α) : Prop := ∀ cmp l, Orders cmp l → Sorted cmp l (qsort cmp l)

/-- Such a function -/
def mergeQsort : Qsort α := fun cmp l =>
  (l.attach.mergeSort fun a b => cmp a.1 b.1 ≤ 0).map Subtype.val

theorem mergeQsort_sorts : Sorts (mergeQsort : Qsort α) := by
  intro cmp l ho
  constructor
  · have hperm := (List.mergeSort_perm l.attach fun a b => cmp a.1 b.1 ≤ 0).map Subtype.val
    rwa [List.attach_map_subtype_val] at hperm
  · rw [mergeQsort, List.pairwise_map]
    have hsorted : (l.attach.mergeSort fun a b => cmp a.1 b.1 ≤ 0).Pairwise
        (fun a b => decide (cmp a.1 b.1 ≤ 0)) := List.pairwise_mergeSort
      (fun a b c hab hbc => by
        rw [decide_eq_true_eq] at hab hbc ⊢
        exact ho.trans a.1 a.2 b.1 b.2 c.1 c.2 hab hbc)
      (fun a b => by
        have hflip := ho.flip a.1 a.2 b.1 b.2
        simp only [Bool.or_eq_true, decide_eq_true_eq]
        omega) l.attach
    exact hsorted.imp fun h => of_decide_eq_true h

inductive Op (α κ : Type) where
  | push (got : Bool) (data : Ptr α)
  | pop
  | peek
  | get (slot : UInt64)
  | set (slot : UInt64) (data : Ptr α)
  | replace (slot : UInt64) (newdata : Ptr α)
  | find (slot : UInt64) (key : κ) (cmp : Ptr α → κ → ℤ)
  | reverse
  | sort (cmp : Ptr α → Ptr α → ℤ)
  | visit
  | items

/-- What an operation returns, or calls its visitor with -/
inductive Ret (α : Type) where
  | code (ret : ℤ)
  | data (p : Ptr α)
  | count (n : UInt64)
  | calls (ps : List (Ptr α))
  | void

/-- An operation on a container; none is an access outside the array, or to a place in which
nothing has been stored. -/
def apply (qsort : Qsort α) (S : Dynstuf α) : Op α κ → Option (Ret α × Dynstuf α)
  | .push got data => (dynstufPush got S data).map fun out => (.code out.1, out.2)
  | .pop => (dynstufPop S).map fun out => (.data out.1, out.2)
  | .peek => (dynstufPeek S).map fun p => (.data p, S)
  | .get slot => (dynstufGet S slot).map fun p => (.data p, S)
  | .set slot data => (dynstufSet S slot data).map fun out => (.data out.1, out.2)
  | .replace slot newdata => (dynstufReplace S slot newdata).map fun out => (.data out.1, out.2)
  | .find slot key cmp => (dynstufFind S slot key cmp).map fun n => (.count n, S)
  | .reverse => (dynstufReverse S).map fun S => (.void, S)
  | .sort cmp => (dynstufSort qsort cmp S).map fun S => (.void, S)
  | .visit => (dynstufVisit S).map fun ps => (.calls ps, S)
  | .items => some (.count S.items, S)

/-- What an operation is to do to the list, and to return. A push fails only without memory, or
with more items than there can be memory for. -/
def Does (l : List (Ptr α)) : Op α κ → Ret α → List (Ptr α) → Prop
  | .push got data, r, l' => (r = .code 0 ∧ l' = l ++ [data]) ∨
      (r = .code (-1) ∧ l' = l ∧ (got = false ∨ 2 ^ 59 ≤ l.length + 1))
  | .pop, r, l' => r = .data l.getLast?.join ∧ l' = l.dropLast
  | .peek, r, l' => r = .data l.getLast?.join ∧ l' = l
  | .get slot, r, l' => r = .data l[slot.toNat]?.join ∧ l' = l
  | .set slot data, r, l' =>
      r = .data (if slot.toNat < l.length then data else none) ∧ l' = l.set slot.toNat data
  | .replace slot newdata, r, l' =>
      r = .data l[slot.toNat]?.join ∧ l' = l.set slot.toNat newdata
  | .find slot key cmp, r, l' =>
      (∃ n : UInt64, r = .count n ∧ n.toNat = min l.length
        (slot.toNat + (l.drop slot.toNat).findIdx fun p => cmp p key = 0)) ∧ l' = l
  | .reverse, r, l' => r = .void ∧ l' = l.reverse
  | .sort cmp, r, l' => r = .void ∧ Sorted cmp l l'
  | .visit, r, l' => r = .calls l ∧ l' = l
  | .items, r, l' => (∃ n : UInt64, r = .count n ∧ n.toNat = l.length) ∧ l' = l

/-- A run of operations: what each of them returns, and the container that is left -/
def applyAll (qsort : Qsort α) : Dynstuf α → List (Op α κ) → Option (List (Ret α) × Dynstuf α)
  | S, [] => some ([], S)
  | S, op :: ops => (apply qsort S op).bind fun out =>
      (applyAll qsort out.2 ops).map fun rest => (out.1 :: rest.1, rest.2)

/-- The same run on a list -/
inductive DoesAll : List (Ptr α) → List (Op α κ) → List (Ret α) → List (Ptr α) → Prop where
  | nil (l : List (Ptr α)) : DoesAll l [] [] l
  | cons {l l' l'' : List (Ptr α)} {op : Op α κ} {ops : List (Op α κ)} {r : Ret α}
      {rs : List (Ret α)} : Does l op r l' → DoesAll l' ops rs l'' →
        DoesAll l (op :: ops) (r :: rs) l''

/-! ## The sizes -/

/-- What `Capacity` keeps of a container -/
def Dynstuf.sizes (S : Dynstuf α) : Capacity.Dynstuf :=
  ⟨S.stuf.map fun b => .ofNat (8 * b.length), S.slots, S.items⟩

theorem realloc_sizes (stuf : Option (Places α)) (need : UInt64) :
    (realloc true stuf (need * 8)).map (fun b => UInt64.ofNat (8 * b.length)) =
      if (need * 8).toNat < 2 ^ 63 then some (need * 8) else none := by
  rw [realloc]
  by_cases hsmall : (need * 8).toNat < 2 ^ 63
  · rw [if_pos ⟨rfl, hsmall⟩, if_pos hsmall, Option.map_some]
    have hbytes : 8 * ((stuf.getD []).take ((need * 8).toNat / 8) ++ List.replicate
        ((need * 8).toNat / 8 - (stuf.getD []).length) none).length = (need * 8).toNat := by
      have height := Capacity.eight_eq need
      rw [List.length_append, List.length_take, List.length_replicate]
      omega
    rw [hbytes, UInt64.ofNat_toNat]
  · rw [if_neg (fun h => hsmall h.2), if_neg hsmall]
    rfl

/-- `dynstuf_grow()` with the contents and without them -/
theorem grow_sizes (S : Dynstuf α) (add : UInt64) (got : Bool) :
    Capacity.dynstufGrow (got && ((S.items + add) <<< 1 * 8).toNat < 2 ^ 63) S.sizes add =
      ((dynstufGrow got S add).1, (dynstufGrow got S add).2.sizes) := by
  have hnull : S.sizes.stuf = none ↔ S.stuf.isNone = true := by
    rw [Dynstuf.sizes, Option.map_eq_none_iff, Option.isNone_iff_eq_none]
  have hitems : S.sizes.items = S.items := rfl
  have hslots : S.sizes.slots = S.slots := rfl
  have hrealloc := realloc_sizes S.stuf ((S.items + add) <<< 1)
  simp only [dynstufGrow, Capacity.dynstufGrow, hnull, hitems, hslots]
  by_cases hwrap : S.items + add < S.items
  · simp only [hwrap, if_true]
  by_cases hfull : S.stuf.isNone = true ∨ S.slots < S.items + add
  · simp only [hwrap, hfull, if_true, if_false]
    by_cases hshift : (S.items + add) <<< 1 < S.items + add
    · simp only [hshift, if_true]
    by_cases hover : (S.items + add) <<< 1 * (8 : UInt64) < (S.items + add) <<< (1 : UInt64)
    · simp only [hshift, hover, if_true, if_false]
    simp only [hshift, hover, if_false]
    generalize hbytes : (S.items + add) <<< 1 * 8 = bytes at hrealloc ⊢
    by_cases hgot : got = true ∧ bytes.toNat < 2 ^ 63
    · obtain ⟨rfl, hsmall⟩ := hgot
      rw [if_pos hsmall] at hrealloc
      obtain ⟨stuf, hstuf, hlen⟩ := Option.map_eq_some_iff.mp hrealloc
      rw [hstuf, if_pos (by rw [Bool.true_and]; exact decide_eq_true hsmall), ← hlen]
      rfl
    · have hnone : realloc got S.stuf bytes = none := if_neg hgot
      rw [hnone, if_neg (by simpa using hgot)]
      rfl
  · simp only [hwrap, hfull, if_false]

/-! ## One operation -/

section
variable {S : Dynstuf α} {l : List (Ptr α)} {i : UInt64}

theorem holds_empty : Holds (⟨none, 0, 0⟩ : Dynstuf α) [] :=
  ⟨⟨[], rfl⟩, rfl, rfl, Nat.two_pow_pos 63⟩

theorem Holds.room (h : Holds S l) : l.length ≤ S.slots.toNat := by
  obtain ⟨free, harray⟩ := h.array
  rw [← h.slots, harray, List.length_append, List.length_map]
  omega

theorem Holds.lt_iff (h : Holds S l) : i < S.items ↔ i.toNat < l.length := by
  rw [UInt64.lt_iff_toNat_lt, h.items]

theorem Holds.load (h : Holds S l) (hi : i.toNat < l.length) :
    load S.array i = some l[i.toNat] := by
  obtain ⟨free, harray⟩ := h.array
  rw [Dynstufs.load, harray, List.getElem?_append_left (by simpa using hi)]
  simp [hi]

theorem Holds.put (h : Holds S l) (hi : i.toNat < l.length) (data : Ptr α) :
    ∃ S', S.put i data = some S' ∧ Holds S' (l.set i.toNat data) := by
  obtain ⟨free, harray⟩ := h.array
  have hroom := h.room
  have hplace : i.toNat < S.array.length := by
    rw [h.slots]
    omega
  refine ⟨{ S with stuf := some (S.array.set i.toNat (some data)) }, ?_, ⟨free, ?_⟩, ?_, ?_,
    h.small⟩
  · rw [Dynstuf.put, store, if_pos hplace]
    rfl
  · change S.array.set i.toNat (some data) = _
    rw [harray, List.set_append_left _ _ (by simpa using hi), List.map_set]
  · change (S.array.set i.toNat (some data)).length = _
    rw [List.length_set]
    exact h.slots
  · rw [List.length_set]
    exact h.items

/-- The items stay where they are in a greater block. -/
theorem realloc_holds {bytes : UInt64} (h : Holds S l)
    (hbytes : bytes.toNat = 8 * (2 * (l.length + 1))) (hsmall : bytes.toNat < 2 ^ 63)
    {slots : UInt64} (hslots : slots.toNat = 2 * (l.length + 1)) :
    ∃ stuf, realloc true S.stuf bytes = some stuf ∧
      Holds { S with stuf := some stuf, slots := slots } l := by
  obtain ⟨free, harray⟩ := h.array
  have hn : bytes.toNat / 8 = 2 * (l.length + 1) := by omega
  have hlen : (S.array.take (bytes.toNat / 8)).length +
      (bytes.toNat / 8 - S.array.length) = 2 * (l.length + 1) := by
    rw [List.length_take, hn]
    omega
  refine ⟨S.array.take (bytes.toNat / 8) ++
    List.replicate (bytes.toNat / 8 - S.array.length) none, if_pos ⟨rfl, hsmall⟩, ?_, ?_,
    h.items, ?_⟩
  · refine ⟨free.take (bytes.toNat / 8 - l.length) ++
      List.replicate (bytes.toNat / 8 - S.array.length) none, ?_⟩
    change S.array.take _ ++ _ = _
    rw [← List.append_assoc]
    congr 1
    rw [harray, List.take_append, List.length_map, List.take_of_length_le]
    rw [List.length_map]
    omega
  · change (S.array.take _ ++ _).length = slots.toNat
    rw [List.length_append, List.length_replicate, hlen, hslots]
  · change 8 * slots.toNat < 2 ^ 63
    omega

/-- Room for one more item is there or is made, or there is no memory for it. -/
theorem grow_cases (h : Holds S l) (got : Bool) :
    (∃ S', dynstufGrow got S 1 = (0, S') ∧ Holds S' l ∧ l.length < S'.slots.toNat) ∨
      (dynstufGrow got S 1 = (-1, S) ∧ (got = false ∨ 2 ^ 59 ≤ l.length + 1)) := by
  have hroom := h.room
  have hsmall := h.small
  have hneed : (S.items + 1).toNat = l.length + 1 := by
    rw [UInt64.toNat_add, h.items, UInt64.toNat_one]
    exact Nat.mod_eq_of_lt (by omega)
  have hdouble : ((S.items + 1) <<< 1).toNat = 2 * (l.length + 1) := by
    rw [Capacity.double_eq, hneed]
    omega
  have hbytes : (((S.items + 1) <<< 1) * 8).toNat = 8 * (2 * (l.length + 1)) % 2 ^ 64 := by
    rw [Capacity.eight_eq, hdouble]
  have hwrap : ¬ S.items + 1 < S.items := by
    rw [UInt64.lt_iff_toNat_lt, hneed, h.items]
    omega
  have hshift : ¬ (S.items + 1) <<< 1 < S.items + 1 := by
    rw [UInt64.lt_iff_toNat_lt, hdouble, hneed]
    omega
  rw [dynstufGrow, if_neg hwrap]
  by_cases hfull : S.stuf.isNone ∨ S.slots < S.items + 1
  · rw [if_pos hfull, if_neg hshift]
    by_cases hover : ((S.items + 1) <<< 1) * (8 : UInt64) < (S.items + 1) <<< (1 : UInt64)
    · rw [if_pos hover]
      refine .inr ⟨rfl, .inr ?_⟩
      rw [UInt64.lt_iff_toNat_lt, hbytes, hdouble] at hover
      omega
    · rw [if_neg hover]
      rw [UInt64.lt_iff_toNat_lt, hbytes, hdouble] at hover
      by_cases hgot : got = true ∧ (((S.items + 1) <<< 1) * 8).toNat < 2 ^ 63
      · obtain ⟨rfl, hlt⟩ := hgot
        have hexact : (((S.items + 1) <<< 1) * 8).toNat = 8 * (2 * (l.length + 1)) := by omega
        obtain ⟨stuf, hstuf, hholds⟩ := realloc_holds h hexact hlt hdouble
        refine .inl ⟨_, congrArg (fun got => Option.elim got _ _) hstuf, hholds, ?_⟩
        change l.length < ((S.items + 1) <<< 1).toNat
        omega
      · have hnone : realloc got S.stuf (((S.items + 1) <<< 1) * 8) = none := if_neg hgot
        refine .inr ⟨congrArg (fun got => Option.elim got _ _) hnone, ?_⟩
        cases got with
        | false => exact .inl rfl
        | true =>
          have hbig := Nat.not_lt.mp fun hlt => hgot ⟨rfl, hlt⟩
          rw [hbytes] at hbig
          exact .inr (by omega)
  · rw [if_neg hfull]
    refine .inl ⟨S, rfl, h, ?_⟩
    rw [not_or, UInt64.lt_iff_toNat_lt, hneed] at hfull
    omega

theorem push_cases (h : Holds S l) (got : Bool) (data : Ptr α) :
    ∃ r S' l', dynstufPush got S data = some (r, S') ∧ Holds S' l' ∧
      Does (κ := Unit) l (.push got data) (.code r) l' := by
  rcases grow_cases h got with ⟨T, hgrow, hT, hlt⟩ | ⟨hgrow, hwhy⟩
  · obtain ⟨free, harray⟩ := hT.array
    have hfree : free ≠ [] := by
      rintro rfl
      have hlen := hT.slots
      rw [harray, List.append_nil, List.length_map] at hlen
      omega
    obtain ⟨c, free, rfl⟩ := List.exists_cons_of_ne_nil hfree
    have hput : T.put T.items data =
        some { T with stuf := some (l.map some ++ some data :: free) } := by
      have hat := Inplace.store_at (l.map some) free c (some data)
      rw [List.length_map] at hat
      rw [Dynstuf.put, harray, hT.items, hat]
      rfl
    refine ⟨0, { T with stuf := some (l.map some ++ some data :: free), items := T.items + 1 },
      l ++ [data], ?_, ⟨⟨free, ?_⟩, ?_, ?_, hT.small⟩, .inl ⟨rfl, rfl⟩⟩
    · simp only [dynstufPush, hgrow, hput, if_true, Option.map_some]
    · change l.map some ++ some data :: free = _
      simp
    · have hlen := hT.slots
      rw [harray] at hlen
      change (l.map some ++ some data :: free).length = _
      rw [← hlen]
      simp
    · have hsmall := hT.small
      rw [UInt64.toNat_add, hT.items, List.length_append]
      exact Nat.mod_eq_of_lt (by simp only [UInt64.toNat_one]; omega)
  · exact ⟨-1, S, l, by simp [dynstufPush, hgrow], h, .inr ⟨rfl, rfl, hwhy⟩⟩

theorem Holds.last (h : Holds S l) (hne : l ≠ []) :
    (S.items - 1).toNat = l.length - 1 := by
  have hpos := List.length_pos_iff.mpr hne
  rw [UInt64.toNat_sub_of_le, h.items]
  · rfl
  · rw [UInt64.le_iff_toNat_le, h.items]
    exact hpos

theorem Holds.pos_iff (h : Holds S l) : S.items > 0 ↔ l ≠ [] := by
  rw [gt_iff_lt, UInt64.lt_iff_toNat_lt, h.items]
  exact List.length_pos_iff

theorem peek_eq (h : Holds S l) : dynstufPeek S = some l.getLast?.join := by
  rw [dynstufPeek]
  by_cases hne : l = []
  · rw [if_neg (by rw [h.pos_iff]; exact not_not_intro hne), hne]
    rfl
  · have hlast := h.last hne
    have hlt : (S.items - 1).toNat < l.length := by
      rw [hlast]
      exact Nat.sub_lt (List.length_pos_iff.mpr hne) Nat.one_pos
    rw [if_pos (h.pos_iff.mpr hne), h.load hlt]
    simp only [List.getLast?_eq_getElem?, ← hlast, List.getElem?_eq_getElem hlt, Option.join_some]

theorem pop_eq (h : Holds S l) :
    ∃ S', dynstufPop S = some (l.getLast?.join, S') ∧ Holds S' l.dropLast := by
  rw [dynstufPop]
  by_cases hne : l = []
  · rw [if_neg (by rw [h.pos_iff]; exact not_not_intro hne), hne]
    rw [hne] at h
    exact ⟨S, rfl, h⟩
  · have hpeek := peek_eq h
    rw [dynstufPeek, if_pos (h.pos_iff.mpr hne)] at hpeek
    rw [if_pos (h.pos_iff.mpr hne)]
    refine ⟨{ S with items := S.items - 1 }, ?_, ?_, h.slots, ?_, h.small⟩
    · change (Dynstufs.load S.array (S.items - 1)).map _ = _
      rw [hpeek]
      rfl
    · obtain ⟨free, harray⟩ := h.array
      refine ⟨some (l.getLast hne) :: free, ?_⟩
      change S.array = _
      rw [harray]
      conv_lhs => rw [← List.dropLast_append_getLast hne]
      simp
    · rw [List.length_dropLast]
      exact h.last hne

theorem get_eq (h : Holds S l) : dynstufGet S i = some l[i.toNat]?.join := by
  rw [dynstufGet]
  by_cases hi : i < S.items
  · have hlt := h.lt_iff.mp hi
    rw [if_pos hi, h.load hlt, List.getElem?_eq_getElem hlt]
    rfl
  · have hle := mt h.lt_iff.mpr hi
    rw [if_neg hi, List.getElem?_eq_none (Nat.not_lt.mp hle)]
    rfl

theorem set_eq (h : Holds S l) (data : Ptr α) :
    ∃ S', dynstufSet S i data = some (if i.toNat < l.length then data else none, S') ∧
      Holds S' (l.set i.toNat data) := by
  rw [dynstufSet]
  by_cases hi : i < S.items
  · have hlt := h.lt_iff.mp hi
    obtain ⟨S', hput, hS'⟩ := h.put hlt data
    refine ⟨S', ?_, hS'⟩
    rw [if_pos hi, if_pos hlt, hput]
    rfl
  · have hle := mt h.lt_iff.mpr hi
    refine ⟨S, by rw [if_neg hi, if_neg hle], ?_⟩
    rw [List.set_eq_of_length_le (Nat.not_lt.mp hle)]
    exact h

theorem replace_eq (h : Holds S l) (newdata : Ptr α) :
    ∃ S', dynstufReplace S i newdata = some (l[i.toNat]?.join, S') ∧
      Holds S' (l.set i.toNat newdata) := by
  rw [dynstufReplace]
  by_cases hi : i < S.items
  · have hlt := h.lt_iff.mp hi
    obtain ⟨S', hput, hS'⟩ := h.put hlt newdata
    refine ⟨S', ?_, hS'⟩
    rw [if_pos hi, h.load hlt, hput, List.getElem?_eq_getElem hlt]
    rfl
  · have hle := Nat.not_lt.mp (mt h.lt_iff.mpr hi)
    refine ⟨S, by rw [if_neg hi, List.getElem?_eq_none hle]; rfl, ?_⟩
    rw [List.set_eq_of_length_le hle]
    exact h

theorem succ_eq (h : Holds S l) (hi : i.toNat < l.length) : (i + 1).toNat = i.toNat + 1 := by
  have hroom := h.room
  have hsmall := h.small
  rw [UInt64.toNat_add, UInt64.toNat_one]
  exact Nat.mod_eq_of_lt (by omega)

theorem visitLoop_eq (h : Holds S l) {turns : ℕ} (hturns : l.length ≤ i.toNat + turns) :
    visitLoop S turns i = some (l.drop i.toNat) := by
  induction turns generalizing i with
  | zero =>
    rw [Nat.add_zero] at hturns
    rw [visitLoop, List.drop_of_length_le hturns]
  | succ turns ih =>
    rw [visitLoop]
    by_cases hi : i < S.items
    · have hlt := h.lt_iff.mp hi
      have hsucc := succ_eq h hlt
      rw [if_pos hi, h.load hlt, Option.bind_some, ih (by omega), hsucc,
        List.drop_eq_getElem_cons hlt]
      rfl
    · rw [if_neg hi, List.drop_of_length_le (Nat.not_lt.mp (mt h.lt_iff.mpr hi))]

theorem visit_eq (h : Holds S l) : visitLoop S S.items.toNat 0 = some l :=
  visitLoop_eq h (by rw [h.items]; exact Nat.le_add_left _ _)

theorem findLoop_eq (h : Holds S l) (key : κ) (cmp : Ptr α → κ → ℤ) (turns : ℕ)
    (hturns : l.length ≤ i.toNat + turns) :
    ∃ n, findLoop S key cmp turns i = some n ∧ n.toNat = min l.length
      (i.toNat + (l.drop i.toNat).findIdx fun p => cmp p key = 0) := by
  have hend : l.length ≤ i.toNat → S.items.toNat = min l.length
      (i.toNat + (l.drop i.toNat).findIdx fun p => cmp p key = 0) := by
    intro hle
    rw [h.items, Nat.min_eq_left (Nat.le_add_right_of_le hle)]
  induction turns generalizing i with
  | zero => exact ⟨S.items, rfl, hend hturns⟩
  | succ turns ih =>
    rw [findLoop]
    by_cases hi : i < S.items
    · have hlt := h.lt_iff.mp hi
      have hsucc := succ_eq h hlt
      rw [if_pos hi, h.load hlt, Option.bind_some, List.drop_eq_getElem_cons hlt,
        List.findIdx_cons]
      by_cases hmatch : cmp l[i.toNat] key = 0
      · refine ⟨i, if_pos hmatch, ?_⟩
        simp only [hmatch, decide_true, cond_true]
        omega
      · rw [if_neg hmatch]
        obtain ⟨n, hn, heq⟩ := ih (i := i + 1) (by omega) fun hle => by
          rw [h.items, Nat.min_eq_left (Nat.le_add_right_of_le hle)]
        refine ⟨n, hn, ?_⟩
        rw [heq, hsucc]
        simp only [hmatch, decide_false, cond_false]
        omega
    · rw [if_neg hi]
      exact ⟨S.items, rfl, hend (Nat.not_lt.mp (mt h.lt_iff.mpr hi))⟩

theorem sort_eq (h : Holds S l) {qsort : Qsort α} (hq : Sorts qsort) (cmp : Ptr α → Ptr α → ℤ)
    (ho : Orders cmp l) :
    ∃ S', dynstufSort qsort cmp S = some S' ∧ Holds S' (qsort cmp l) := by
  obtain ⟨free, harray⟩ := h.array
  have hlen := (hq cmp l ho).1.length_eq
  have hdrop : S.array.drop S.items.toNat = free := by
    rw [harray, h.items, ← List.length_map (f := some), List.drop_left]
  have hafter : (S.stuf.map fun b => (qsort cmp l).map some ++ b.drop S.items.toNat).getD [] =
      (qsort cmp l).map some ++ free := by
    rw [← hdrop]
    cases hs : S.stuf with
    | some b => simp [Dynstuf.array, hs]
    | none =>
      have hnil : S.array = [] := by rw [Dynstuf.array, hs]; rfl
      have hl : l = [] := by
        rw [hnil] at harray
        exact List.map_eq_nil_iff.mp (List.append_eq_nil_iff.mp harray.symm).1
      subst hl
      simp [hnil, List.eq_nil_of_length_eq_zero hlen]
  refine ⟨_, congrArg (Option.map _) (visit_eq h), ⟨free, hafter⟩, ?_, ?_, h.small⟩
  · have hslots := h.slots
    rw [harray, List.length_append, List.length_map] at hslots
    refine (congrArg List.length hafter).trans ?_
    rw [List.length_append, List.length_map, hlen]
    exact hslots
  · rw [hlen]
    exact h.items

end

/-! ## Turning it around -/

section
variable {a b : UInt64}

theorem swap_at (pre mid post : Places α) (x y : Ptr α) (ha : a.toNat = pre.length)
    (hb : b.toNat = pre.length + 1 + mid.length) :
    swap (pre ++ some x :: (mid ++ some y :: post)) a b =
      some (pre ++ some y :: (mid ++ some x :: post)) := by
  have hsplit : ∀ z : Ptr α, pre ++ some z :: (mid ++ some y :: post) =
      (pre ++ some z :: mid) ++ some y :: post := by simp
  have hlen : ∀ z : Ptr α, (pre ++ some z :: mid).length = b.toNat := by
    intro z
    rw [hb, List.length_append, List.length_cons]
    omega
  have hx : load (pre ++ some x :: (mid ++ some y :: post)) a = some x := by
    rw [load, ha, Inplace.get_at]
    rfl
  have hy : load (pre ++ some x :: (mid ++ some y :: post)) b = some y := by
    rw [load, hsplit, ← hlen x, Inplace.get_at]
    rfl
  rw [swap, hx, Option.bind_some, hy, Option.bind_some, ha, Inplace.store_at, Option.bind_some,
    hsplit, ← hlen y, Inplace.store_at]
  simp

/-- The part between the two indices is turned around, from its ends to its middle. -/
theorem reverseLoop_eq (mid : List (Ptr α)) (pre post : Places α) {n : ℕ}
    (ha : a.toNat = pre.length) (hb : b.toNat + 1 = pre.length + mid.length)
    (hn : mid.length ≤ n) :
    reverseLoop n (pre ++ (mid.map some ++ post)) a b =
      some (pre ++ (mid.reverse.map some ++ post)) := by
  induction mid using List.bidirectionalRec generalizing pre post n a b with
  | nil =>
    cases n with
    | zero => rfl
    | succ n =>
      rw [List.length_nil] at hb
      rw [reverseLoop, if_neg (by rw [UInt64.lt_iff_toNat_lt]; omega)]
      rfl
  | singleton x =>
    cases n with
    | zero => rfl
    | succ n =>
      rw [List.length_singleton] at hb
      rw [reverseLoop, if_neg (by rw [UInt64.lt_iff_toNat_lt]; omega)]
      rfl
  | cons_append x mid y ih =>
    cases n with
    | zero => exact absurd hn (Nat.not_succ_le_zero _)
    | succ n =>
      simp only [List.length_cons, List.length_append, List.length_nil] at hb hn
      have hlt := b.toNat_lt
      have hnext : (a + 1).toNat = (pre ++ [some y]).length := by
        rw [UInt64.toNat_add, UInt64.toNat_one, ha, List.length_append]
        exact Nat.mod_eq_of_lt (by omega)
      have hprev : (b - 1).toNat = b.toNat - 1 :=
        UInt64.toNat_sub_of_le b 1 (by rw [UInt64.le_iff_toNat_le, UInt64.toNat_one]; omega)
      have hrest := ih (a := a + 1) (b := b - 1) (n := n) (pre ++ [some y])
        (some x :: post) hnext (by rw [hprev, List.length_append, List.length_singleton]; omega)
        (by omega)
      have hswap := swap_at pre (mid.map some) post x y ha (b := b)
        (by rw [List.length_map]; omega)
      have hsplit : pre ++ ((x :: (mid ++ [y])).map some ++ post) =
          pre ++ some x :: (mid.map some ++ some y :: post) := by simp
      rw [reverseLoop, if_pos (by rw [UInt64.lt_iff_toNat_lt]; omega), hsplit, hswap,
        Option.bind_some]
      simpa using hrest

theorem reverse_eq {S : Dynstuf α} {l : List (Ptr α)} (h : Holds S l) :
    ∃ S', dynstufReverse S = some S' ∧ Holds S' l.reverse := by
  rw [dynstufReverse]
  by_cases hfew : S.items < 2
  · rw [if_pos hfew]
    rw [UInt64.lt_iff_toNat_lt, h.items] at hfew
    have hsame : l.reverse = l := by
      match l, hfew with
      | [], _ => rfl
      | [p], _ => rfl
    exact ⟨S, rfl, hsame.symm ▸ h⟩
  · rw [if_neg hfew]
    rw [UInt64.lt_iff_toNat_lt, h.items] at hfew
    have htwo : 2 ≤ l.length := Nat.not_lt.mp hfew
    obtain ⟨free, harray⟩ := h.array
    have hlast := h.last (List.length_pos_iff.mp (by omega))
    have hloop := reverseLoop_eq (a := 0) (b := S.items - 1) l [] free rfl
      (by rw [hlast, List.length_nil]; omega) (Nat.le_of_eq h.items.symm)
    rw [List.nil_append, ← harray] at hloop
    refine ⟨_, congrArg (Option.map _) hloop, ⟨free, rfl⟩, ?_, ?_, h.small⟩
    · have hslots := h.slots
      rw [harray] at hslots
      rw [← hslots]
      simp [Dynstuf.array]
    · rw [List.length_reverse]
      exact h.items

end

/-! ## Runs -/

section
variable {S : Dynstuf α} {l : List (Ptr α)} {qsort : Qsort α}

theorem apply_does (hq : Sorts qsort) (h : Holds S l) (op : Op α κ)
    (ho : ∀ cmp, op = .sort cmp → Orders cmp l) :
    ∃ r S' l', apply qsort S op = some (r, S') ∧ Does l op r l' ∧ Holds S' l' := by
  cases op with
  | push got data =>
    obtain ⟨r, S', l', hpush, hS', hdoes⟩ := push_cases h got data
    exact ⟨.code r, S', l', congrArg (Option.map _) hpush, hdoes, hS'⟩
  | pop =>
    obtain ⟨S', hpop, hS'⟩ := pop_eq h
    exact ⟨_, S', _, congrArg (Option.map _) hpop, ⟨rfl, rfl⟩, hS'⟩
  | peek => exact ⟨_, S, l, congrArg (Option.map _) (peek_eq h), ⟨rfl, rfl⟩, h⟩
  | get slot => exact ⟨_, S, l, congrArg (Option.map _) (get_eq h), ⟨rfl, rfl⟩, h⟩
  | set slot data =>
    obtain ⟨S', hset, hS'⟩ := set_eq (i := slot) h data
    exact ⟨_, S', _, congrArg (Option.map _) hset, ⟨rfl, rfl⟩, hS'⟩
  | replace slot newdata =>
    obtain ⟨S', hreplace, hS'⟩ := replace_eq (i := slot) h newdata
    exact ⟨_, S', _, congrArg (Option.map _) hreplace, ⟨rfl, rfl⟩, hS'⟩
  | find slot key cmp =>
    obtain ⟨n, hn, heq⟩ := findLoop_eq (i := slot) h key cmp S.items.toNat
      (by rw [h.items]; exact Nat.le_add_left _ _)
    exact ⟨_, S, l, congrArg (Option.map _) hn, ⟨⟨n, rfl, heq⟩, rfl⟩, h⟩
  | reverse =>
    obtain ⟨S', hreverse, hS'⟩ := reverse_eq h
    exact ⟨_, S', _, congrArg (Option.map _) hreverse, ⟨rfl, rfl⟩, hS'⟩
  | sort cmp =>
    have horder := ho cmp rfl
    obtain ⟨S', hsort, hS'⟩ := sort_eq h hq cmp horder
    exact ⟨_, S', _, congrArg (Option.map _) hsort, ⟨rfl, hq cmp l horder⟩, hS'⟩
  | visit => exact ⟨_, S, l, congrArg (Option.map _) (visit_eq h), ⟨rfl, rfl⟩, h⟩
  | items => exact ⟨_, S, l, rfl, ⟨⟨S.items, rfl, h.items⟩, rfl⟩, h⟩

theorem applyAll_does (hq : Sorts qsort) (h : Holds S l) (ops : List (Op α κ))
    (ho : ∀ cmp, .sort cmp ∈ ops → ∀ l, Orders cmp l) :
    ∃ rs S' l', applyAll qsort S ops = some (rs, S') ∧ DoesAll l ops rs l' ∧ Holds S' l' := by
  induction ops generalizing S l with
  | nil => exact ⟨[], S, l, rfl, .nil l, h⟩
  | cons op ops ih =>
    obtain ⟨r, T, m, happly, hdoes, hT⟩ := apply_does hq h op
      fun cmp hop => ho cmp (hop ▸ List.mem_cons_self) l
    obtain ⟨rs, S', l', hall, hdoesAll, hS'⟩ := ih hT fun cmp hmem =>
      ho cmp (List.mem_cons_of_mem op hmem)
    refine ⟨r :: rs, S', l', ?_, .cons hdoes hdoesAll, hS'⟩
    rw [applyAll, happly, Option.bind_some, hall]
    rfl

theorem new_holds {gotNew got : Bool} (h : dynstufNew gotNew got = some S) : Holds S [] := by
  rw [dynstufNew] at h
  split at h
  · rw [dynstufInit] at h
    rcases grow_cases holds_empty got with ⟨T, hgrow, hT, -⟩ | ⟨hgrow, -⟩
    · rw [hgrow] at h
      exact Option.some.inj h ▸ hT
    · rw [hgrow] at h
      cases h
  · cases h

/-- A run of operations on a new container is a run on a list: nothing is read or stored outside
the array, and nothing is read that has not been stored. -/
theorem container_list (hq : Sorts qsort) (gotNew got : Bool)
    (hnew : dynstufNew gotNew got = some S) (ops : List (Op α κ))
    (ho : ∀ cmp, .sort cmp ∈ ops → ∀ l, Orders cmp l) :
    ∃ rs S' l', applyAll qsort S ops = some (rs, S') ∧ DoesAll [] ops rs l' ∧ Holds S' l' ∧
      ∀ freeData, dynstufFree S' freeData = some (if freeData then l' else []) := by
  obtain ⟨rs, S', l', hall, hdoes, hS'⟩ := applyAll_does hq (new_holds hnew) ops ho
  refine ⟨rs, S', l', hall, hdoes, hS', fun freeData => ?_⟩
  rw [dynstufFree, visit_eq hS']
  cases freeData <;> rfl

/-- The order of two numbers -/
def cmpNat (a b : Ptr ℕ) : ℤ := a.getD 0 - b.getD 0

theorem container_list_three : ∃ rs S' l',
    applyAll mergeQsort (⟨some [none, none], 2, 0⟩ : Dynstuf ℕ) ([.push true (some 3),
      .push false (some 1), .push false (some 2), .sort cmpNat, .reverse, .pop] : List (Op ℕ ℕ)) =
        some (rs, S') ∧
    DoesAll [] ([.push true (some 3), .push false (some 1), .push false (some 2), .sort cmpNat,
      .reverse, .pop] : List (Op ℕ ℕ)) rs l' ∧ Holds S' l' ∧
    ∀ freeData, dynstufFree S' freeData = some (if freeData then l' else []) := by
  refine container_list mergeQsort_sorts true true (by decide) _ ?_
  intro cmp hcmp l
  have heq : cmp = cmpNat := by simpa using hcmp
  subst heq
  constructor
  · intro a _ b _
    simp only [cmpNat]
    omega
  · intro a _ b _ c _ hab hbc
    simp only [cmpNat] at hab hbc ⊢
    omega

end

end Perp.Dynstufs
