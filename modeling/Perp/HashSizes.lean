import Mathlib.Algebra.BigOperators.Group.Finset.Basic
import Mathlib.Algebra.BigOperators.Ring.Finset
import Mathlib.Algebra.Order.BigOperators.Group.Finset
import Mathlib.Data.Finset.Lattice.Fold
import Mathlib.Order.Lattice.Nat
import Perp.HashCopy

set_option autoImplicit false

/-!
# The sizes of a finished database

What `cdbmk_finish()` computes in 32 bits, beside the same sums without a bound.
-/
namespace Perp.HashSizes
open Pkt ByteImage IoqPut HashFile CdbFormat HdbFormat HashImage HashAdded HashTables HashFinish
  CdbExact HdbExact HashCopy
open scoped BigOperators

/-! ## The generators -/

def cdbGenerator (d : Fd) (mem : List Bool) (recs : List Rec) : Except Stop Mk := do
  let m ← returned (cdbmkInit d mem)
  recs.foldlM (fun m r => returned (cdbmkAdd m r.1 r.2)) m

def hdbGenerator (d : Fd) (mem : List Bool) (comment : List UInt8) (recs : List Rec) :
    Except Stop Hdbmk := do
  let m ← returned (hdbmkStart d mem comment)
  recs.foldlM (fun m r => returned (hdbmkAdd m r.1 r.2)) m

/-! ## Without a bound -/

section exact
variable (F : Format) (n : ℕ → ℕ)

/-- The number of records of the subtable `i` -/
def countOf (recs : List Rec) (i : ℕ) : ℕ := recs.countP fun r => F.ntab (F.hash r.1) = i

/-- The slots of the subtables before `i` -/
def slotsBefore (i : ℕ) : ℕ := ∑ j ∈ Finset.range i, 2 * n j

/-- Those of them that are in the list `l` -/
def listBefore (l i : ℕ) : ℕ := ∑ j ∈ Finset.range i with F.nlist j = l, 2 * n j

/-- `sum` in section H, before the list `l` -/
def listSum (m : Mk) : ℕ → ℕ
  | 0 => 0
  | l + 1 => (listSum m l + listSlots F m l F.ntabs) % 2 ^ 32

/-- With `n` records in its subtables, everything that the generator computes of their
sizes is as it is without a bound. -/
structure Exact (m : Mk) : Prop where
  slots : ∀ i, i < F.ntabs → 2 * n i < 2 ^ 32 ∧ slots m i = 2 * n i
  offsets : ∀ i, i < F.ntabs → m.fp + 8 * slotsBefore n i < 2 ^ 32 ∧
    m.fp % 2 ^ 32 + offset m i = m.fp + 8 * slotsBefore n i
  eof : m.fp + 8 * slotsBefore n F.ntabs < 2 ^ 32
  lists : ∀ l, l < F.nlists → listSlots F m l F.ntabs * 8 % 2 ^ 32 = 8 * listBefore F n l F.ntabs
  alloc : listMax F m * 8 % 2 ^ 32 =
    8 * (Finset.range F.nlists).sup fun l => listBefore F n l F.ntabs
  index : ∀ i, i < F.ntabs → ∀ target, target < 2 * n i →
    (offset m i + 2 ^ 32 - listSum F m (F.nlist i) * 8 % 2 ^ 32) % 2 ^ 32 +
      target * 8 % 2 ^ 32 = 8 * (listBefore F n (F.nlist i) i + target)

/-- A return of 0 only with sizes that are exact, and a return of -1 when the end of
the file is beyond 32 bits, however the calls go. -/
def SizesHold (finish : Mk → Except Stop Fd) (m : Mk) : Prop :=
  ∀ writes seeks mem,
    ((∃ d, finish (onCalls m writes seeks mem) = .ok d) → Exact F n (onCalls m writes seeks mem)) ∧
      (2 ^ 32 ≤ m.fp + 8 * slotsBefore n F.ntabs →
        finish (onCalls m writes seeks mem) = .error .failed)

/-- The end of the file fits, or one of the two sums that are checked does not, of
numbers that are taken in 32 bits before. -/
def FitsOrRefused (fp : ℕ) : Prop :=
  fp + 8 * slotsBefore n F.ntabs < 2 ^ 32 ∨
    2 ^ 32 ≤ ∑ i ∈ Finset.range F.ntabs, 8 * (2 * n i) % 2 ^ 32 ∨
    2 ^ 32 ≤ fp + 8 * slotsBefore n F.ntabs % 2 ^ 32

end exact

/-! ## In 32 bits -/

section wrapped
variable (F : Format) (n : ℕ → ℕ) (m : Mk)

theorem slotsBefore_succ (i : ℕ) : slotsBefore n (i + 1) = slotsBefore n i + 2 * n i :=
  Finset.sum_range_succ _ i

theorem listBefore_succ (l i : ℕ) :
    listBefore F n l (i + 1) = listBefore F n l i + if F.nlist i = l then 2 * n i else 0 := by
  simp only [listBefore, Finset.sum_filter, Finset.sum_range_succ]

theorem slots_mul (i : ℕ) : slots m i * 8 % 2 ^ 32 = 8 * (2 * m.subtabCount i) % 2 ^ 32 := by
  unfold slots
  omega

theorem sum_mul (i : ℕ) : sum m i * 8 % 2 ^ 32 = 8 * slotsBefore m.subtabCount i % 2 ^ 32 := by
  induction i with
  | zero => rfl
  | succ i ih =>
    have hslots := slots_mul m i
    rw [sum, slotsBefore_succ]
    omega

/-- The checked sum of the sizes of the tables is that of their remainders. -/
theorem toff_sum (m : Mk) (i : ℕ) :
    toff m i = if ∑ j ∈ Finset.range i, slots m j * 8 % 2 ^ 32 < 2 ^ 32 then
      some (∑ j ∈ Finset.range i, slots m j * 8 % 2 ^ 32) else none := by
  induction i with
  | zero => rfl
  | succ i ih =>
    rw [toff, ih, Finset.sum_range_succ]
    by_cases hlt : ∑ j ∈ Finset.range i, slots m j * 8 % 2 ^ 32 < 2 ^ 32
    · rw [if_pos hlt, Option.bind_some]
      by_cases hsum : ∑ j ∈ Finset.range i, slots m j * 8 % 2 ^ 32 + slots m i * 8 % 2 ^ 32 < 2 ^ 32
      · rw [if_pos hsum]
        exact (ufuncU32add_eq_some hlt).mpr ⟨hsum, rfl⟩
      · rw [if_neg hsum, Option.eq_none_iff_forall_ne_some]
        exact fun v hv => hsum ((ufuncU32add_eq_some hlt).mp hv).1
    · rw [if_neg hlt, if_neg (by omega)]
      rfl

theorem toff_none (i : ℕ) : toff m i = none ↔
    2 ^ 32 ≤ ∑ j ∈ Finset.range i, 8 * (2 * m.subtabCount j) % 2 ^ 32 := by
  rw [toff_sum, Finset.sum_congr rfl fun j _ => slots_mul m j, ← Nat.not_lt]
  split_ifs with hlt
  · exact ⟨fun heq => absurd heq (by simp), fun hno => absurd hlt hno⟩
  · exact ⟨fun _ => hlt, fun _ => rfl⟩

theorem eof_none (i : ℕ) : ufuncU32add (m.fp % 2 ^ 32) (sum m i * 8 % 2 ^ 32) = none ↔
    2 ^ 32 ≤ m.fp % 2 ^ 32 + 8 * slotsBefore m.subtabCount i % 2 ^ 32 := by
  have hfp : m.fp % 2 ^ 32 < 2 ^ 32 := Nat.mod_lt _ (by decide)
  rw [sum_mul, Option.eq_none_iff_forall_ne_some, ← Nat.not_lt]
  constructor
  · intro hnone hlt
    exact hnone _ ((ufuncU32add_eq_some hfp).mpr ⟨hlt, rfl⟩)
  · intro hbig v hv
    exact hbig ((ufuncU32add_eq_some hfp).mp hv).1

end wrapped

section sums
variable {F : Format} {f pre : List UInt8} {off rbase : ℕ} {recs : List Rec} {m : Mk} {l : ℕ}

theorem table_length (F : Format) (rbase : ℕ) (recs : List Rec) (i : ℕ) :
    (table F rbase recs i).length = countOf F recs i := by
  rw [table, ← List.countP_eq_length_filter, countOf]
  conv_rhs => rw [← layout_map_snd F rbase recs, List.countP_map]
  rfl

theorem slotsBefore_eq (F : Format) (rbase : ℕ) (recs : List Rec) (i : ℕ) :
    slotsBefore (countOf F recs) i = 2 * cnt F rbase recs fun j => j < i := by
  induction i with
  | zero => rw [cnt_none F rbase recs (by simp)]; rfl
  | succ i ih =>
    rw [slotsBefore_succ, ih, cnt_lt_succ, cnt_eq, table_length, Nat.mul_add]

theorem listBefore_eq (F : Format) (rbase : ℕ) (recs : List Rec) (l i : ℕ) :
    listBefore F (countOf F recs) l i =
      2 * cnt F rbase recs fun j => j < i && F.nlist j = l := by
  induction i with
  | zero => rw [cnt_none F rbase recs (by simp)]; rfl
  | succ i ih =>
    rw [listBefore_succ, ih]
    by_cases hl : F.nlist i = l
    · rw [if_pos hl, cnt_succ F rbase recs hl, cnt_eq, table_length, Nat.mul_add]
    · rw [if_neg hl, Nat.add_zero, cnt_skip F rbase recs hl]

theorem listSum_eq (hm : Sized F rbase recs m) (heod : rbase ≤ eod F rbase recs) (l : ℕ) :
    listSum F m l = before F rbase recs l := by
  induction l with
  | zero =>
    rw [listSum, before, cnt_none F rbase recs (by simp)]
  | succ l ih =>
    have hle := cnt_le_ntabs F rbase recs fun j => F.nlist j < l + 1
    have hsucc := before_succ F rbase recs l
    have hend := hm.end_lt
    have hbefore : before F rbase recs (l + 1) ≤ 2 * cnt F rbase recs fun j => j < F.ntabs :=
      Nat.mul_le_mul_left 2 hle
    rw [listSum, ih, hm.listSlots, hsucc, Nat.mod_eq_of_lt (by omega)]

theorem slotsBefore_mono (n : ℕ → ℕ) {i j : ℕ} (h : i ≤ j) : slotsBefore n i ≤ slotsBefore n j :=
  Finset.sum_le_sum_of_subset (Finset.range_mono h)

theorem listSlots_before (hm : Sized F rbase recs m) (l : ℕ) :
    listSlots F m l F.ntabs = listBefore F (countOf F recs) l F.ntabs := by
  rw [hm.listSlots, listBefore_eq F rbase, cnt_ntabs F rbase recs fun j => F.nlist j = l]

theorem listBefore_lt (hm : Sized F rbase recs m) (hl : l < F.nlists) :
    8 * listBefore F (countOf F recs) l F.ntabs < 2 ^ 32 := by
  have hlt := hm.list_lt l hl
  rw [← listSlots_before hm, hm.listSlots]
  omega

theorem listMax_sup (F : Format) (m : Mk) :
    listMax F m = (Finset.range F.nlists).sup fun l => listSlots F m l F.ntabs := by
  obtain ⟨-, hle, hex⟩ := foldl_max (fun l => listSlots F m l F.ntabs) (List.range F.nlists) 0
  apply Nat.le_antisymm
  · rcases hex with hzero | ⟨l, hl, heq⟩
    · rw [listMax, hzero]
      exact Nat.zero_le _
    · change listMax F m = listSlots F m l F.ntabs at heq
      rw [heq]
      exact Finset.le_sup (f := fun l => listSlots F m l F.ntabs)
        (Finset.mem_range.mpr (List.mem_range.mp hl))
  · apply Finset.sup_le
    intro l hl
    exact hle l (List.mem_range.mpr (Finset.mem_range.mp hl))

/-- The buffer for the lists has room for the longest of them. -/
theorem alloc_exact (hm : Sized F rbase recs m) : listMax F m * 8 % 2 ^ 32 =
    8 * (Finset.range F.nlists).sup fun l => listBefore F (countOf F recs) l F.ntabs := by
  have hlists : (fun l => listSlots F m l F.ntabs) =
      fun l => listBefore F (countOf F recs) l F.ntabs := funext (listSlots_before hm)
  have hlt : ((Finset.range F.nlists).sup fun l => listBefore F (countOf F recs) l F.ntabs) <
      2 ^ 29 := by
    apply (Finset.sup_lt_iff (by decide)).mpr
    intro l hl
    have := listBefore_lt hm (Finset.mem_range.mp hl)
    omega
  rw [listMax_sup, hlists, Nat.mul_comm]
  exact Nat.mod_eq_of_lt (by omega)

/-- What is added to `tbuf` for a slot is its place in the list. -/
theorem index_exact (h : Added F f off pre rbase recs m) (hm : Sized F rbase recs m) {i target : ℕ}
    (hi : i < F.ntabs) (htarget : target < 2 * countOf F recs i) :
    (offset m i + 2 ^ 32 - listSum F m (F.nlist i) * 8 % 2 ^ 32) % 2 ^ 32 + target * 8 % 2 ^ 32 =
      8 * (listBefore F (countOf F recs) (F.nlist i) i + target) := by
  have hend := hm.end_lt
  have hbase := hm.base (h.fp ▸ h.fp_lt) hi rfl
  have hle := cnt_le_ntabs F rbase recs fun j => F.nlist j < F.nlist i
  have hbef : before F rbase recs (F.nlist i) = 2 * cnt F rbase recs fun j => F.nlist j < F.nlist i :=
    rfl
  have hlt := cnt_le_ntabs F rbase recs fun j => j = i
  rw [cnt_eq, table_length] at hlt
  have hadj : listSum F m (F.nlist i) * 8 % 2 ^ 32 = 8 * before F rbase recs (F.nlist i) := by
    rw [listSum_eq hm (Nat.le_add_right _ _), Nat.mul_comm]
    exact Nat.mod_eq_of_lt (by omega)
  have htgt : target * 8 % 2 ^ 32 = target * 8 := Nat.mod_eq_of_lt (by omega)
  rw [hadj, hbase, htgt, listBefore_eq F rbase, HashFinish.inner]
  omega

/-- Sizes that have not wrapped around are exact. -/
theorem exact_of_sized (h : Added F f off pre rbase recs m) (hm : Sized F rbase recs m) :
    Exact F (countOf F recs) m := by
  have hend := hm.end_lt
  have heof : m.fp + 8 * slotsBefore (countOf F recs) F.ntabs < 2 ^ 32 := by
    rw [slotsBefore_eq F rbase, h.fp]
    omega
  refine
    { slots := fun i hi => ?_
      offsets := fun i hi => ?_
      eof := heof
      lists := fun l hl => ?_
      alloc := alloc_exact hm
      index := fun i hi target htarget => index_exact h hm hi htarget }
  · have hlt := cnt_le_ntabs F rbase recs fun j => j = i
    rw [cnt_eq, table_length] at hlt
    rw [hm.slots, tslotsOf, table_length]
    exact ⟨by omega, rfl⟩
  · have hle := slotsBefore_mono (countOf F recs) (Nat.le_of_lt hi)
    refine ⟨by omega, ?_⟩
    rw [Nat.mod_eq_of_lt h.fp_lt, hm.offset i hi, slotsBefore_eq F rbase]
    omega
  · rw [listSlots_before hm, Nat.mul_comm]
    exact Nat.mod_eq_of_lt (listBefore_lt hm hl)

end sums

/-! ## A return that is not -1 -/

section smooth
variable {F : Format} {m : Mk} {t : Tables} {e : Hashoff} {tbuf : List UInt8}

theorem bind_not {α β ε : Type} {x : Except ε α} {f : α → Except ε β} {bad : ε}
    (hx : x ≠ .error bad) (hf : ∀ a, x = .ok a → f a ≠ .error bad) : x >>= f ≠ .error bad := by
  cases x with
  | error e =>
    intro heq
    obtain rfl := Except.error.inj heq
    exact hx rfl
  | ok a => exact hf a rfl

/-- An error that no step makes from a state with `P` is none of the run. -/
theorem foldlM_not {α β ε : Type} {P : β → Prop} {f : β → α → Except ε β} {bad : ε}
    (hstep : ∀ b x, P b → f b x ≠ .error bad) (hkeep : ∀ b x b', P b → f b x = .ok b' → P b')
    (xs : List α) {b : β} (hb : P b) : xs.foldlM f b ≠ .error bad := by
  induction xs generalizing b with
  | nil => simp [pure, Except.pure]
  | cons x xs ih =>
    rw [List.foldlM_cons]
    exact bind_not (hstep b x hb) fun b' hb' => ih (hkeep b x b' hb hb')

theorem tbufLoop_not (tbase tslots : ℕ) (e : Hashoff) (fuel target : ℕ) :
    tbufLoop tbuf tbase tslots e fuel target ≠ .error .failed := by
  induction fuel generalizing target with
  | zero => simp [tbufLoop]
  | succ fuel ih =>
    unfold tbufLoop
    by_cases hout : tbuf.length < tbase + target * 8 % 2 ^ 32 + 8
    · simp only [if_pos hout]
      simp
    · simp only [if_neg hout]
      by_cases hempty : unpack32 (slice tbuf (tbase + target * 8 % 2 ^ 32 + 4) 4) = 0
      · simp only [if_pos hempty]
        simp
      · rw [if_neg hempty]
        exact ih _

/-- The target of a record is a slot of its subtable. -/
theorem loadRecord_not (m : Mk) (adj : ℕ) (tbuf : List UInt8) (e : Hashoff) :
    loadRecord F m adj tbuf e ≠ .error .failed := by
  unfold loadRecord
  by_cases h0 : slots m (F.ntab e.hash) = 0
  · simp only [if_pos h0]
    simp
  · have hslot := F.slot_lt e.hash _ (Nat.pos_of_ne_zero h0)
    simp only [if_neg h0]
    rw [tbufLoad, if_neg (not_not.mpr hslot)]
    exact tbufLoop_not _ _ _ _ _

theorem writeList_not (hq : Smooth t.q) (l : ℕ) : writeList F m t l ≠ .error .failed := by
  unfold writeList
  by_cases hfits : t.tbuf.length < listSlots F m l F.ntabs * 8 % 2 ^ 32
  · simp only [if_pos hfits]
    simp
  · simp only [if_neg hfits]
    apply bind_not
    · exact @foldlM_not _ _ _ (fun _ => True) _ _ (fun b e _ => loadRecord_not m _ b e)
        (fun _ _ _ _ _ => trivial) _ _ trivial
    · intro tbuf _
      obtain ⟨hput, -⟩ := ioqPut_smooth hq (tbuf.take (listSlots F m l F.ntabs * 8 % 2 ^ 32))
      have hret : returned (ioqPut t.q (tbuf.take (listSlots F m l F.ntabs * 8 % 2 ^ 32))) =
          .ok (ioqPut t.q (tbuf.take (listSlots F m l F.ntabs * 8 % 2 ^ 32))).2 :=
        returned_eq_ok.mpr ⟨by omega, rfl⟩
      rw [hret]
      intro heq
      cases heq

theorem lists_not (hq : Smooth t.q) (ls : List ℕ) :
    ls.foldlM (writeList F m) t ≠ .error .failed := by
  apply @foldlM_not _ _ _ fun t : Tables => Smooth t.q
  · exact fun t l hq => writeList_not hq l
  · intro t l t' hq hl
    obtain ⟨tbuf, -, -, -, rfl⟩ := writeList_ok hl
    exact (ioqPut_smooth hq _).2
  · exact hq

/-- When nothing fails and the sums that are checked fit, the call does not return
-1. -/
theorem finish_not (hq : Smooth m.ioq) (hmem : m.mem = []) (htoff : toff m F.ntabs ≠ none)
    (heof : ufuncU32add (m.fp % 2 ^ 32) (sum m F.ntabs * 8 % 2 ^ 32) ≠ none)
    (head : List (List UInt8)) : finish F head m ≠ .error .failed := by
  cases hlists : (List.range F.nlists).foldlM (writeList F m)
      ⟨List.replicate (listMax F m * 8 % 2 ^ 32) 0, m.ioq, 0⟩ with
  | ok t =>
    obtain ⟨d, hd⟩ := finish_smooth hq hmem (Option.isSome_iff_ne_none.mpr htoff)
      (Option.isSome_iff_ne_none.mpr heof) (by rw [hlists]; rfl) head
    rw [hd]
    simp
  | error e =>
    have hne := @lists_not F m ⟨List.replicate (listMax F m * 8 % 2 ^ 32) 0, m.ioq, 0⟩ hq
      (List.range F.nlists)
    unfold finish
    rw [if_neg htoff, if_neg heof, if_neg (by simp [hmem])]
    exact bind_not hne fun t ht => absurd (hlists.symm.trans ht) (by simp)

end smooth

/-! ## When they hold -/

section hold
variable {F : Format} {f pre : List UInt8} {off rbase : ℕ} {recs : List Rec} {m : Mk}

theorem added_onCalls (h : Added F f off pre rbase recs m) (writes : List WriteRet)
    (seeks mem : List Bool) : Added F f off pre rbase recs (onCalls m writes seeks mem) :=
  ⟨h.fp, h.fp_lt, ⟨h.sent.split⟩, h.lists, h.counts, h.lengths⟩

theorem subtabCount_eq (h : Added F f off pre rbase recs m) : m.subtabCount = countOf F recs := by
  funext i
  rw [h.counts, table_length]

theorem toff_none_iff (h : Added F f off pre rbase recs m) :
    toff m F.ntabs = none ↔
      2 ^ 32 ≤ ∑ i ∈ Finset.range F.ntabs, 8 * (2 * countOf F recs i) % 2 ^ 32 := by
  rw [toff_none, subtabCount_eq h]

theorem eof_none_iff (h : Added F f off pre rbase recs m) :
    ufuncU32add (m.fp % 2 ^ 32) (sum m F.ntabs * 8 % 2 ^ 32) = none ↔
      2 ^ 32 ≤ m.fp + 8 * slotsBefore (countOf F recs) F.ntabs % 2 ^ 32 := by
  rw [eof_none, subtabCount_eq h, Nat.mod_eq_of_lt h.fp_lt]

theorem sizesHold_iff (h : Added F f off pre rbase recs m) (hpos : 0 < rbase)
    (head : Mk → List (List UInt8)) :
    SizesHold F (countOf F recs) (fun m => finish F (head m) m) m ↔
      FitsOrRefused F (countOf F recs) m.fp := by
  constructor
  · intro hall
    by_contra hno
    obtain ⟨hbig, hrest⟩ := not_or.mp hno
    obtain ⟨htoff, heof⟩ := not_or.mp hrest
    have hadded := added_onCalls h [] [] []
    have hfp : (onCalls m [] [] []).fp = m.fp := rfl
    exact finish_not ⟨rfl, rfl⟩ rfl (mt (toff_none_iff hadded).mp htoff)
      (mt (eof_none_iff hadded).mp (hfp ▸ heof)) _ ((hall [] [] []).2 (Nat.not_lt.mp hbig))
  · intro hcond writes seeks mem
    have hadded := added_onCalls h writes seeks mem
    constructor
    · rintro ⟨d, hd⟩
      obtain ⟨htoff, heof, t, hlists, -⟩ := finish_ok hd
      have hm := sized hadded hpos (listMax_lt hadded hpos hlists) htoff heof
      exact exact_of_sized hadded hm
    · intro hbig
      simp only [finish]
      rcases hcond with hfits | htoff | heof
      · omega
      · rw [if_pos ((toff_none_iff hadded).mpr htoff)]
      · rw [if_pos ((eof_none_iff hadded).mpr heof)]
        split_ifs <;> rfl

end hold

section generators
variable {d : Fd} {mem : List Bool} {comment : List UInt8} {recs : List Rec} {m : Mk} {m' : Hdbmk}

theorem cdbGenerator_added (h : cdbGenerator d mem recs = .ok m) :
    Added cdbFormat d.file cdbRbase [] cdbRbase recs m := by
  obtain ⟨m0, hinit, hadds⟩ := bind_eq_ok.mp h
  obtain ⟨hr, rfl⟩ := returned_eq_ok.mp hinit
  apply foldlM_run (P := fun pre m => Added cdbFormat d.file cdbRbase [] cdbRbase pre m) _
    (added_cdbmkInit hr) hadds
  intro pre r post m m' _ hm hadd
  obtain ⟨hret, rfl⟩ := returned_eq_ok.mp hadd
  exact hm.add hret (fun h => Nat.le_sub_one_of_lt h) fun h => Nat.le_sub_one_of_lt h

theorem hdbGenerator_added (h : hdbGenerator d mem comment recs = .ok m') :
    Added hdbFormat d.file hdbCbase comment (hdbRbase comment) recs m'.toMk := by
  obtain ⟨m0, hinit, hadds⟩ := bind_eq_ok.mp h
  obtain ⟨hr, rfl⟩ := returned_eq_ok.mp hinit
  apply foldlM_run
    (P := fun pre m => Added hdbFormat d.file hdbCbase comment (hdbRbase comment) pre m.toMk) _
    (added_hdbmkStart hr).1 hadds
  intro pre r post m m' _ hm hadd
  obtain ⟨hret, rfl⟩ := returned_eq_ok.mp hadd
  exact (added_hdbmkAdd hm hret).1

/-- `hdbmk_finish()` with the `rbase` of a generator -/
def hdbFinishAt (rbase : ℕ) (m : Mk) : Except Stop Fd := hdbmkFinish ⟨m, rbase⟩

/-- Whatever has been added to a generator, the sizes of its tables are exact when it
finishes, and it refuses an end of the file beyond 32 bits, just when that end is
within them or one of the sums that are checked is not. -/
theorem finish_sizes_iff (d : Fd) (mem : List Bool) (comment : List UInt8) (recs : List Rec) :
    (∀ m, cdbGenerator d mem recs = .ok m →
      (SizesHold cdbFormat (countOf cdbFormat recs) cdbmkFinish m ↔
        FitsOrRefused cdbFormat (countOf cdbFormat recs) m.fp)) ∧
      ∀ m : Hdbmk, hdbGenerator d mem comment recs = .ok m →
        (SizesHold hdbFormat (countOf hdbFormat recs) (hdbFinishAt m.rbase) m.toMk ↔
          FitsOrRefused hdbFormat (countOf hdbFormat recs) m.fp) := by
  constructor
  · intro m h
    exact sizesHold_iff (cdbGenerator_added h) (by decide) cdbHead
  · intro m h
    have hpos : 0 < hdbRbase comment := Nat.lt_of_lt_of_le (by decide) (Nat.le_add_right hdbCbase _)
    exact sizesHold_iff (hdbGenerator_added h) hpos fun m' => hdbHead ⟨m', m.rbase⟩

theorem finish_sizes_iff_comment :
    (SizesHold cdbFormat (countOf cdbFormat []) cdbmkFinish (cdbmkInit newFd []).2 ↔
      FitsOrRefused cdbFormat (countOf cdbFormat []) 2048) ∧
      (SizesHold hdbFormat (countOf hdbFormat []) (hdbFinishAt 95)
          (hdbmkStart newFd [] someComment).2.toMk ↔
        FitsOrRefused hdbFormat (countOf hdbFormat []) 95) :=
  ⟨(finish_sizes_iff newFd [] someComment []).1 _ rfl,
    (finish_sizes_iff newFd [] someComment []).2 (hdbmkStart newFd [] someComment).2 rfl⟩

end generators

/-! ## Two hundred million records and more -/

section many
variable {F : Format} {m : Mk} {f out : List UInt8} {off : ℕ}

theorem update_mem (hmem : m.mem = []) (hash : UInt32) (rpos fpUp : ℕ) :
    (update F m hash rpos fpUp).2.mem = [] := by
  have hroomy : ∀ blocks, (roomy F m.mem blocks).2 = [] := by
    intro blocks
    rw [hmem]
    cases blocks with
    | nil => rfl
    | cons block blocks =>
      rw [roomy]
      split_ifs <;> rfl
  have hmem' := hroomy (m.inputList (F.nlist (F.ntab hash)))
  unfold update
  simp only
  generalize roomy F m.mem (m.inputList (F.nlist (F.ntab hash))) = res at hmem'
  obtain ⟨r, mem⟩ := res
  cases r with
  | none => exact hmem'
  | some r => exact hmem'

/-- A generator whose calls do not fail, at `fp` -/
structure Ready (m : Mk) (fp : ℕ) : Prop where
  smooth : Smooth m.ioq
  mem : m.mem = []
  fp : m.fp = fp

theorem Ready.add {fp : ℕ} {r : Rec} (h : Ready m fp) (hfits : fp + size F r < 2 ^ 32) :
    (add F m r.1 r.2).1 = 0 ∧ Ready (add F m r.1 r.2).2 (fp + size F r) := by
  have hfp := h.fp
  have hret := (add_smooth h.smooth h.mem (by rw [Nat.mod_eq_of_lt (by omega)]; omega)
    (sent_self m.ioq) : (HashFile.add F m r.1 r.2).1 = 0 ∧ _).1
  obtain ⟨q, hlt, -, hq, heq⟩ := @add_spec F m r.1 r.2 (by omega) (by omega)
  have hsmooth := (puts_smooth h.smooth [header F r, r.1, r.2]).2
  have hup := @update_spec F { m with ioq := q } (F.hash r.1) m.fp (m.fp + size F r)
    (by rw [← heq]; omega)
  rw [heq]
  refine ⟨heq ▸ hret, ?_, @update_mem F { m with ioq := q } h.mem _ _ _, ?_⟩
  · rw [hup.ioq, hq]
    exact hsmooth
  · rw [hup.fp, h.fp]

theorem cdbGenerator_exists {recs : List Rec} {fp : ℕ} (h : Ready m fp)
    (hfits : eod cdbFormat fp recs < 2 ^ 32) :
    ∃ m', recs.foldlM (fun m r => returned (cdbmkAdd m r.1 r.2)) m = .ok m' ∧
      Ready m' (eod cdbFormat fp recs) := by
  induction recs generalizing m fp with
  | nil => exact ⟨m, rfl, by simpa [eod] using h⟩
  | cons r recs ih =>
    rw [eod_cons] at hfits ⊢
    have hle : fp + size cdbFormat r ≤ eod cdbFormat (fp + size cdbFormat r) recs :=
      Nat.le_add_right _ _
    obtain ⟨hret, hready⟩ := @Ready.add cdbFormat m fp r h (by omega)
    obtain ⟨m', hrun, hm'⟩ := ih hready hfits
    have hadd : returned (cdbmkAdd m r.1 r.2) = .ok (cdbmkAdd m r.1 r.2).2 :=
      returned_eq_ok.mpr ⟨by rw [cdbmkAdd]; omega, rfl⟩
    rw [List.foldlM_cons, hadd]
    exact ⟨m', hrun, hm'⟩

/-- `n` records with an empty key and no data -/
def emptyRecords (n : ℕ) : List Rec := List.replicate n ([], [])

theorem eod_empty (fp n : ℕ) : eod cdbFormat fp (emptyRecords n) = fp + n * 8 := by
  rw [eod, emptyRecords, List.map_replicate, List.sum_replicate]
  rfl

theorem countOf_empty (F : Format) (n i : ℕ) :
    countOf F (emptyRecords n) i = if F.ntab (F.hash []) = i then n else 0 := by
  rw [countOf, emptyRecords, List.countP_replicate]
  simp

theorem slotsBefore_all (F : Format) (recs : List Rec) :
    slotsBefore (countOf F recs) F.ntabs = 2 * recs.length := by
  rw [slotsBefore_eq F 0, cnt_all]

/-- 2^28 records of one subtable: the size of its table is 0 in 32 bits. -/
theorem not_fitsOrRefused {n : ℕ} (hn : n = 2 ^ 28) :
    ¬ FitsOrRefused cdbFormat (countOf cdbFormat (emptyRecords n)) (2048 + n * 8) := by
  have hlen : (emptyRecords n).length = n := List.length_replicate
  have hzero : ∑ i ∈ Finset.range cdbFormat.ntabs,
      8 * (2 * countOf cdbFormat (emptyRecords n) i) % 2 ^ 32 = 0 := by
    apply Finset.sum_eq_zero
    intro i _
    rw [countOf_empty]
    split_ifs <;> omega
  rw [FitsOrRefused, hzero, slotsBefore_all, hlen]
  omega

theorem cdbGenerator_empty {n : ℕ} (hn : 2048 + n * 8 < 2 ^ 32) :
    ∃ m, cdbGenerator newFd [] (emptyRecords n) = .ok m ∧ m.fp = 2048 + n * 8 := by
  have hready : Ready (cdbmkInit newFd []).2 2048 := ⟨⟨rfl, rfl⟩, rfl, rfl⟩
  obtain ⟨m, hrun, hm⟩ := @cdbGenerator_exists _ (emptyRecords n) 2048 hready
    (by rwa [eod_empty])
  exact ⟨m, hrun, hm.fp.trans (eod_empty 2048 n)⟩

/-- A generator takes them, and does not refuse them when it finishes. -/
theorem finish_wraps : ∃ n m, cdbGenerator newFd [] (emptyRecords n) = .ok m ∧
    2 ^ 32 ≤ m.fp + 8 * slotsBefore (countOf cdbFormat (emptyRecords n)) cdbFormat.ntabs ∧
    cdbmkFinish (onCalls m [] [] []) ≠ .error .failed ∧
    ¬ SizesHold cdbFormat (countOf cdbFormat (emptyRecords n)) cdbmkFinish m := by
  obtain ⟨n, hn⟩ : ∃ n, n = 2 ^ 28 := ⟨_, rfl⟩
  obtain ⟨m, hgen, hfp⟩ := @cdbGenerator_empty n (by omega)
  have hadded := cdbGenerator_added hgen
  have hnot := not_fitsOrRefused hn
  rw [← hfp] at hnot
  obtain ⟨hbig, hrest⟩ := not_or.mp hnot
  obtain ⟨htoff, heof⟩ := not_or.mp hrest
  have hpos : 0 < cdbRbase := by decide
  refine ⟨n, m, hgen, Nat.not_lt.mp hbig, ?_, ?_⟩
  · have hcalls := added_onCalls hadded [] [] []
    exact finish_not ⟨rfl, rfl⟩ rfl (mt (toff_none_iff hcalls).mp htoff)
      (mt (eof_none_iff hcalls).mp heof) _
  · exact mt (sizesHold_iff hadded hpos cdbHead).mp hnot

end many

end Perp.HashSizes
