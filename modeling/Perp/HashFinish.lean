import Perp.HashTables

set_option autoImplicit false

/-!
# Writing the hash tables

`cdbmk_finish()` from the loading of one slot to the file it leaves.
-/
namespace Perp.HashFinish
open Pkt ByteImage IoqPut HashFile OpenTable HashImage HashAdded HashTables

/-! ## One slot -/

/-- The 8 bytes of a slot that is taken -/
def slotBytes (e : Hashoff) : List UInt8 := upak32Pack e.hash ++ pack32 e.rpos

section slot
variable {tbuf tbuf' b bytes : List UInt8} {e : Hashoff} {n o s : ℕ}

theorem bufWrite_eq_pwrite (hs : s ≤ tbuf.length) (hne : bytes ≠ []) :
    bufWrite tbuf s bytes = pwrite tbuf s bytes := by
  rw [bufWrite, pwrite, if_neg hne, List.take_append_of_le_length hs]

theorem bufWrite_at (hs : s + bytes.length ≤ tbuf.length) : At (bufWrite tbuf s bytes) s bytes := by
  by_cases hne : bytes = []
  · rw [hne]
    exact at_nil _ _
  · rw [bufWrite_eq_pwrite (by omega) hne]
    exact pwrite_at _ _ _

theorem bufWrite_frame (hs : s + bytes.length ≤ tbuf.length)
    (ho : o + b.length ≤ s ∨ s + bytes.length ≤ o) (h : At tbuf o b) :
    At (bufWrite tbuf s bytes) o b := by
  by_cases hne : bytes = []
  · simpa [bufWrite, hne] using h
  · rw [bufWrite_eq_pwrite (by omega) hne]
    rcases ho with hbefore | hafter
    · exact pwrite_before hbefore h
    · exact pwrite_after hafter h

theorem slice_getElem? (tbuf : List UInt8) (o n x : ℕ) :
    (slice tbuf o n)[x]? = if x < n then tbuf[o + x]? else none := by
  rw [slice, List.getElem?_take]
  split_ifs with h
  · exact List.getElem?_drop
  · rfl

theorem slice_bufWrite (hs : s + b.length ≤ tbuf.length) (ho : o + n ≤ s ∨ s + b.length ≤ o) :
    slice (bufWrite tbuf s b) o n = slice tbuf o n := by
  apply List.ext_getElem?
  intro x
  rw [slice_getElem?, slice_getElem?]
  by_cases hx : x < n
  · have hlen : (tbuf.take s).length = s := by
      rw [List.length_take]
      omega
    rw [if_pos hx, if_pos hx, bufWrite]
    rcases ho with hbefore | hafter
    · rw [List.append_assoc, List.getElem?_append_left (by omega), List.getElem?_take,
        if_pos (by omega)]
    · have hlen' : (tbuf.take s ++ b).length = s + b.length := by
        rw [List.length_append, hlen]
      rw [List.getElem?_append_right (by omega), List.getElem?_drop, hlen']
      congr 1
      omega
  · rw [if_neg hx, if_neg hx]

/-- The slots of `tbuf` that are taken -/
def used (tbuf : List UInt8) : Finset ℕ :=
  (Finset.range (tbuf.length / 8)).filter fun i => unpack32 (slice tbuf (8 * i + 4) 4) ≠ 0

/-- Taking an empty slot -/
theorem used_bufWrite {k : ℕ} (hk : 8 * k + 8 ≤ tbuf.length)
    (hempty : unpack32 (slice tbuf (8 * k + 4) 4) = 0) (hpos : 0 < e.rpos)
    (hlt : e.rpos < 2 ^ 32) :
    (bufWrite tbuf (8 * k) (slotBytes e)).length = tbuf.length ∧
      (used (bufWrite tbuf (8 * k) (slotBytes e))).card = (used tbuf).card + 1 := by
  have hlen : (bufWrite tbuf (8 * k) (slotBytes e)).length = tbuf.length := bufWrite_length hk
  refine ⟨hlen, ?_⟩
  have hset : used (bufWrite tbuf (8 * k) (slotBytes e)) = insert k (used tbuf) := by
    ext i
    simp only [used, hlen, Finset.mem_filter, Finset.mem_range, Finset.mem_insert]
    by_cases hik : i = k
    · subst hik
      have hat := (at_append.mp (@bufWrite_at tbuf (slotBytes e) (8 * i) hk)).2
      have hslice : slice (bufWrite tbuf (8 * i) (slotBytes e)) (8 * i + 4) 4 = pack32 e.rpos :=
        hat.slice_eq
      have hunpack := unpack32_pack e.rpos hlt []
      rw [List.append_nil] at hunpack
      rw [hslice, hunpack]
      omega
    · have hframe : 8 * i + 4 + 4 ≤ 8 * k ∨ 8 * k + 8 ≤ 8 * i + 4 := by omega
      have hout : slice (bufWrite tbuf (8 * k) (slotBytes e)) (8 * i + 4) 4 =
          slice tbuf (8 * i + 4) 4 := slice_bufWrite hk hframe
      rw [hout, or_iff_right hik]
  have hnot : k ∉ used tbuf := by
    simp [used, hempty]
  rw [hset, Finset.card_insert_of_notMem hnot]

theorem tbufLoop_ok {tbase T fuel target : ℕ} (h : tbufLoop tbuf tbase T e fuel target = .ok tbuf') :
    ∃ t, tbase + t * 8 % 2 ^ 32 + 8 ≤ tbuf.length ∧
      unpack32 (slice tbuf (tbase + t * 8 % 2 ^ 32 + 4) 4) = 0 ∧
      tbuf' = bufWrite tbuf (tbase + t * 8 % 2 ^ 32) (slotBytes e) := by
  induction fuel generalizing target with
  | zero => cases h
  | succ fuel ih =>
    unfold tbufLoop at h
    simp only at h
    split at h
    · cases h
    · next hfits =>
      split at h
      · next hempty => exact ⟨target, by omega, hempty, (Except.ok.inj h).symm⟩
      · exact ih h

end slot

section load
variable {F : Format} {m : Mk} {tbuf tbuf' : List UInt8} {adj : ℕ} {es : List Hashoff}

theorem loadRecord_used {e : Hashoff} (hadj : adj % 8 = 0)
    (hpos : 0 < e.rpos) (hlt : e.rpos < 2 ^ 32) (h : loadRecord F m adj tbuf e = .ok tbuf') :
    tbuf'.length = tbuf.length ∧ (used tbuf').card = (used tbuf).card + 1 := by
  unfold loadRecord at h
  simp only at h
  split at h
  · cases h
  · unfold tbufLoad at h
    split at h
    · cases h
    · obtain ⟨t, hfits, hempty, rfl⟩ := tbufLoop_ok h
      have hoff := offset_dvd m (F.ntab e.hash)
      obtain ⟨k, hk⟩ : ∃ k, (offset m (F.ntab e.hash) + 2 ^ 32 - adj) % 2 ^ 32 + t * 8 % 2 ^ 32 =
          8 * k := ⟨_, (Nat.mul_div_cancel' (by omega)).symm⟩
      rw [hk] at hfits hempty ⊢
      exact used_bufWrite hfits hempty hpos hlt

/-- As many records fit `tbuf` as it has slots. -/
theorem loads_le (hadj : adj % 8 = 0)
    (hes : ∀ e ∈ es, 0 < e.rpos ∧ e.rpos < 2 ^ 32)
    (h : es.foldlM (loadRecord F m adj) tbuf = .ok tbuf') :
    tbuf'.length = tbuf.length ∧ es.length ≤ tbuf.length / 8 := by
  have hrun : tbuf'.length = tbuf.length ∧ (used tbuf').card = (used tbuf).card + es.length :=
    foldlM_run (P := fun pre b => b.length = tbuf.length ∧
        (used b).card = (used tbuf).card + pre.length)
      (by
        intro pre e post b b' hsplit hb hload
        have he := hes e (by rw [hsplit]; simp)
        obtain ⟨hlen, hcard⟩ := loadRecord_used hadj he.1 he.2 hload
        refine ⟨hlen.trans hb.1, ?_⟩
        rw [hcard, hb.2, List.length_append, List.length_singleton]
        omega)
      ⟨rfl, rfl⟩ h
  refine ⟨hrun.1, ?_⟩
  have hcard := Finset.card_filter_le (Finset.range (tbuf'.length / 8)) fun i =>
    unpack32 (slice tbuf' (8 * i + 4) 4) ≠ 0
  rw [Finset.card_range, hrun.1] at hcard
  have hused := hrun.2
  unfold used at hused
  rw [hrun.1] at hused
  omega

/-- What `writeList` has done -/
theorem writeList_ok {t t' : Tables} {l : ℕ} (h : writeList F m t l = .ok t') :
    ∃ tbuf, listSlots F m l F.ntabs * 8 % 2 ^ 32 ≤ t.tbuf.length ∧
      (listed m l).foldlM (loadRecord F m (t.sum * 8 % 2 ^ 32))
          (bufWrite t.tbuf 0 (List.replicate (listSlots F m l F.ntabs * 8 % 2 ^ 32) 0)) =
        .ok tbuf ∧
      (ioqPut t.q (tbuf.take (listSlots F m l F.ntabs * 8 % 2 ^ 32))).1 ≠ -1 ∧
      t' = ⟨tbuf, (ioqPut t.q (tbuf.take (listSlots F m l F.ntabs * 8 % 2 ^ 32))).2,
        (t.sum + listSlots F m l F.ntabs) % 2 ^ 32⟩ := by
  unfold writeList at h
  simp only at h
  split at h
  · cases h
  · next hfits =>
    obtain ⟨tbuf, hload, h⟩ := bind_eq_ok.mp h
    obtain ⟨q, hput, h⟩ := bind_eq_ok.mp h
    obtain ⟨hret, rfl⟩ := returned_eq_ok.mp hput
    exact ⟨tbuf, by omega, hload, hret, (Except.ok.inj h).symm⟩

end load

/-! ## Nothing wraps around -/

section small
variable {F : Format} {f pre : List UInt8} {off rbase : ℕ} {recs : List Rec} {m : Mk}

/-- Every record is in a subtable. -/
theorem cnt_ntabs (F : Format) (rbase : ℕ) (recs : List Rec) (P : ℕ → Bool) :
    cnt F rbase recs (fun j => j < F.ntabs && P j) = cnt F rbase recs P := by
  unfold cnt
  congr 1
  funext p
  simp [F.ntab_lt]

theorem cnt_all (F : Format) (rbase : ℕ) (recs : List Rec) :
    cnt F rbase recs (fun j => j < F.ntabs) = recs.length := by
  rw [cnt, List.countP_eq_length.mpr fun p _ => decide_eq_true (F.ntab_lt _), layout_length]

theorem listed_length (h : Added F f off pre rbase recs m) (l : ℕ) :
    (listed m l).length = cnt F rbase recs fun j => F.nlist j = l := by
  rw [h.lists, List.length_map]
  exact List.countP_eq_length_filter.symm

theorem listed_rpos (h : Added F f off pre rbase recs m) (hpos : 0 < rbase) {l : ℕ} {e : Hashoff}
    (he : e ∈ listed m l) : 0 < e.rpos ∧ e.rpos < 2 ^ 32 := by
  rw [h.lists] at he
  obtain ⟨p, hp, rfl⟩ := List.mem_map.mp he
  have hbounds := layout_bounds (List.mem_filter.mp hp).1
  have hlt := h.fp ▸ h.fp_lt
  simp only [entry]
  omega

/-- A `tbuf` that takes the records of every list is one whose size has not
wrapped around: half of its slots would not do for the longest list. -/
theorem listMax_lt (h : Added F f off pre rbase recs m) (hpos : 0 < rbase) {q : Ioq} {t : Tables}
    (hrun : (List.range F.nlists).foldlM (writeList F m)
      ⟨List.replicate (listMax F m * 8 % 2 ^ 32) 0, q, 0⟩ = .ok t) : listMax F m < 2 ^ 29 := by
  have hall := foldlM_run (P := fun pre t => t.tbuf.length = listMax F m * 8 % 2 ^ 32 ∧
      ∀ l ∈ pre, (listed m l).length ≤ listMax F m * 8 % 2 ^ 32 / 8)
    (by
      intro pre l post t t' _ hinv hwrite
      obtain ⟨tbuf, hfits, hload, -, rfl⟩ := writeList_ok hwrite
      have hlen : (bufWrite t.tbuf 0
          (List.replicate (listSlots F m l F.ntabs * 8 % 2 ^ 32) 0)).length = t.tbuf.length := by
        apply bufWrite_length
        rwa [List.length_replicate, Nat.zero_add]
      obtain ⟨hlen', hle⟩ := loads_le (by omega) (fun e he => listed_rpos h hpos he) hload
      rw [hlen, hinv.1] at hlen' hle
      refine ⟨hlen', fun l' hl' => ?_⟩
      rcases List.mem_append.mp hl' with hold | hnew
      · exact hinv.2 l' hold
      · rw [List.mem_singleton.mp hnew]
        exact hle)
    ⟨by simp, by simp⟩ hrun
  obtain ⟨-, -, hmax⟩ := foldl_max (fun l => listSlots F m l F.ntabs) (List.range F.nlists) 0
  rcases hmax with hzero | ⟨l, hl, heq⟩
  · rw [listMax, hzero]
    decide
  · have hle := hall.2 l hl
    have hslots := listSlots_eq h hpos l F.ntabs
    rw [cnt_ntabs F rbase recs fun j => F.nlist j = l] at hslots
    rw [listed_length h] at hle
    change listMax F m = listSlots F m l F.ntabs at heq
    omega

/-- The sizes and offsets that `cdbmk_finish()` computes are those of the tables. -/
structure Sized (F : Format) (rbase : ℕ) (recs : List Rec) (m : Mk) : Prop where
  slots : ∀ i, slots m i = tslotsOf F rbase recs i
  offset : ∀ i, i < F.ntabs → offset m i = 16 * cnt F rbase recs fun j => j < i
  listSlots : ∀ l, listSlots F m l F.ntabs = 2 * cnt F rbase recs fun j => F.nlist j = l
  list_lt : ∀ l, l < F.nlists → 16 * cnt F rbase recs (fun j => F.nlist j = l) < 2 ^ 32
  end_lt : eod F rbase recs + 16 * cnt F rbase recs (fun j => j < F.ntabs) < 2 ^ 32

theorem sized (h : Added F f off pre rbase recs m) (hpos : 0 < rbase)
    (hmax : listMax F m < 2 ^ 29) (htoff : toff m F.ntabs ≠ none)
    (heof : ufuncU32add (m.fp % 2 ^ 32) (sum m F.ntabs * 8 % 2 ^ 32) ≠ none) :
    Sized F rbase recs m := by
  obtain ⟨-, hle, -⟩ := foldl_max (fun l => HashFile.listSlots F m l F.ntabs) (List.range F.nlists) 0
  have hslots : ∀ l, HashFile.listSlots F m l F.ntabs =
      2 * cnt F rbase recs fun j => F.nlist j = l := by
    intro l
    rw [listSlots_eq h hpos, cnt_ntabs F rbase recs fun j => F.nlist j = l]
  have hlist : ∀ l, l < F.nlists →
      2 * cnt F rbase recs (fun j => F.nlist j = l) ≤ listMax F m := by
    intro l hl
    rw [← hslots l]
    exact hle l (List.mem_range.mpr hl)
  have hsmall : ∀ i, HashFile.slots m i * 8 < 2 ^ 32 := by
    intro i
    rw [slots_eq h hpos, tslotsOf, ← cnt_eq]
    by_cases hi : i < F.ntabs
    · have hmono := @cnt_mono (fun j => j = i) (fun j => F.nlist j = F.nlist i) F rbase recs
        (fun j hj => by simp only [decide_eq_true_eq] at hj ⊢; rw [hj])
      have := hlist _ (F.nlist_lt i hi)
      omega
    · rw [← cnt_ntabs, cnt_none]
      · decide
      · intro j
        simp only [Bool.and_eq_false_iff, decide_eq_false_iff_not]
        omega
  obtain ⟨v, hv⟩ := Option.ne_none_iff_exists'.mp htoff
  obtain ⟨hvlt, hoff⟩ := toff_eq hsmall hv
  rw [hoff F.ntabs (Nat.le_refl _)] at hv
  obtain rfl := Option.some.inj hv
  rw [sum_eq h hpos] at hvlt heof
  refine
    { slots := slots_eq h hpos
      offset := fun i hi => ?_
      listSlots := hslots
      list_lt := fun l hl => ?_
      end_lt := ?_ }
  · rw [HashFile.offset, hoff i (Nat.le_of_lt hi), Option.getD_some, sum_eq h hpos]
    omega
  · have := hlist l hl
    omega
  · rw [Nat.mod_eq_of_lt h.fp_lt, Nat.mod_eq_of_lt (by omega)] at heof
    obtain ⟨v, hv⟩ := Option.ne_none_iff_exists'.mp heof
    have hlt := ((ufuncU32add_eq_some h.fp_lt).mp hv).1
    rw [h.fp] at hlt
    omega

end small

/-! ## The tables of one list -/

section fill
variable {F : Format} {rbase : ℕ} {recs : List Rec} {m : Mk} {tbuf tbuf' : List UInt8} {l : ℕ}

/-- The slots of the list `l` before the subtable `i` -/
def inner (F : Format) (rbase : ℕ) (recs : List Rec) (l i : ℕ) : ℕ :=
  2 * cnt F rbase recs fun j => j < i && F.nlist j = l

/-- The slots of the lists before the list `l` -/
def before (F : Format) (rbase : ℕ) (recs : List Rec) (l : ℕ) : ℕ :=
  2 * cnt F rbase recs fun j => F.nlist j < l

/-- The subtables of a list lie together, after those of the lists before. -/
theorem before_inner (F : Format) (rbase : ℕ) (recs : List Rec) (i : ℕ) :
    2 * cnt F rbase recs (fun j => j < i) =
      before F rbase recs (F.nlist i) + inner F rbase recs (F.nlist i) i := by
  unfold before inner
  rw [← Nat.mul_add]
  congr 1
  apply cnt_split
  · intro j
    rw [Bool.eq_iff_iff]
    simp only [Bool.or_eq_true, Bool.and_eq_true, decide_eq_true_eq]
    constructor
    · intro hj
      have := F.nlist_mono j i (Nat.le_of_lt hj)
      omega
    · rintro (hj | ⟨hj, -⟩)
      · by_contra hge
        have := F.nlist_mono i j (Nat.not_lt.mp hge)
        omega
      · exact hj
  · intro j hj
    simp only [decide_eq_true_eq] at hj
    simp only [Bool.and_eq_false_iff, decide_eq_false_iff_not]
    omega

/-- A subtable ends before any later one of its list begins. -/
theorem inner_add (F : Format) (rbase : ℕ) (recs : List Rec) {i j : ℕ} (hi : F.nlist i = l)
    (hij : i < j) : inner F rbase recs l i + tslotsOf F rbase recs i ≤ inner F rbase recs l j := by
  have hsplit := cnt_succ F rbase recs hi
  have hmono := @cnt_mono (fun k => k < i + 1 && F.nlist k = l) (fun k => k < j && F.nlist k = l)
    F rbase recs (by
      intro k hk
      simp only [Bool.and_eq_true, decide_eq_true_eq] at hk ⊢
      exact ⟨by omega, hk.2⟩)
  unfold inner tslotsOf
  rw [← cnt_eq]
  omega

/-- A subtable ends within its list. -/
theorem inner_le (F : Format) (rbase : ℕ) (recs : List Rec) {i : ℕ} (hi : F.nlist i = l) :
    inner F rbase recs l i + tslotsOf F rbase recs i ≤
      2 * cnt F rbase recs fun j => F.nlist j = l := by
  have hmono := @cnt_mono (fun k => k < i + 1 && F.nlist k = l) (fun k => F.nlist k = l)
    F rbase recs (by
      intro k hk
      simp only [Bool.and_eq_true] at hk
      exact hk.2)
  have := inner_add F rbase recs hi (Nat.lt_add_one i)
  unfold inner at this ⊢
  omega

/-- `tbuf_load()` goes to the slot where the table has its first gap, when no slot on
the way is one whose offset is beyond 32 bits. -/
theorem tbufLoop_gap {α : Type} {tab : ℕ → Option α} {T base target j fuel : ℕ} {e : Hashoff}
    (htab : ∀ t, t < T → (unpack32 (slice tbuf (base + 8 * t + 4) 4) = 0 ↔ tab t = none))
    (hfit : base + 8 * T ≤ tbuf.length) (ht : target < T) (hg : Gap T tab target j)
    (hfuel : j < fuel) (hbelow : ∀ i, i ≤ j → (target + i) % T < 2 ^ 29) :
    tbufLoop tbuf base T e fuel target =
      .ok (bufWrite tbuf (base + 8 * ((target + j) % T)) (slotBytes e)) := by
  induction fuel generalizing target j with
  | zero => exact absurd hfuel (Nat.not_lt_zero j)
  | succ fuel ih =>
    have hhere : (target + 0) % T = target := Nat.mod_eq_of_lt ht
    have hlt := hbelow 0 (Nat.zero_le j)
    rw [hhere] at hlt
    have hmod : target * 8 % 2 ^ 32 = 8 * target := by
      rw [Nat.mul_comm]
      exact Nat.mod_eq_of_lt (by omega)
    unfold tbufLoop
    simp only [hmod]
    rw [if_neg (by omega)]
    cases j with
    | zero =>
      have hempty := hg.empty
      rw [hhere] at hempty ⊢
      rw [if_pos ((htab target ht).mpr hempty)]
      rfl
    | succ j =>
      have hfull := hg.full 0 (Nat.succ_pos j)
      rw [hhere] at hfull
      rw [if_neg (mt (htab target ht).mp hfull), ← next_add]
      apply ih (next_lt ht) hg.tail (Nat.lt_of_succ_lt_succ hfuel)
      intro i hi
      rw [next_add]
      exact hbelow (i + 1) (Nat.succ_le_succ hi)

/-- The second half of a slot -/
theorem cell_slice {base t : ℕ} {c : Option (ℕ × Rec)} (h : At tbuf (base + 8 * t) (cell F c)) :
    slice tbuf (base + 8 * t + 4) 4 = (cell F c).drop 4 := by
  have hsplit := (List.take_append_drop 4 (cell F c)).symm
  have hlen : ((cell F c).take 4).length = 4 := by
    rw [List.length_take, cell_length]
    rfl
  have hlen' : ((cell F c).drop 4).length = 4 := by
    rw [List.length_drop, cell_length]
  rw [hsplit, at_append, hlen] at h
  have heq := h.2.slice_eq
  rwa [hlen'] at heq

theorem tbufLoop_spec {T base target s fuel : ℕ} {tab : ℕ → Option (ℕ × Rec)} {e : Hashoff}
    (hcells : ∀ t, t < T → At tbuf (base + 8 * t) (cell F (tab t)))
    (hrpos : ∀ t p, t < T → tab t = some p → 0 < p.1 ∧ p.1 < 2 ^ 32) (hT : 8 * T < 2 ^ 32)
    (hfit : base + 8 * T ≤ tbuf.length) (ht : target < T)
    (hseek : seek T tab fuel target = some s) :
    tbufLoop tbuf base T e fuel target = .ok (bufWrite tbuf (base + 8 * s) (slotBytes e)) := by
  obtain ⟨j, hj, hg, rfl⟩ := seek_gap ht hseek
  apply tbufLoop_gap _ hfit ht hg hj
  · intro i _
    have := Nat.mod_lt (target + i) (show T > 0 by omega)
    omega
  · intro t ht
    rw [cell_slice (hcells t ht)]
    cases htab : tab t with
    | none => simp [cell_none_rpos]
    | some p =>
      obtain ⟨hpos, hlt⟩ := hrpos t p ht htab
      rw [cell_some_rpos hlt]
      simp only [reduceCtorEq, iff_false]
      omega

/-- `tbuf` holds the subtables of the list `l` with the records `ps` loaded. -/
structure Filled (F : Format) (rbase : ℕ) (recs : List Rec) (l : ℕ) (tbuf : List UInt8)
    (ps : List (ℕ × Rec)) (tbl : ℕ → ℕ → Option (ℕ × Rec)) : Prop where
  loaded : ∀ i, F.nlist i = l →
    Loaded (tslotsOf F rbase recs i) (home F (tslotsOf F rbase recs i)) (tbl i)
      (ps.filter fun p => F.ntab (hashOf F p) = i)
  cells : ∀ i, F.nlist i = l → ∀ s, s < tslotsOf F rbase recs i →
    At tbuf (8 * (inner F rbase recs l i + s)) (cell F (tbl i s))

/-- The slots of two subtables of a list are different slots of `tbuf`. -/
theorem inner_ne (F : Format) (rbase : ℕ) (recs : List Rec) {i j s t : ℕ} (hi : F.nlist i = l)
    (hj : F.nlist j = l) (hs : s < tslotsOf F rbase recs i) (ht : t < tslotsOf F rbase recs j)
    (hne : ¬ (i = j ∧ s = t)) :
    inner F rbase recs l i + s ≠ inner F rbase recs l j + t := by
  rcases Nat.lt_trichotomy i j with hlt | rfl | hgt
  · have := inner_add F rbase recs hi hlt
    omega
  · intro heq
    exact hne ⟨rfl, by omega⟩
  · have := inner_add F rbase recs hj hgt
    omega

/-- The records of the list that are loaded before `p` leave room in its subtable. -/
theorem subtable_room {ps post : List (ℕ × Rec)} {p : ℕ × Rec} {i : ℕ}
    (hps : (layout F rbase recs).filter (fun p => F.nlist (F.ntab (hashOf F p)) = l) =
      ps ++ p :: post) (hi : F.ntab (hashOf F p) = i) :
    (ps.filter fun q => F.ntab (hashOf F q) = i).length + 1 ≤ (table F rbase recs i).length := by
  have hsub : (table F rbase recs i).filter (fun q => F.nlist (F.ntab (hashOf F q)) = l) =
      (ps ++ p :: post).filter fun q => F.ntab (hashOf F q) = i := by
    rw [← hps, table, List.filter_filter, List.filter_filter]
    apply List.filter_congr
    intro q _
    exact Bool.and_comm _ _
  have hle := List.length_filter_le (fun q => decide (F.nlist (F.ntab (hashOf F q)) = l))
    (table F rbase recs i)
  rw [hsub, List.filter_append, List.filter_cons, hi] at hle
  simp only [decide_true, if_true, List.length_append, List.length_cons] at hle
  omega

/-- Where a subtable stands in `tbuf` -/
theorem Sized.base {i : ℕ} (hm : Sized F rbase recs m) (heod : eod F rbase recs < 2 ^ 32)
    (hi : i < F.ntabs) (hl : F.nlist i = l) :
    (HashFile.offset m i + 2 ^ 32 - 8 * before F rbase recs l) % 2 ^ 32 =
      8 * inner F rbase recs l i := by
  have hsplit := before_inner F rbase recs i
  have hmono := @cnt_mono (fun j => j < i) (fun j => j < F.ntabs) F rbase recs
    (fun j hj => by simp only [decide_eq_true_eq] at hj ⊢; omega)
  have hend := hm.end_lt
  rw [hl] at hsplit
  rw [hm.offset i hi]
  omega

/-- A record is written to the slot `e` of its subtable. -/
theorem Filled.put {tbl : ℕ → ℕ → Option (ℕ × Rec)} {ps : List (ℕ × Rec)} {p : ℕ × Rec} {i e : ℕ}
    (h : Filled F rbase recs l tbuf ps tbl) (hi : F.ntab (hashOf F p) = i) (hl : F.nlist i = l)
    (he : e < tslotsOf F rbase recs i)
    (hin : 8 * (inner F rbase recs l i + e) + 8 ≤ tbuf.length)
    (hloaded : Loaded (tslotsOf F rbase recs i) (home F (tslotsOf F rbase recs i))
      (Function.update (tbl i) e (some p)) ((ps.filter fun q => F.ntab (hashOf F q) = i) ++ [p])) :
    Filled F rbase recs l (bufWrite tbuf (8 * (inner F rbase recs l i + e)) (slotBytes (entry F p)))
      (ps ++ [p]) (Function.update tbl i (Function.update (tbl i) e (some p))) := by
  constructor
  · intro j hj
    by_cases hij : j = i
    · subst hij
      rw [Function.update_self, List.filter_append]
      simpa [hi] using hloaded
    · rw [Function.update_of_ne hij, List.filter_append]
      simpa [hi, Ne.symm hij] using h.loaded j hj
  · intro j hj s hs
    by_cases hsame : j = i ∧ s = e
    · obtain ⟨rfl, rfl⟩ := hsame
      rw [Function.update_self, Function.update_self]
      exact bufWrite_at hin
    · have hcell : Function.update tbl i (Function.update (tbl i) e (some p)) j s = tbl j s := by
        by_cases hij : j = i
        · subst hij
          rw [Function.update_self, Function.update_of_ne fun hse => hsame ⟨rfl, hse⟩]
        · rw [Function.update_of_ne hij]
      have hne := inner_ne F rbase recs hj hl hs he hsame
      rw [hcell]
      apply bufWrite_frame hin _ (h.cells j hj s hs)
      rw [cell_length]
      change _ ∨ 8 * (inner F rbase recs l i + e) + 8 ≤ _
      omega

/-- One record of the list is loaded. -/
theorem Filled.load {tbl : ℕ → ℕ → Option (ℕ × Rec)} {ps post : List (ℕ × Rec)} {p : ℕ × Rec}
    {adj : ℕ} (h : Filled F rbase recs l tbuf ps tbl) (hm : Sized F rbase recs m)
    (hps : (layout F rbase recs).filter (fun p => F.nlist (F.ntab (hashOf F p)) = l) =
      ps ++ p :: post)
    (hpos : 0 < rbase) (heod : eod F rbase recs < 2 ^ 32)
    (hadj : adj = 8 * before F rbase recs l)
    (hfit : 16 * cnt F rbase recs (fun j => F.nlist j = l) ≤ tbuf.length)
    (hrun : loadRecord F m adj tbuf (entry F p) = .ok tbuf') :
    tbuf'.length = tbuf.length ∧ ∃ tbl', Filled F rbase recs l tbuf' (ps ++ [p]) tbl' := by
  have hmem : ∀ q ∈ ps ++ [p], q ∈ layout F rbase recs ∧ F.nlist (F.ntab (hashOf F q)) = l := by
    intro q hq
    have hq : q ∈ (layout F rbase recs).filter fun p => F.nlist (F.ntab (hashOf F p)) = l := by
      rw [hps]
      simp only [List.mem_append, List.mem_cons, List.not_mem_nil, or_false] at hq ⊢
      tauto
    simpa using List.mem_filter.mp hq
  have hrpos : ∀ q ∈ ps ++ [p], 0 < q.1 ∧ q.1 < 2 ^ 32 := by
    intro q hq
    have hbounds := layout_bounds (hmem q hq).1
    omega
  have hl := (hmem p (by simp)).2
  generalize hi : F.ntab (hashOf F p) = i at hl
  have hint : i < F.ntabs := hi ▸ F.ntab_lt _
  have hroom := subtable_room hps hi
  have hT : tslotsOf F rbase recs i = 2 * (table F rbase recs i).length := rfl
  have hloaded := h.loaded i hl
  have hhome : home F (tslotsOf F rbase recs i) p < tslotsOf F rbase recs i :=
    F.slot_lt _ _ (by omega)
  obtain ⟨e, he, hempty, hseek, hloaded'⟩ := hloaded.load (by omega) hhome
  have hbound := inner_le F rbase recs hl
  have hbase := hm.base heod hint hl
  have hlt : 8 * tslotsOf F rbase recs i < 2 ^ 32 := by
    have := hm.list_lt l (hl ▸ F.nlist_lt i hint)
    omega
  have hspec := @tbufLoop_spec F tbuf (tslotsOf F rbase recs i) (8 * inner F rbase recs l i)
    (home F (tslotsOf F rbase recs i) p) e (tslotsOf F rbase recs i) (tbl i) (entry F p)
    (fun t ht => Nat.mul_add 8 _ t ▸ h.cells i hl t ht)
    (fun t q ht hq => hrpos q (List.mem_append_left _
      (List.mem_filter.mp (hloaded.mem t q ht hq)).1)) hlt (by omega) hhome hseek
  have hrun' : tbufLoop tbuf (8 * inner F rbase recs l i) (tslotsOf F rbase recs i) (entry F p)
      (tslotsOf F rbase recs i) (home F (tslotsOf F rbase recs i) p) = .ok tbuf' := by
    unfold loadRecord tbufLoad at hrun
    simp only [entry, hi, hm.slots, hadj, hbase] at hrun
    rw [if_neg (by omega), if_neg (not_not.mpr (F.slot_lt _ _ (by omega)))] at hrun
    exact hrun
  rw [hspec, ← Nat.mul_add] at hrun'
  obtain rfl := Except.ok.inj hrun'
  have hin : 8 * (inner F rbase recs l i + e) + 8 ≤ tbuf.length := by omega
  exact ⟨bufWrite_length hin, _, h.put hi hl he hin hloaded'⟩

/-- Before any record is loaded the subtables are empty. -/
theorem filled_nil (F : Format) (rbase : ℕ) (recs : List Rec) (l : ℕ) {len : ℕ}
    (hlen : len = 16 * cnt F rbase recs fun j => F.nlist j = l) (hfit : len ≤ tbuf.length) :
    Filled F rbase recs l (bufWrite tbuf 0 (List.replicate len 0)) [] fun _ _ => none where
  loaded _ _ := loaded_nil _ _
  cells i hi s hs := by
    have hle := inner_le F rbase recs hi
    have hzero : At (bufWrite tbuf 0 (List.replicate len 0)) 0 (List.replicate len 0) :=
      bufWrite_at (by rw [List.length_replicate]; omega)
    have hcell := @at_replicate (8 * (inner F rbase recs l i + s)) len 0 8 (by omega)
    have hat := hzero.part (by simp only [List.length_replicate]; omega) hcell
    rwa [Nat.zero_add] at hat

/-- All records of the list are loaded. -/
theorem filled {f pre : List UInt8} {off adj len : ℕ} (h : Added F f off pre rbase recs m)
    (hm : Sized F rbase recs m) (hpos : 0 < rbase) (hadj : adj = 8 * before F rbase recs l)
    (hlen : len = 16 * cnt F rbase recs fun j => F.nlist j = l) (hfit : len ≤ tbuf.length)
    (hrun : (listed m l).foldlM (loadRecord F m adj) (bufWrite tbuf 0 (List.replicate len 0)) =
      .ok tbuf') :
    tbuf'.length = tbuf.length ∧ ∃ tbl, Filled F rbase recs l tbuf'
      ((layout F rbase recs).filter fun p => F.nlist (F.ntab (hashOf F p)) = l) tbl := by
  have hlen0 : (bufWrite tbuf 0 (List.replicate len 0)).length = tbuf.length :=
    bufWrite_length (by rw [List.length_replicate]; omega)
  rw [h.lists, List.foldlM_map] at hrun
  exact foldlM_run (P := fun ps b => b.length = tbuf.length ∧
      ∃ tbl, Filled F rbase recs l b ps tbl)
    (by
      rintro ps p post b b' hps ⟨hb, tbl, hfilled⟩ hload
      obtain ⟨hb', hnext⟩ := hfilled.load hm hps hpos (h.fp ▸ h.fp_lt) hadj (by omega) hload
      exact ⟨hb'.trans hb, hnext⟩)
    ⟨hlen0, _, filled_nil F rbase recs l hlen hfit⟩ hrun

end fill

/-! ## All lists -/

section lists
variable {F : Format} {f pre : List UInt8} {off rbase : ℕ} {recs : List Rec} {m : Mk}

/-- `t` is what the loop over the lists has after `n` of them: the subtables of
these follow the bytes `out`. -/
structure Listed (F : Format) (f : List UInt8) (off rbase : ℕ) (recs : List Rec) (m : Mk)
    (out : List UInt8) (n : ℕ) (t : Tables) : Prop where
  sum : t.sum = before F rbase recs n
  len : t.tbuf.length = listMax F m * 8 % 2 ^ 32
  sent : ∃ H, Sent f off t.q (out ++ H) ∧ H.length = 8 * before F rbase recs n ∧
    ∀ i, F.nlist i < n → ∃ tab,
      Loaded (tslotsOf F rbase recs i) (home F (tslotsOf F rbase recs i)) tab
        (table F rbase recs i) ∧
      ∀ s, s < tslotsOf F rbase recs i →
        At H (8 * (2 * cnt F rbase recs (fun j => j < i) + s)) (cell F (tab s))

theorem before_succ (F : Format) (rbase : ℕ) (recs : List Rec) (l : ℕ) :
    before F rbase recs (l + 1) =
      before F rbase recs l + 2 * cnt F rbase recs fun j => F.nlist j = l := by
  unfold before
  rw [← Nat.mul_add]
  congr 1
  apply cnt_split
  · intro j
    rw [Bool.eq_iff_iff]
    simp only [Bool.or_eq_true, decide_eq_true_eq]
    omega
  · intro j hj
    simp only [decide_eq_true_eq] at hj
    simp only [decide_eq_false_iff_not]
    omega

theorem cnt_le_ntabs (F : Format) (rbase : ℕ) (recs : List Rec) (P : ℕ → Bool) :
    cnt F rbase recs P ≤ cnt F rbase recs fun j => j < F.ntabs := by
  rw [← cnt_ntabs]
  apply cnt_mono
  intro j hj
  simp only [Bool.and_eq_true] at hj
  exact hj.1

/-- The records of a subtable are those of its list that belong to it. -/
theorem table_of_list (F : Format) (rbase : ℕ) (recs : List Rec) {i l : ℕ} (hi : F.nlist i = l) :
    ((layout F rbase recs).filter fun p => F.nlist (F.ntab (hashOf F p)) = l).filter
        (fun p => F.ntab (hashOf F p) = i) = table F rbase recs i := by
  rw [List.filter_filter, table]
  apply List.filter_congr
  intro p _
  by_cases hp : F.ntab (hashOf F p) = i
  · simp [hp, hi]
  · simp [hp]

theorem Listed.step {out : List UInt8} {l : ℕ} {t t' : Tables}
    (h : Listed F f off rbase recs m out l t) (ha : Added F f off pre rbase recs m)
    (hm : Sized F rbase recs m) (hpos : 0 < rbase) (hl : l < F.nlists)
    (hrun : writeList F m t l = .ok t') : Listed F f off rbase recs m out (l + 1) t' := by
  obtain ⟨tbuf, hfits, hload, hput, rfl⟩ := writeList_ok hrun
  have hlist := hm.list_lt l hl
  have hsucc := before_succ F rbase recs l
  have hbefore : before F rbase recs (l + 1) ≤ 2 * cnt F rbase recs fun j => j < F.ntabs :=
    Nat.mul_le_mul_left 2 (cnt_le_ntabs F rbase recs _)
  have hend := hm.end_lt
  have hadj : t.sum * 8 % 2 ^ 32 = 8 * before F rbase recs l := by
    rw [h.sum]
    omega
  have hlen : listSlots F m l F.ntabs * 8 % 2 ^ 32 =
      16 * cnt F rbase recs fun j => F.nlist j = l := by
    rw [hm.listSlots]
    omega
  rw [hlen] at hfits hload hput ⊢
  rw [hadj] at hload
  obtain ⟨hlen', tbl, hfilled⟩ := filled ha hm hpos rfl rfl hfits hload
  obtain ⟨H, hsent, hHlen, htabs⟩ := h.sent
  generalize hlen16 : 16 * cnt F rbase recs (fun j => F.nlist j = l) = len at *
  have htake : (tbuf.take len).length = len := by
    rw [List.length_take]
    omega
  refine
    { sum := ?_
      len := hlen'.trans h.len
      sent := ⟨H ++ tbuf.take len, ?_, ?_, fun i hi => ?_⟩ }
  · change (t.sum + listSlots F m l F.ntabs) % 2 ^ 32 = _
    rw [h.sum, hm.listSlots, hsucc]
    omega
  · rw [← List.append_assoc]
    exact hsent.put ((ioqPut_ret _ _).resolve_right hput)
  · rw [List.length_append, hHlen, htake, hsucc]
    omega
  · rcases Nat.lt_succ_iff_lt_or_eq.mp hi with hold | hnew
    · obtain ⟨tab, hloaded, hcells⟩ := htabs i hold
      refine ⟨tab, hloaded, fun s hs => ?_⟩
      have hbefore' := before_inner F rbase recs i
      have hle := inner_le F rbase recs (rfl : F.nlist i = F.nlist i)
      have hsucc' := before_succ F rbase recs (F.nlist i)
      have hmono : before F rbase recs (F.nlist i + 1) ≤ before F rbase recs l := by
        apply Nat.mul_le_mul_left
        apply cnt_mono
        intro j hj
        simp only [decide_eq_true_eq] at hj ⊢
        omega
      apply At.append_right _ (hcells s hs)
      rw [cell_length, hHlen]
      omega
    · refine ⟨tbl i, table_of_list F rbase recs hnew ▸ hfilled.loaded i hnew, fun s hs => ?_⟩
      have hle := inner_le F rbase recs hnew
      have hin : At (tbuf.take len) (8 * (inner F rbase recs l i + s)) (cell F (tbl i s)) := by
        apply at_take _ (hfilled.cells i hnew s hs)
        rw [cell_length]
        omega
      have hoff : 8 * (2 * cnt F rbase recs (fun j => j < i) + s) =
          H.length + 8 * (inner F rbase recs l i + s) := by
        rw [before_inner, hnew, hHlen]
        omega
      rw [hoff]
      exact hin.append_left H

/-- After the loop every subtable stands in section H. -/
theorem lists_written {t : Tables} (ha : Added F f off pre rbase recs m) (hm : Sized F rbase recs m)
    (hpos : 0 < rbase)
    (hrun : (List.range F.nlists).foldlM (writeList F m)
      ⟨List.replicate (listMax F m * 8 % 2 ^ 32) 0, m.ioq, 0⟩ = .ok t) :
    Listed F f off rbase recs m (pre ++ recs.flatMap (record F)) F.nlists t := by
  have hall := foldlM_run
    (P := fun ls t => Listed F f off rbase recs m (pre ++ recs.flatMap (record F)) ls.length t)
    (by
      intro ls l post t t' hsplit hinv hwrite
      have hl : l = ls.length := by
        have hget := congrArg (fun xs : List ℕ => xs[ls.length]?) hsplit
        have hlen := congrArg List.length hsplit
        rw [List.length_range, List.length_append, List.length_cons] at hlen
        simp only [List.getElem?_append_right (Nat.le_refl _), Nat.sub_self,
          List.getElem?_cons_zero] at hget
        rw [List.getElem?_range (by omega)] at hget
        exact (Option.some.inj hget).symm
      have hlt : l < F.nlists := by
        have hmem : l ∈ List.range F.nlists := by
          rw [hsplit]
          simp
        exact List.mem_range.mp hmem
      rw [List.length_append, List.length_singleton]
      subst hl
      exact hinv.step ha hm hpos hlt hwrite)
    (by
      refine ⟨?_, by simp, [], by simpa using ha.sent, ?_, ?_⟩
      · rw [before, cnt_none F rbase recs (by simp)]
      · rw [before, cnt_none F rbase recs (by simp)]
        rfl
      · intro i hi
        exact absurd hi (Nat.not_lt_zero _))
    hrun
  rwa [List.length_range] at hall

end lists

/-! ## The file -/

section file
variable {F : Format} {f pre : List UInt8} {off rbase : ℕ} {recs : List Rec} {m : Mk}

/-- What is in the file when `cdbmk_finish()` has returned 0: `head` at its start,
then `pre`, the records, and the tables where their offsets say. -/
structure Finished (F : Format) (off rbase : ℕ) (pre : List UInt8) (head : List (List UInt8))
    (recs : List Rec) (m : Mk) (file : List UInt8)
    (tbl : ℕ → ℕ → Option (ℕ × Rec)) : Prop where
  image : Image F file rbase recs (fun i => eod F rbase recs + offset m i) tbl
  head : At file 0 head.flatten
  pre : At file off pre
  slots : ∀ i, slots m i = tslotsOf F rbase recs i

/-- What has been called when `cdbmk_finish()` returns 0: the lists are written after
what has been put, and `head` is written over the start of the file. -/
theorem finish_ok {head : List (List UInt8)} {d : Fd} (hrun : finish F head m = .ok d) :
    toff m F.ntabs ≠ none ∧
      ufuncU32add (m.fp % 2 ^ 32) (sum m F.ntabs * 8 % 2 ^ 32) ≠ none ∧
      ∃ t, (List.range F.nlists).foldlM (writeList F m)
          ⟨List.replicate (listMax F m * 8 % 2 ^ 32) 0, m.ioq, 0⟩ = .ok t ∧
        ∀ f off out, Sent f off t.q out → d.file = pwrite (pwrite f off out) 0 head.flatten := by
  unfold finish at hrun
  split at hrun
  · cases hrun
  next htoff =>
  split at hrun
  · cases hrun
  next heof =>
  split at hrun
  · cases hrun
  obtain ⟨t, hlists, hrun⟩ := bind_eq_ok.mp hrun
  obtain ⟨q1, hflush, hrun⟩ := bind_eq_ok.mp hrun
  obtain ⟨d1, hseek, hrun⟩ := bind_eq_ok.mp hrun
  obtain ⟨q2, hputs, hrun⟩ := bind_eq_ok.mp hrun
  obtain ⟨q3, hflush', hrun⟩ := bind_eq_ok.mp hrun
  obtain rfl := Except.ok.inj hrun
  obtain ⟨hr1, rfl⟩ := returned_eq_ok.mp hflush
  obtain ⟨hr2, rfl⟩ := returned_eq_ok.mp hseek
  obtain ⟨hr3, rfl⟩ := returned_eq_ok.mp hputs
  obtain ⟨hr4, rfl⟩ := returned_eq_ok.mp hflush'
  refine ⟨htoff, heof, t, hlists, fun f off out hsent => ?_⟩
  have hfile1 := hsent.flushed ((ioqFlush_ret _).resolve_right hr1)
  have hbuf1 := (hsent.flush ((ioqFlush_ret _).resolve_right hr1)).2
  obtain ⟨hfile2, hoff2⟩ := lseek_spec hr2
  have hsent2 := (@sent_nil { (ioqFlush t.q).2 with d := (lseek (ioqFlush t.q).2.d 0).2 } hbuf1).puts
    hr3
  have hfile := hsent2.flushed ((ioqFlush_ret _).resolve_right hr4)
  rwa [hfile2, hoff2, hfile1, List.nil_append] at hfile

/-- The tables of all lists are one function of the subtable. -/
theorem Listed.tables {out : List UInt8} {t : Tables}
    (h : Listed F f off rbase recs m out F.nlists t) :
    ∃ H, Sent f off t.q (out ++ H) ∧ H.length = 8 * before F rbase recs F.nlists ∧
      ∃ tbl : ℕ → ℕ → Option (ℕ × Rec), ∀ i, i < F.ntabs →
        Loaded (tslotsOf F rbase recs i) (home F (tslotsOf F rbase recs i)) (tbl i)
          (table F rbase recs i) ∧
        ∀ s, s < tslotsOf F rbase recs i →
          At H (8 * (2 * cnt F rbase recs (fun j => j < i) + s)) (cell F (tbl i s)) := by
  obtain ⟨-, -, H, hsent, hHlen, htabs⟩ := h
  have hex : ∀ i, ∃ tab, i < F.ntabs →
      Loaded (tslotsOf F rbase recs i) (home F (tslotsOf F rbase recs i)) tab
        (table F rbase recs i) ∧
      ∀ s, s < tslotsOf F rbase recs i →
        At H (8 * (2 * cnt F rbase recs (fun j => j < i) + s)) (cell F (tab s)) := by
    intro i
    by_cases hi : i < F.ntabs
    · obtain ⟨tab, htab⟩ := htabs i (F.nlist_lt i hi)
      exact ⟨tab, fun _ => htab⟩
    · exact ⟨fun _ => none, fun hi' => absurd hi' hi⟩
  choose tbl htbl using hex
  exact ⟨H, hsent, hHlen, tbl, htbl⟩

/-- A subtable ends where section H ends, or before. -/
theorem Sized.tend_le {i : ℕ} (hm : Sized F rbase recs m) (hi : i < F.ntabs) :
    eod F rbase recs + HashFile.offset m i + 8 * tslotsOf F rbase recs i ≤
      eod F rbase recs + 16 * cnt F rbase recs fun j => j < F.ntabs := by
  have hle := cnt_le_ntabs F rbase recs fun j => j < i + 1
  rw [cnt_lt_succ, cnt_eq] at hle
  rw [hm.offset i hi, tslotsOf]
  omega

theorem finish_spec (h : Added F f off pre rbase recs m) (hpos : 0 < rbase)
    (hrbase : rbase = off + pre.length) {head : List (List UInt8)}
    (hhead : head.flatten.length ≤ off) {d : Fd} (hrun : finish F head m = .ok d) :
    ∃ tbl, Finished F off rbase pre head recs m d.file tbl := by
  obtain ⟨htoff, heof, t, hlists, hfile⟩ := finish_ok hrun
  have hm := sized h hpos (listMax_lt h hpos hlists) htoff heof
  obtain ⟨H, hsent, hHlen, tbl, htbl⟩ := (lists_written h hm hpos hlists).tables
  rw [hfile _ _ _ hsent]
  have hbody := pwrite_at f off (pre ++ recs.flatMap (record F) ++ H)
  -- the header does not reach what was written before it
  have hkeep : ∀ o b, off ≤ o → At (pwrite f off (pre ++ recs.flatMap (record F) ++ H)) o b →
      At (pwrite (pwrite f off (pre ++ recs.flatMap (record F) ++ H)) 0 head.flatten) o b :=
    fun o b ho hat => pwrite_after (by omega) hat
  obtain ⟨hprerecs, hH⟩ := at_append.mp hbody
  obtain ⟨hpre, hrecs⟩ := at_append.mp hprerecs
  have heod : off + (pre ++ recs.flatMap (record F)).length = eod F rbase recs := by
    rw [List.length_append, records_length, eod, hrbase]
    omega
  rw [heod] at hH
  have hHle : 16 * cnt F rbase recs (fun j => j < F.ntabs) ≤ H.length := by
    have hmono := @cnt_mono (fun j => j < F.ntabs) (fun j => F.nlist j < F.nlists) F rbase recs
      (fun j hj => by simp only [decide_eq_true_eq] at hj ⊢; exact F.nlist_lt j hj)
    rw [hHlen, before]
    omega
  refine ⟨tbl, ?_, pwrite_at _ _ _, hkeep _ _ (Nat.le_refl _) hpre, hm.slots⟩
  exact
    { lengths := h.lengths
      rbase_pos := hpos
      eod_lt := h.fp ▸ h.fp_lt
      records := hkeep _ _ (by omega) (hrbase ▸ hrecs)
      loaded := fun i hi => (htbl i hi).1
      slots := fun i hi s hs => by
        have hoff := hm.offset i hi
        have hend := hm.tend_le hi
        have hpart := hH.part (by rw [cell_length]; omega) ((htbl i hi).2 s hs)
        rw [show eod F rbase recs + offset m i + 8 * s = eod F rbase recs +
          8 * (2 * cnt F rbase recs (fun j => j < i) + s) by omega]
        exact hkeep _ _ (by omega) hpart
      tend_lt := fun i hi => Nat.lt_of_le_of_lt (hm.tend_le hi) hm.end_lt }

/-- Nothing but the tables can fail when no system call does. -/
theorem finish_smooth (hq : Smooth m.ioq) (hmem : m.mem = []) (htoff : (toff m F.ntabs).isSome)
    (heof : (ufuncU32add (m.fp % 2 ^ 32) (sum m F.ntabs * 8 % 2 ^ 32)).isSome)
    (hlists : ((List.range F.nlists).foldlM (writeList F m)
      ⟨List.replicate (listMax F m * 8 % 2 ^ 32) 0, m.ioq, 0⟩).isOk = true)
    (head : List (List UInt8)) : ∃ d, finish F head m = .ok d := by
  obtain ⟨t, ht⟩ : ∃ t, (List.range F.nlists).foldlM (writeList F m)
      ⟨List.replicate (listMax F m * 8 % 2 ^ 32) 0, m.ioq, 0⟩ = .ok t := by
    cases hrun : (List.range F.nlists).foldlM (writeList F m)
        ⟨List.replicate (listMax F m * 8 % 2 ^ 32) 0, m.ioq, 0⟩ with
    | ok t => exact ⟨t, rfl⟩
    | error e =>
      rw [hrun] at hlists
      cases hlists
  have hsmooth : Smooth t.q := foldlM_run (P := fun _ t => Smooth t.q)
    (by
      intro ls l post t t' _ hs hwrite
      obtain ⟨tbuf, -, -, -, rfl⟩ := writeList_ok hwrite
      exact (ioqPut_smooth hs _).2)
    hq ht
  have hret : ∀ {α : Type} (r : ℤ × α), r.1 = 0 → returned r = .ok r.2 := by
    intro α r hr
    exact returned_eq_ok.mpr ⟨by omega, rfl⟩
  obtain ⟨q1, hflush, hs1⟩ : ∃ q, returned (ioqFlush t.q) = .ok q ∧ Smooth q :=
    ⟨_, hret _ (ioqFlush_smooth hsmooth).1, (ioqFlush_smooth hsmooth).2⟩
  obtain ⟨d2, hseek, hs2⟩ : ∃ d, returned (lseek q1.d 0) = .ok d ∧ Smooth { q1 with d := d } := by
    refine ⟨{ q1.d with off := 0, seeks := [] }, ?_, hs1.writes, rfl⟩
    simp [lseek, hs1.seeks, returned]
  obtain ⟨q3, hputs, hs3⟩ : ∃ q, returned (puts { q1 with d := d2 } head) = .ok q ∧ Smooth q :=
    ⟨_, hret _ (puts_smooth hs2 head).1, (puts_smooth hs2 head).2⟩
  obtain ⟨q4, hflush'⟩ : ∃ q, returned (ioqFlush q3) = .ok q :=
    ⟨_, hret _ (ioqFlush_smooth hs3).1⟩
  refine ⟨q4.d, ?_⟩
  unfold finish
  rw [if_neg (Option.isSome_iff_ne_none.mp htoff), if_neg (Option.isSome_iff_ne_none.mp heof),
    if_neg (by simp [hmem])]
  exact bind_eq_ok.mpr ⟨t, ht, bind_eq_ok.mpr ⟨q1, hflush, bind_eq_ok.mpr ⟨d2, hseek,
    bind_eq_ok.mpr ⟨q3, hputs, bind_eq_ok.mpr ⟨q4, hflush', rfl⟩⟩⟩⟩⟩

end file

end Perp.HashFinish
