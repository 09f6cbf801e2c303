import Perp.HashSizes
import Perp.Probing

set_option autoImplicit false

/-!
# Subtables

One subtable loaded record by record with `tbuf_load()`, and where the subtables of a
list are in the buffer that they share.
-/
namespace Perp.HashSubtable
open Pkt ByteImage IoqPut HashFile CdbFormat HashImage HashAdded HashTables HashFinish HashSizes
  OpenTable Probing
open scoped BigOperators

/-! ## The slots of a table -/

/-- The record in the slot `s`, none when it is empty -/
def occupant (table : List UInt8) (s : ℕ) : Option Hashoff :=
  if unpack32 (slice table (8 * s + 4) 4) = 0 then none
  else some ⟨upak32Unpack (slice table (8 * s) 4), unpack32 (slice table (8 * s + 4) 4)⟩

section slots
variable {pre table post b : List UInt8} {e : Hashoff} {k o n s : ℕ}

theorem occupant_none (table : List UInt8) (s : ℕ) :
    unpack32 (slice table (8 * s + 4) 4) = 0 ↔ occupant table s = none := by
  unfold occupant
  split_ifs with h <;> simp [h]

theorem occupant_zeros (n : ℕ) : occupant (List.replicate n 0) = fun _ => none := by
  funext s
  have hbyte : ∀ i, byteAt (slice (List.replicate n 0) (8 * s + 4) 4) i = 0 := by
    intro i
    rw [byteAt, List.getD_eq_getElem?_getD, slice_getElem?, List.getElem?_replicate]
    split_ifs <;> rfl
  rw [← occupant_none, unpack32, upak32Unpack]
  simp only [hbyte]
  rfl

theorem occupant_bufWrite (hk : 8 * k + 8 ≤ table.length) (hpos : 0 < e.rpos)
    (hlt : e.rpos < 2 ^ 32) : occupant (bufWrite table (8 * k) (slotBytes e)) =
      Function.update (occupant table) k (some e) := by
  funext s
  have hlen : (slotBytes e).length = 8 := rfl
  by_cases hsk : s = k
  · subst hsk
    obtain ⟨hhash, hrpos⟩ := at_append.mp (@bufWrite_at table (slotBytes e) (8 * s) hk)
    have hhash : slice (bufWrite table (8 * s) (slotBytes e)) (8 * s) 4 = upak32Pack e.hash :=
      hhash.slice_eq
    have hrpos : slice (bufWrite table (8 * s) (slotBytes e)) (8 * s + 4) 4 = pack32 e.rpos :=
      hrpos.slice_eq
    have hunpack := unpack32_pack e.rpos hlt []
    have hunpack' := upak32Unpack_pack e.hash []
    rw [List.append_nil] at hunpack hunpack'
    rw [Function.update_self, occupant, hhash, hrpos, hunpack, hunpack', if_neg (by omega)]
  · rw [Function.update_of_ne hsk, occupant, occupant, slice_bufWrite (by omega) (by omega),
      slice_bufWrite (by omega) (by omega)]

theorem slice_within (h : o + n ≤ table.length) :
    slice (pre ++ table ++ post) (pre.length + o) n = slice table o n := by
  have hat := ((slice_at h).1.append_right post (by rw [(slice_at h).2]; exact h)).append_left pre
  have heq := hat.slice_eq
  rwa [(slice_at h).2, ← List.append_assoc] at heq

theorem bufWrite_within (h : s + b.length ≤ table.length) :
    bufWrite (pre ++ table ++ post) (pre.length + s) b = pre ++ bufWrite table s b ++ post := by
  unfold bufWrite
  rw [List.append_assoc pre, List.take_length_add_append, Nat.add_assoc,
    List.drop_length_add_append, List.take_append_of_le_length (by omega),
    List.drop_append_of_le_length h]
  simp only [List.append_assoc]

end slots

/-! ## One subtable -/

/-- The records of a subtable in the order in which they were added -/
structure Subtable where
  records : List Hashoff
  rpos : ∀ e ∈ records, 0 < e.rpos ∧ e.rpos < 2 ^ 32

section subtable
variable (F : Format) (s : Subtable)

/-- Two slots for each record -/
def Subtable.tslots : ℕ := s.records.length * 2

def Subtable.home (e : Hashoff) : ℕ := F.slot e.hash s.tslots

/-- What `cdbmk_finish()` does with one record when it has `tbase` and `tslots` -/
def loadSlot (tbase tslots : ℕ) (tbuf : List UInt8) (e : Hashoff) : Except Stop (List UInt8) :=
  if tslots = 0 then .error .fault else tbufLoad tbuf tbase tslots (F.slot e.hash tslots) e

/-- The first `k` records, one after the other, with the subtable at the start of the
memory. The number of the slots is a `uint32_t`. -/
def Subtable.load (k : ℕ) : Except Stop (List UInt8) :=
  (s.records.take k).foldlM (loadSlot F 0 (s.tslots % 2 ^ 32)) (List.replicate (8 * s.tslots) 0)

/-- The first `k` records are in `table`, each in a slot of its own, and the other slots
are empty. -/
structure Subtable.Holds (k : ℕ) (table : List UInt8) : Prop where
  size : table.length = 8 * s.tslots
  probed : ∃ ps, ps.map Prod.fst = s.records.take k ∧
    Probed s.tslots (s.home F) (occupant table) ps
  empties : ((Finset.range s.tslots).filter fun t => occupant table t = none).card + k = s.tslots

/-- Every record is loaded into the table that those before it have left, whatever is
before and after the subtable in memory by then, and nothing of that changes. -/
def Subtable.LoadsRight : Prop :=
  ∃ tables : ℕ → List UInt8, tables 0 = List.replicate (8 * s.tslots) 0 ∧
    (∀ k, k ≤ s.records.length → s.Holds F k (tables k)) ∧
    ∀ k (hk : k < s.records.length) (pre post : List UInt8),
      loadSlot F pre.length (s.tslots % 2 ^ 32) (pre ++ tables k ++ post) s.records[k] =
        .ok (pre ++ tables (k + 1) ++ post)

/-- No offset is beyond 32 bits, of all slots or of those that are met: from no slot on
are there more homes than slots below 2^29. -/
def Subtable.Below : Prop :=
  s.tslots ≤ 2 ^ 29 ∨ ∀ a, a ≤ 2 ^ 29 → s.records.countP (fun e => a ≤ s.home F e) ≤ 2 ^ 29 - a

/-- What the loads keep: no slot from 2^29 on is taken. -/
structure Subtable.Loading (k : ℕ) (table : List UInt8) (ps : List (Hashoff × ℕ)) : Prop where
  size : table.length = 8 * s.tslots
  entries : ps.map Prod.fst = s.records.take k
  probed : Probed s.tslots (s.home F) (occupant table) ps
  high : ∀ t, 2 ^ 29 ≤ t → t < s.tslots → occupant table t = none

end subtable

section load
variable {F : Format} {s : Subtable} {k : ℕ} {table : List UInt8} {ps : List (Hashoff × ℕ)}

theorem homesFrom_eq (home : Hashoff → ℕ) (a : ℕ) (ps : List (Hashoff × ℕ)) :
    homesFrom home a ps = (ps.map Prod.fst).countP fun e => a ≤ home e := by
  rw [homesFrom, List.countP_map]
  rfl

theorem Subtable.Below.tslots_lt (h : s.Below F) : s.tslots % 2 ^ 32 = s.tslots := by
  apply Nat.mod_eq_of_lt
  rcases h with hle | hall
  · omega
  · have hcount := hall 0 (Nat.zero_le _)
    simp only [Nat.zero_le, decide_true, List.countP_true] at hcount
    unfold Subtable.tslots
    omega

theorem Subtable.Loading.length (h : s.Loading F k table ps) (hk : k ≤ s.records.length) :
    ps.length = k := by
  rw [← List.length_map (f := Prod.fst), h.entries, List.length_take]
  omega

theorem Subtable.Loading.holds (h : s.Loading F k table ps) (hk : k ≤ s.records.length) :
    s.Holds F k table where
  size := h.size
  probed := ⟨ps, h.entries, h.probed⟩
  empties := by
    have hcard := h.probed.empties
    rwa [h.length hk] at hcard

theorem Subtable.Loading.room (h : s.Loading F k table ps) (hk : k < s.records.length)
    (hbelow : s.Below F) :
    s.tslots ≤ 2 ^ 29 ∨ (∀ t, 2 ^ 29 ≤ t → t < s.tslots → occupant table t = none) ∧
      ∀ a, a ≤ 2 ^ 29 → a ≤ s.home F s.records[k] → homesFrom (s.home F) a ps < 2 ^ 29 - a := by
  apply hbelow.imp_right
  intro hall
  refine ⟨h.high, fun a ha hhome => ?_⟩
  have hcount := hall a ha
  have hsub := List.Sublist.countP_le (p := fun e => a ≤ s.home F e)
    (List.take_sublist (k + 1) s.records)
  rw [List.take_add_one, List.getElem?_eq_getElem hk, List.countP_append, ← h.entries,
    ← homesFrom_eq] at hsub
  simp only [Option.toList_some, List.countP_singleton, hhome, decide_true, if_true] at hsub
  omega

theorem Subtable.Loading.step (h : s.Loading F k table ps) (hk : k < s.records.length)
    (hbelow : s.Below F) :
    ∃ table' ps', s.Loading F (k + 1) table' ps' ∧ ∀ pre post : List UInt8,
      loadSlot F pre.length (s.tslots % 2 ^ 32) (pre ++ table ++ post) s.records[k] =
        .ok (pre ++ table' ++ post) := by
  have hT : s.tslots = s.records.length * 2 := rfl
  have hhome : s.home F s.records[k] < s.tslots := F.slot_lt _ _ (by omega)
  have hlen := h.length (Nat.le_of_lt hk)
  obtain ⟨hpos, hlt⟩ := s.rpos _ (List.getElem_mem hk)
  obtain ⟨j, hj, hg, hway⟩ := h.probed.gap (by omega) hhome (h.room hk hbelow)
  have hslot : (s.home F s.records[k] + j) % s.tslots < s.tslots := Nat.mod_lt _ (by omega)
  have hsize := h.size
  have hfits : 8 * ((s.home F s.records[k] + j) % s.tslots) + (slotBytes s.records[k]).length ≤
      table.length := by
    change _ + 8 ≤ _
    omega
  refine ⟨bufWrite table (8 * ((s.home F s.records[k] + j) % s.tslots)) (slotBytes s.records[k]),
    ps ++ [(s.records[k], j)], ?_, fun pre post => ?_⟩
  · have hoccupant := occupant_bufWrite (e := s.records[k]) hfits hpos hlt
    refine
      { size := (bufWrite_length hfits).trans hsize
        entries := ?_
        probed := ?_
        high := fun t ht htT => ?_ }
    · rw [List.map_append, h.entries, List.take_add_one, List.getElem?_eq_getElem hk]
      rfl
    · rw [hoccupant]
      exact h.probed.load hhome hg hj
    · have := hway j (Nat.le_refl j)
      rw [hoccupant, Function.update_of_ne (by omega)]
      exact h.high t ht htT
  · have hload := @tbufLoop_gap (pre ++ table ++ post) _ (occupant table) s.tslots pre.length
      (s.home F s.records[k]) j s.tslots s.records[k]
      (fun t ht => by
        rw [Nat.add_assoc, slice_within (by omega)]
        exact occupant_none table t)
      (by rw [List.length_append, List.length_append]; omega) hhome hg hj hway
    rw [hbelow.tslots_lt, loadSlot, if_neg (by omega), tbufLoad]
    change (if ¬ s.home F s.records[k] < s.tslots then _ else _) = _
    rw [if_neg (not_not.mpr hhome)]
    exact hload.trans (by rw [bufWrite_within hfits])

theorem Subtable.load_succ (F : Format) (hk : k < s.records.length) :
    s.load F (k + 1) =
      s.load F k >>= fun b => loadSlot F 0 (s.tslots % 2 ^ 32) b s.records[k] := by
  unfold Subtable.load
  rw [List.take_add_one, List.getElem?_eq_getElem hk, List.foldlM_append]
  congr 1
  funext b
  exact bind_pure _

theorem Subtable.load_step {table' : List UInt8} (hk : k < s.records.length)
    (hload : s.load F k = .ok table)
    (hstep : ∀ pre post : List UInt8,
      loadSlot F pre.length (s.tslots % 2 ^ 32) (pre ++ table ++ post) s.records[k] =
        .ok (pre ++ table' ++ post)) : s.load F (k + 1) = .ok table' := by
  have halone := hstep [] []
  simp only [List.nil_append, List.append_nil, List.length_nil] at halone
  rw [s.load_succ F hk, hload]
  exact halone

theorem Subtable.Below.loading (hbelow : s.Below F) (hk : k ≤ s.records.length) :
    ∃ table ps, s.load F k = .ok table ∧ s.Loading F k table ps := by
  induction k with
  | zero =>
    refine ⟨_, [], rfl, List.length_replicate, rfl, ?_, fun t _ _ => ?_⟩
    · rw [occupant_zeros]
      exact probed_nil
    · rw [occupant_zeros]
  | succ k ih =>
    obtain ⟨table, ps, hload, hloading⟩ := ih (by omega)
    obtain ⟨table', ps', hloading', hstep⟩ := hloading.step hk hbelow
    exact ⟨table', ps', Subtable.load_step hk hload hstep, hloading'⟩

/-- Whatever is loaded, no slot from 2^29 on is taken: its offset is that of another in
32 bits. -/
theorem Subtable.high_empty (hload : s.load F k = .ok table) :
    ∀ t, 2 ^ 29 ≤ t → occupant table t = none := by
  have hrun := foldlM_run (P := fun _ b => ∀ t, 2 ^ 29 ≤ t → occupant b t = none)
    (by
      intro done e post b b' hsplit hb hstep t ht
      have hmem : e ∈ s.records := by
        apply List.mem_of_mem_take (i := k)
        rw [hsplit]
        simp
      obtain ⟨hpos, hlt⟩ := s.rpos e hmem
      unfold loadSlot tbufLoad at hstep
      split_ifs at hstep
      obtain ⟨u, hfits, -, rfl⟩ := tbufLoop_ok hstep
      obtain ⟨c, hc⟩ : ∃ c, 0 + u * 8 % 2 ^ 32 = 8 * c :=
        ⟨_, (Nat.mul_div_cancel' (by omega)).symm⟩
      rw [hc] at hfits ⊢
      rw [occupant_bufWrite hfits hpos hlt, Function.update_of_ne (by omega)]
      exact hb t ht)
    (fun t _ => by rw [occupant_zeros]) hload
  exact hrun

theorem Subtable.loadsRight_iff (F : Format) (s : Subtable) : s.LoadsRight F ↔ s.Below F := by
  constructor
  · rintro ⟨tables, hstart, hholds, hsteps⟩
    have hrun : ∀ k, k ≤ s.records.length → s.load F k = .ok (tables k) := by
      intro k
      induction k with
      | zero => exact fun _ => congrArg Except.ok hstart.symm
      | succ k ih => exact fun hk => Subtable.load_step hk (ih (Nat.le_of_lt hk)) (hsteps k hk)
    have hhigh := Subtable.high_empty (hrun _ (Nat.le_refl _))
    by_cases hT : s.tslots ≤ 2 ^ 29
    · exact .inl hT
    · obtain ⟨ps, hps, hprobed⟩ := (hholds _ (Nat.le_refl _)).probed
      refine .inr fun a _ => ?_
      have hle := hprobed.homes_le (Nat.not_le.mp hT) (fun t ht _ => hhigh t ht) a
      rwa [homesFrom_eq, hps, List.take_length] at hle
  · intro hbelow
    have hall : ∀ k, ∃ table, k ≤ s.records.length →
        s.load F k = .ok table ∧ ∃ ps, s.Loading F k table ps := by
      intro k
      by_cases hk : k ≤ s.records.length
      · obtain ⟨table, ps, hload, hloading⟩ := hbelow.loading hk
        exact ⟨table, fun _ => ⟨hload, ps, hloading⟩⟩
      · exact ⟨[], fun h => absurd h hk⟩
    choose tables htables using hall
    refine ⟨tables, ?_, fun k hk => ?_, fun k hk => ?_⟩
    · exact Except.ok.inj (htables 0 (Nat.zero_le _)).1.symm
    · obtain ⟨-, ps, hloading⟩ := htables k hk
      exact hloading.holds hk
    · obtain ⟨hload, ps, hloading⟩ := htables k (Nat.le_of_lt hk)
      obtain ⟨table', ps', -, hstep⟩ := hloading.step hk hbelow
      have heq := (Subtable.load_step hk hload hstep).symm.trans (htables (k + 1) hk).1
      rwa [Except.ok.inj heq] at hstep

end load

/-! ## The subtables of a list -/

section tiles
variable (F : Format) (m : Mk)

/-- `subtab_offset[i]` less the `tbase_adj` of its list -/
def startOf (i : ℕ) : ℕ :=
  (offset m i + 2 ^ 32 - listSum F m (F.nlist i) * 8 % 2 ^ 32) % 2 ^ 32

theorem loadRecord_eq (tbuf : List UInt8) (e : Hashoff) :
    loadRecord F m (listSum F m (F.nlist (F.ntab e.hash)) * 8 % 2 ^ 32) tbuf e =
      loadSlot F (startOf F m (F.ntab e.hash)) (slots m (F.ntab e.hash)) tbuf e :=
  rfl

/-- `sum` in section H is what is taken from the offsets of a list. -/
theorem writeList_sum {t t' : Tables} {l : ℕ} (ht : t.sum = 0)
    (h : (List.range l).foldlM (writeList F m) t = .ok t') : t'.sum = listSum F m l := by
  induction l generalizing t' with
  | zero =>
    obtain rfl := Except.ok.inj h
    exact ht
  | succ l ih =>
    rw [List.range_succ, List.foldlM_append] at h
    obtain ⟨u, hu, hlast⟩ := bind_eq_ok.mp h
    obtain ⟨v, hv, hpure⟩ := bind_eq_ok.mp hlast
    obtain rfl := Except.ok.inj hpure
    obtain ⟨tbuf, -, -, -, rfl⟩ := writeList_ok hv
    rw [listSum, ← ih hu]

/-- The bytes of the list `l` in `tbuf` -/
def sizeOf (l : ℕ) : ℕ := listSlots F m l F.ntabs * 8 % 2 ^ 32

/-- The subtables of every list lie one after the other in its buffer, which they fill. -/
structure Tiled : Prop where
  start : ∀ i, i < F.ntabs → startOf F m i = 8 * listBefore F m.subtabCount (F.nlist i) i
  size : ∀ l, l < F.nlists → sizeOf F m l = 8 * listBefore F m.subtabCount l F.ntabs
  inside : ∀ i, i < F.ntabs → startOf F m i + 8 * (2 * m.subtabCount i) ≤ sizeOf F m (F.nlist i)
  one : ∀ l, l < F.nlists → ∀ p, p < sizeOf F m l →
    ∃! i, i < F.ntabs ∧ F.nlist i = l ∧ startOf F m i ≤ p ∧
      p < startOf F m i + 8 * (2 * m.subtabCount i)

/-- `cdbmk_finish()` that does not refuse the sizes has lists whose subtables fill them. -/
def TilesRight : Prop :=
  toff m F.ntabs ≠ none → ufuncU32add (m.fp % 2 ^ 32) (sum m F.ntabs * 8 % 2 ^ 32) ≠ none →
    Tiled F m

/-- Every list is within 32 bits, or one of the two sums that are checked is not, of
numbers that are taken in 32 bits before. -/
def ListsFit : Prop :=
  (∀ l, l < F.nlists → 8 * listBefore F m.subtabCount l F.ntabs < 2 ^ 32) ∨
    2 ^ 32 ≤ ∑ i ∈ Finset.range F.ntabs, 8 * (2 * m.subtabCount i) % 2 ^ 32 ∨
    2 ^ 32 ≤ m.fp % 2 ^ 32 + 8 * slotsBefore m.subtabCount F.ntabs % 2 ^ 32

/-- The slots of the lists before `l` -/
def listsBefore (n : ℕ → ℕ) (l : ℕ) : ℕ := ∑ j ∈ Finset.range F.ntabs with F.nlist j < l, 2 * n j

end tiles

section sizes
variable {F : Format} {m : Mk} {i : ℕ}

theorem listsBefore_succ (F : Format) (n : ℕ → ℕ) (l : ℕ) :
    listsBefore F n (l + 1) = listsBefore F n l + listBefore F n l F.ntabs := by
  simp only [listsBefore, listBefore, Finset.sum_filter, ← Finset.sum_add_distrib]
  apply Finset.sum_congr rfl
  intro j _
  split_ifs <;> omega

/-- The subtables before `i` are those of the lists before its own, and those before it
in its own. -/
theorem slotsBefore_split (F : Format) (n : ℕ → ℕ) (hi : i ≤ F.ntabs) :
    slotsBefore n i = listsBefore F n (F.nlist i) + listBefore F n (F.nlist i) i := by
  have hlists : listsBefore F n (F.nlist i) =
      ∑ j ∈ Finset.range i, if F.nlist j < F.nlist i then 2 * n j else 0 := by
    rw [listsBefore, Finset.sum_filter]
    symm
    apply Finset.sum_subset (Finset.range_mono hi)
    intro j _ hj
    have hle := F.nlist_mono i j (Nat.not_lt.mp (mt Finset.mem_range.mpr hj))
    rw [if_neg (Nat.not_lt.mpr hle)]
  rw [hlists, listBefore, Finset.sum_filter, ← Finset.sum_add_distrib, slotsBefore]
  apply Finset.sum_congr rfl
  intro j hj
  have hle := F.nlist_mono j i (Nat.le_of_lt (Finset.mem_range.mp hj))
  split_ifs <;> omega

theorem listSlots_mul (F : Format) (m : Mk) (l i : ℕ) :
    listSlots F m l i * 8 % 2 ^ 32 = 8 * listBefore F m.subtabCount l i % 2 ^ 32 := by
  induction i with
  | zero => rfl
  | succ i ih =>
    have hslots := slots_mul m i
    rw [listSlots, listBefore_succ]
    split_ifs <;> omega

theorem listSum_mul (F : Format) (m : Mk) (l : ℕ) :
    listSum F m l * 8 % 2 ^ 32 = 8 * listsBefore F m.subtabCount l % 2 ^ 32 := by
  induction l with
  | zero => simp [listSum, listsBefore]
  | succ l ih =>
    have hslots := listSlots_mul F m l F.ntabs
    rw [listSum, listsBefore_succ]
    omega

theorem listBefore_mono (F : Format) (n : ℕ → ℕ) (l : ℕ) : Monotone (listBefore F n l) := by
  apply monotone_nat_of_le_succ
  intro i
  rw [listBefore_succ]
  exact Nat.le_add_right _ _

theorem table_lt (hfit : ∀ l, l < F.nlists → 8 * listBefore F m.subtabCount l F.ntabs < 2 ^ 32)
    (hi : i < F.ntabs) : 8 * (2 * m.subtabCount i) < 2 ^ 32 := by
  have hlt := hfit _ (F.nlist_lt i hi)
  have hmono := listBefore_mono F m.subtabCount (F.nlist i) (Nat.succ_le_of_lt hi)
  rw [Nat.succ_eq_add_one, listBefore_succ, if_pos rfl] at hmono
  omega

/-- Offsets that are not refused are exact where the tables are within 32 bits. -/
theorem offset_exact (htoff : toff m F.ntabs ≠ none)
    (hsmall : ∀ j, j < F.ntabs → 8 * (2 * m.subtabCount j) < 2 ^ 32) (hi : i ≤ F.ntabs) :
    offset m i = 8 * slotsBefore m.subtabCount i ∧ 8 * slotsBefore m.subtabCount i < 2 ^ 32 := by
  have hterms : ∀ k, k ≤ F.ntabs → ∑ j ∈ Finset.range k, slots m j * 8 % 2 ^ 32 =
      8 * slotsBefore m.subtabCount k := by
    intro k hk
    rw [slotsBefore, Finset.mul_sum]
    apply Finset.sum_congr rfl
    intro j hj
    have := Finset.mem_range.mp hj
    rw [slots_mul, Nat.mod_eq_of_lt (hsmall j (by omega))]
  have hall : 8 * slotsBefore m.subtabCount F.ntabs < 2 ^ 32 := by
    rw [toff_sum, hterms _ (Nat.le_refl _)] at htoff
    by_contra hno
    exact htoff (if_neg hno)
  have hmono := slotsBefore_mono m.subtabCount hi
  have hlt : 8 * slotsBefore m.subtabCount i < 2 ^ 32 := by omega
  refine ⟨?_, hlt⟩
  rw [offset, toff_sum, hterms _ hi, if_pos hlt, Option.getD_some]

/-- Sums that grow from 0 have one step across a number below the last of them. -/
theorem exists_step {f : ℕ → ℕ} {n p : ℕ} (h0 : f 0 = 0) (hp : p < f n) :
    ∃ i, i < n ∧ f i ≤ p ∧ p < f (i + 1) := by
  induction n with
  | zero => omega
  | succ n ih =>
    by_cases hn : p < f n
    · obtain ⟨i, hi, hstep⟩ := ih hn
      exact ⟨i, Nat.lt_succ_of_lt hi, hstep⟩
    · exact ⟨n, Nat.lt_succ_self n, Nat.not_lt.mp hn, hp⟩

theorem step_unique {f : ℕ → ℕ} (hf : Monotone f) {i j p : ℕ} (hi : f i ≤ p ∧ p < f (i + 1))
    (hj : f j ≤ p ∧ p < f (j + 1)) : i = j := by
  rcases Nat.lt_trichotomy i j with hlt | heq | hgt
  · have := hf (Nat.succ_le_of_lt hlt)
    rw [Nat.succ_eq_add_one] at this
    omega
  · exact heq
  · have := hf (Nat.succ_le_of_lt hgt)
    rw [Nat.succ_eq_add_one] at this
    omega

theorem end_eq (F : Format) (n : ℕ → ℕ) {l i : ℕ} (hi : F.nlist i = l) :
    8 * listBefore F n l i + 8 * (2 * n i) = 8 * listBefore F n l (i + 1) := by
  rw [listBefore_succ, if_pos hi]
  omega

theorem tiled_of (hstart : ∀ i, i < F.ntabs →
      startOf F m i = 8 * listBefore F m.subtabCount (F.nlist i) i)
    (hsize : ∀ l, l < F.nlists → sizeOf F m l = 8 * listBefore F m.subtabCount l F.ntabs) :
    Tiled F m where
  start := hstart
  size := hsize
  inside i hi := by
    have hmono := listBefore_mono F m.subtabCount (F.nlist i) (Nat.succ_le_of_lt hi)
    rw [Nat.succ_eq_add_one] at hmono
    rw [hstart i hi, hsize _ (F.nlist_lt i hi), end_eq F _ rfl]
    omega
  one l hl p hp := by
    have hmono : Monotone fun i => 8 * listBefore F m.subtabCount l i :=
      fun i j hij => Nat.mul_le_mul_left 8 (listBefore_mono F m.subtabCount l hij)
    rw [hsize l hl] at hp
    obtain ⟨i, hi, hle, hlt⟩ : ∃ i, i < F.ntabs ∧ 8 * listBefore F m.subtabCount l i ≤ p ∧
        p < 8 * listBefore F m.subtabCount l (i + 1) :=
      @exists_step (fun i => 8 * listBefore F m.subtabCount l i) F.ntabs p rfl hp
    -- a subtable of another list is no step
    have hil : F.nlist i = l := by
      by_contra hne
      rw [listBefore_succ, if_neg hne] at hlt
      omega
    refine ⟨i, ⟨hi, hil, ?_, ?_⟩, fun j hj => ?_⟩
    · rwa [hstart i hi, hil]
    · rwa [hstart i hi, hil, end_eq F _ hil]
    · obtain ⟨hjn, hjl, hjle, hjlt⟩ := hj
      rw [hstart j hjn, hjl] at hjle hjlt
      rw [end_eq F _ hjl] at hjlt
      exact step_unique hmono ⟨hjle, hjlt⟩ ⟨hle, hlt⟩

theorem tilesRight_iff (F : Format) (m : Mk) : TilesRight F m ↔ ListsFit F m := by
  constructor
  · intro hall
    by_contra hno
    obtain ⟨hfit, hrest⟩ := not_or.mp hno
    obtain ⟨htoff, heof⟩ := not_or.mp hrest
    have htiled := hall (mt (toff_none m F.ntabs).mp htoff) (mt (eof_none m F.ntabs).mp heof)
    apply hfit
    intro l hl
    rw [← htiled.size l hl]
    exact Nat.mod_lt _ (by decide)
  · rintro (hfit | htoff | heof)
    · intro htoff _
      apply tiled_of
      · intro i hi
        have hsplit := slotsBefore_split F m.subtabCount (Nat.le_of_lt hi)
        obtain ⟨hoffset, hlt⟩ := offset_exact htoff (fun j hj => table_lt hfit hj) (Nat.le_of_lt hi)
        rw [startOf, hoffset, listSum_mul]
        omega
      · intro l hl
        rw [sizeOf, listSlots_mul]
        exact Nat.mod_eq_of_lt (hfit l hl)
    · exact fun hne => absurd ((toff_none m F.ntabs).mpr htoff) hne
    · exact fun _ hne => absurd ((eof_none m F.ntabs).mpr heof) hne

end sizes

/-! ## Subtables of a generator -/

/-- A subtable with room for two slots for each of its records is loaded just as it is to
be when no offset is beyond 32 bits, and the subtables of the lists of a generator fill
their buffers when it finishes just when every list is within 32 bits or the sizes are
refused. -/
theorem subtables_iff (F : Format) :
    (∀ s : Subtable, s.LoadsRight F ↔ s.Below F) ∧ ∀ m : Mk, TilesRight F m ↔ ListsFit F m :=
  ⟨Subtable.loadsRight_iff F, tilesRight_iff F⟩

/-- A generator takes 2^28 records of one subtable, and does not refuse their sizes. -/
theorem tiles_wrap {n : ℕ} (hn : n = 2 ^ 28) :
    ∃ m, cdbGenerator newFd [] (emptyRecords n) = .ok m ∧ ¬ TilesRight cdbFormat m := by
  obtain ⟨m, hgen, hfp⟩ := @cdbGenerator_empty n (by omega)
  have hadded := cdbGenerator_added hgen
  have hcounts := subtabCount_eq hadded
  refine ⟨m, hgen, fun hall => ?_⟩
  rcases (tilesRight_iff cdbFormat m).mp hall with hfit | hrefused
  · have hlt := table_lt hfit (cdbFormat.ntab_lt (cdbFormat.hash []))
    rw [hcounts, countOf_empty, if_pos rfl] at hlt
    omega
  · rw [hcounts, Nat.mod_eq_of_lt hadded.fp_lt, hfp] at hrefused
    exact not_fitsOrRefused hn (.inr hrefused)

/-- The buffer of their list has no byte. -/
theorem subtables_overlap : ∃ m, cdbGenerator newFd [] (emptyRecords (2 ^ 28)) = .ok m ∧
    ¬ TilesRight cdbFormat m :=
  tiles_wrap rfl

end Perp.HashSubtable
