import Perp.CdbFormat
import Perp.HashFinish
import Perp.HashSearch

set_option autoImplicit false

/-!
# Lookups in a cdb

When `cdb_find()` and `cdb_findnext()` find the records of a key in the file that
the generator has left, and no others.
-/
namespace Perp.CdbExact
open Pkt ByteImage IoqPut HashFile CdbFormat HashImage HashSearch HashAdded HashTables HashFinish

/-- The records of a cdb begin after section P. -/
def cdbRbase : ℕ := 256 * 8

variable {d : Fd} {mem : List Bool} {recs : List Rec} {file : List UInt8}
  {tbl : ℕ → ℕ → Option (ℕ × Rec)} {m : Mk} {c : Calls} {db : Db}

theorem added_cdbmkInit (h : (cdbmkInit d mem).1 ≠ -1) :
    Added cdbFormat d.file cdbRbase [] cdbRbase [] (cdbmkInit d mem).2 := by
  obtain ⟨hfile, hoff⟩ := lseek_spec h
  have hsent := @sent_nil (ioqInit (lseek d (4 * 2 * cdbNtabs)).2 cdbmkBufsize) rfl
  have hlt : cdbRbase < 2 ^ 32 := by decide
  refine ⟨rfl, hlt, ?_, fun l => rfl, fun i => rfl, by simp⟩
  change Sent (lseek d (4 * 2 * cdbNtabs)).2.file (lseek d (4 * 2 * cdbNtabs)).2.off _ _ at hsent
  rw [hfile, hoff] at hsent
  exact hsent

/-- The file that the generator leaves -/
theorem cdbmk_spec (h : cdbmk d mem recs = .ok file) :
    ∃ m tbl, Finished cdbFormat cdbRbase cdbRbase [] (cdbHead m) recs m file tbl ∧
      m.fp = eod cdbFormat cdbRbase recs := by
  obtain ⟨m0, hinit, h⟩ := bind_eq_ok.mp h
  obtain ⟨m, hadds, h⟩ := bind_eq_ok.mp h
  obtain ⟨fd, hfinish, h⟩ := bind_eq_ok.mp h
  obtain rfl := Except.ok.inj h
  obtain ⟨hr, rfl⟩ := returned_eq_ok.mp hinit
  have hadded := foldlM_run (P := fun pre m => Added cdbFormat d.file cdbRbase [] cdbRbase pre m)
    (by
      intro pre r post m m' _ hm hadd
      obtain ⟨hret, rfl⟩ := returned_eq_ok.mp hadd
      exact hm.add hret (fun h => Nat.le_sub_one_of_lt h) fun h => Nat.le_sub_one_of_lt h)
    (added_cdbmkInit hr) hadds
  have hhead : (cdbHead m).flatten.length ≤ cdbRbase :=
    Nat.le_of_eq (@pieces_length (cdbPointer m) 8 (fun _ => rfl) cdbNtabs)
  obtain ⟨tbl, hfinished⟩ := finish_spec hadded (by decide) rfl hhead hfinish
  exact ⟨m, tbl, hfinished, hadded.fp⟩

/-- The slots and the offset of a subtable are read back from section P. -/
theorem index_at (h : Finished cdbFormat cdbRbase cdbRbase [] (cdbHead m) recs m file tbl)
    (hfp : m.fp = eod cdbFormat cdbRbase recs) {i : ℕ} (hi : i < cdbNtabs) :
    At file (i * 8) (pack32 (eod cdbFormat cdbRbase recs + offset m i) ++
      pack32 (tslotsOf cdbFormat cdbRbase recs i)) := by
  have hat := @at_pieces file 0 cdbNtabs (cdbPointer m) 8 i (fun _ => rfl) h.head hi
  rw [Nat.zero_add, Nat.mul_comm, cdbPointer, h.slots, hfp,
    Nat.mod_eq_of_lt h.image.eod_lt] at hat
  exact hat

/-- `cdb_init()` on the file -/
theorem cdbInit_spec (h : Finished cdbFormat cdbRbase cdbRbase [] (cdbHead m) recs m file tbl)
    (hfp : m.fp = eod cdbFormat cdbRbase recs) (mmaps : Bool) (hc : Fine c) :
    ∃ c', cdbInit file mmaps c =
        (0, { dbZero file mmaps with hbase := eod cdbFormat cdbRbase recs }, c') ∧ Fine c' := by
  have hat := (at_append.mp (index_at h hfp (by decide : 0 < cdbNtabs))).1
  obtain ⟨c', hread, hc'⟩ := @dbRead_spec (dbZero file mmaps) c _ 0 4 hc hat rfl (by decide)
  refine ⟨c', ?_, hc'⟩
  have hunpack := unpack32_pack (eod cdbFormat cdbRbase recs + offset m 0) (by
    exact h.image.eod_lt) []
  rw [List.append_nil] at hunpack
  unfold cdbInit
  simp only [hread, hunpack]
  rfl

/-- What a search in the file visits -/
theorem visits_cdbFind (h : Finished cdbFormat cdbRbase cdbRbase [] (cdbHead m) recs m file tbl)
    (hfp : m.fp = eod cdbFormat cdbRbase recs) (hfile : db.file = file) (hc : Fine c)
    (key : List UInt8) {n : ℕ} (hn : recs.length < n) :
    visits cdbFindnext (dataCursor cdbFormat) n (cdbFind db c key) =
      (((layout cdbFormat cdbRbase recs).filter (hit cdbFormat key)).map (dataOf cdbFormat), 0) := by
  have hlt := cdbNtab_lt (cdbFormat.hash key)
  have hat := index_at h hfp hlt
  have htend := h.image.tend_lt _ hlt
  have hs : Seeking cdbFormat
      { db with key := key, klen := key.length, h := cdbFormat.hash key } key := ⟨rfl, rfl, rfl⟩
  obtain ⟨c', hread, hc'⟩ := @dbRead_spec
    { db with key := key, klen := key.length, h := cdbFormat.hash key } c _ _ 8 hc
    (hfile.symm ▸ hat) rfl (by decide)
  have hbase := unpack32_pack (eod cdbFormat cdbRbase recs + offset m (cdbNtab (cdbFormat.hash key)))
    (by omega) (pack32 (tslotsOf cdbFormat cdbRbase recs (cdbNtab (cdbFormat.hash key))))
  have hslots := unpack32_pack (tslotsOf cdbFormat cdbRbase recs (cdbNtab (cdbFormat.hash key)))
    (by omega) []
  rw [List.append_nil] at hslots
  unfold cdbFind
  simp only [hread, hbase, List.drop_left' (pack32_length _), hslots]
  exact visits_probeTable h.image hs hfile hn hc'

/-- `cdb_find()` of `key` and `cdb_findnext()` after it return 1 for each record with
the key, in the order in which they were added, with the cursors on its data, and
then 0. It does not matter whether the file is mapped, nor in what pieces it is
read. -/
def CdbFinds (file : List UInt8) (recs : List Rec) (key : List UInt8) : Prop :=
  (∀ mmaps c n, Fine c → recs.length < n →
    (cdbInit file mmaps c).1 = 0 ∧
      visits cdbFindnext (fun db => (cdbDpos db, db.dlen)) n
          (cdbFind (cdbInit file mmaps c).2.1 (cdbInit file mmaps c).2.2 key) =
        (((layout cdbFormat cdbRbase recs).filter fun p => p.2.1 = key).map (dataOf cdbFormat),
          0)) ∧
    ∀ p ∈ layout cdbFormat cdbRbase recs,
      slice file (dataOf cdbFormat p).1 (dataOf cdbFormat p).2 = p.2.2

/-- What the lookup of a key visits in a file of the generator -/
theorem cdb_visits (h : cdbmk d mem recs = .ok file) (key : List UInt8) (mmaps : Bool) {n : ℕ}
    (hc : Fine c) (hn : recs.length < n) :
    (cdbInit file mmaps c).1 = 0 ∧
      visits cdbFindnext (fun db => (cdbDpos db, db.dlen)) n
          (cdbFind (cdbInit file mmaps c).2.1 (cdbInit file mmaps c).2.2 key) =
        (((layout cdbFormat cdbRbase recs).filter (hit cdbFormat key)).map (dataOf cdbFormat),
          0) := by
  obtain ⟨m, tbl, hfin, hfp⟩ := cdbmk_spec h
  obtain ⟨c', hinit, hc'⟩ := cdbInit_spec hfin hfp mmaps hc
  rw [hinit]
  exact ⟨rfl, visits_cdbFind hfin hfp rfl hc' key hn⟩

theorem searchable_of_cdbFinds (h : cdbmk d mem recs = .ok file) {key : List UInt8}
    (hfinds : CdbFinds file recs key) : Searchable cdbFormat recs key := by
  have hvisits := (cdb_visits h key true fine_nil (Nat.lt_succ_self _)).2
  rw [(hfinds.1 true _ _ fine_nil (Nat.lt_succ_self _)).2] at hvisits
  exact (hits_iff cdbFormat cdbRbase recs key).mp (congrArg Prod.fst hvisits).symm

/-- The generator makes a file of one record with that key. -/
theorem exists_cdbmk_longKey : ∃ file, cdbmk newFd [] [(longKey, [])] = .ok file := by
  obtain ⟨d, hd⟩ := @finish_smooth cdbFormat (cdbmkAdd (cdbmkInit newFd []).2 longKey []).2
    ⟨by decide +kernel, by decide +kernel⟩ (by decide +kernel) (by decide +kernel)
    (by decide +kernel) (by decide +kernel) (cdbHead (cdbmkAdd (cdbmkInit newFd []).2 longKey []).2)
  have hinit : returned (cdbmkInit newFd []) = .ok (cdbmkInit newFd []).2 :=
    returned_eq_ok.mpr ⟨by decide, rfl⟩
  have hadd : returned (cdbmkAdd (cdbmkInit newFd []).2 longKey []) =
      .ok (cdbmkAdd (cdbmkInit newFd []).2 longKey []).2 :=
    returned_eq_ok.mpr ⟨by decide +kernel, rfl⟩
  exact ⟨d.file, bind_eq_ok.mpr ⟨_, hinit, bind_eq_ok.mpr ⟨_, bind_eq_ok.mpr ⟨_, hadd, rfl⟩,
    bind_eq_ok.mpr ⟨d, hd, rfl⟩⟩⟩⟩

/-- The lookups of a key are exact just when the key is searchable. -/
theorem cdbFind_exact_iff (h : cdbmk d mem recs = .ok file) (key : List UInt8) :
    CdbFinds file recs key ↔ Searchable cdbFormat recs key := by
  constructor
  · exact searchable_of_cdbFinds h
  · intro hs
    obtain ⟨m, tbl, hfin, -⟩ := cdbmk_spec h
    refine ⟨fun mmaps c n hc hn => ?_, fun p hp => ?_⟩
    · rw [← (hits_iff cdbFormat cdbRbase recs key).mpr hs]
      exact cdb_visits h key mmaps hc hn
    · exact (slice_recordOf (layout_at hfin.image.records hp)).2

theorem cdbFind_exact_iff_longKey : ∃ file, cdbmk newFd [] [(longKey, [])] = .ok file ∧
    (CdbFinds file [(longKey, [])] [1] ↔ Searchable cdbFormat [(longKey, [])] [1]) := by
  obtain ⟨file, hfile⟩ := exists_cdbmk_longKey
  exact ⟨file, hfile, cdbFind_exact_iff hfile [1]⟩

/-- The record with that key is not found. -/
theorem cdbFind_misses : ∃ file, cdbmk newFd [] [(longKey, [])] = .ok file ∧
    ¬ CdbFinds file [(longKey, [])] longKey := by
  obtain ⟨file, hfile⟩ := exists_cdbmk_longKey
  refine ⟨file, hfile, fun hfinds => ?_⟩
  exact longKey_not_searchable _ (List.mem_singleton_self _) rfl
    (searchable_of_cdbFinds hfile hfinds)

end Perp.CdbExact
