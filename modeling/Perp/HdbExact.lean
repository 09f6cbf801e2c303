import Perp.HashFinish
import Perp.HashSearch
import Perp.HdbFormat

set_option autoImplicit false

/-!
# Lookups in an hdb

When `hdb_find()` and `hdb_findnext()` find the records of a key in the file that
the generator has left, and no others.
-/
namespace Perp.HdbExact
open Pkt ByteImage IoqPut HashFile HdbFormat HashImage HashSearch HashAdded HashTables HashFinish

variable {d : Fd} {mem : List Bool} {comment : List UInt8} {recs : List Rec} {file : List UInt8}
  {tbl : ℕ → ℕ → Option (ℕ × Rec)} {m : Hdbmk} {c : Calls} {db : Hdb} {rbase : ℕ}

/-- The records of an hdb begin after the comment. -/
def hdbRbase (comment : List UInt8) : ℕ := hdbCbase + comment.length

theorem added_hdbmkStart (h : (hdbmkStart d mem comment).1 ≠ -1) :
    Added hdbFormat d.file hdbCbase comment (hdbRbase comment) []
        (hdbmkStart d mem comment).2.toMk ∧
      (hdbmkStart d mem comment).2.rbase = hdbRbase comment := by
  unfold hdbmkStart at h ⊢
  simp only at h ⊢
  by_cases hseek : (lseek d hdbCbase).1 = -1
  · simp [hseek] at h
  · obtain ⟨hfile, hoff⟩ := lseek_spec hseek
    have hsent := @sent_nil (ioqInit (lseek d hdbCbase).2 hdbmkBufsize) rfl
    change Sent (lseek d hdbCbase).2.file (lseek d hdbCbase).2.off _ _ at hsent
    rw [hfile, hoff] at hsent
    rw [if_neg hseek] at h ⊢
    by_cases hnil : comment = []
    · subst hnil
      rw [if_pos rfl]
      have hlt : hdbCbase < 2 ^ 32 := by decide
      exact ⟨⟨rfl, hlt, hsent, fun l => rfl, fun i => rfl, by simp⟩, rfl⟩
    · rw [if_neg hnil] at h ⊢
      have hadd := @ufuncU32add_eq_some hdbCbase comment.length
      cases hres : ufuncU32add hdbCbase comment.length with
      | none => simp [hres] at h
      | some fp =>
        obtain ⟨hlt, rfl⟩ := (hadd (by decide)).mp hres
        simp only [hres] at h ⊢
        by_cases hput : (ioqPut (ioqInit (lseek d hdbCbase).2 hdbmkBufsize) comment).1 = -1
        · simp [hput] at h
        · rw [if_neg hput]
          have hsent' := hsent.put ((ioqPut_ret _ _).resolve_right hput)
          refine ⟨⟨rfl, hlt, ?_, fun l => rfl, fun i => rfl, by simp⟩, rfl⟩
          simpa using hsent'

/-- `hdbmk_add()` keeps what the generator is to hold. -/
theorem added_hdbmkAdd {f pre key data : List UInt8} {off : ℕ}
    (h : Added hdbFormat f off pre rbase recs m.toMk) (hr : (hdbmkAdd m key data).1 ≠ -1) :
    Added hdbFormat f off pre rbase (recs ++ [(key, data)]) (hdbmkAdd m key data).2.toMk ∧
      (hdbmkAdd m key data).2.rbase = m.rbase := by
  unfold hdbmkAdd addition at hr ⊢
  simp only at hr ⊢
  by_cases hlong : key.length > hdbU24max ∨ data.length > hdbU24max
  · simp [hlong] at hr
  · rw [if_neg hlong] at hr ⊢
    obtain ⟨hkey, hdata⟩ := not_or.mp hlong
    exact ⟨h.add hr (fun _ => Nat.not_lt.mp hkey) fun _ => Nat.not_lt.mp hdata, trivial⟩

theorem nrecsOf_eq {f pre : List UInt8} {off : ℕ} {m : Mk} (h : Added hdbFormat f off pre rbase recs m)
    (hpos : 0 < rbase) (i : ℕ) : nrecsOf m i = cnt hdbFormat rbase recs fun j => j < i := by
  have hlt := fun P => two_cnt_lt hpos (h.fp ▸ h.fp_lt) (P := P)
  induction i with
  | zero => rw [nrecsOf, cnt_none hdbFormat rbase recs (by simp)]
  | succ i ih =>
    have hlti := hlt fun j => j < i + 1
    rw [cnt_lt_succ] at hlti ⊢
    rw [nrecsOf, ih, h.counts, ← cnt_eq, Nat.mod_eq_of_lt (by omega)]

/-- The file that the generator leaves -/
theorem hdbmk_spec (h : hdbmk d mem comment recs = .ok file) :
    ∃ m tbl, Finished hdbFormat hdbCbase (hdbRbase comment) comment (hdbHead m) recs m.toMk file tbl ∧
      m.fp = eod hdbFormat (hdbRbase comment) recs ∧ m.rbase = hdbRbase comment ∧
      nrecsOf m.toMk hdbNtabs = recs.length := by
  obtain ⟨m0, hinit, h⟩ := bind_eq_ok.mp h
  obtain ⟨m, hadds, h⟩ := bind_eq_ok.mp h
  obtain ⟨fd, hfinish, h⟩ := bind_eq_ok.mp h
  obtain rfl := Except.ok.inj h
  obtain ⟨hr, rfl⟩ := returned_eq_ok.mp hinit
  obtain ⟨hadded, hrbase⟩ := foldlM_run
    (P := fun pre m => Added hdbFormat d.file hdbCbase comment (hdbRbase comment) pre m.toMk ∧
      m.rbase = hdbRbase comment)
    (by
      intro pre r post m m' _ hm hadd
      obtain ⟨hret, rfl⟩ := returned_eq_ok.mp hadd
      obtain ⟨hnext, hsame⟩ := added_hdbmkAdd hm.1 hret
      exact ⟨hnext, hsame.trans hm.2⟩)
    (added_hdbmkStart hr) hadds
  have hpos : 0 < hdbRbase comment := Nat.lt_of_lt_of_le (by decide) (Nat.le_add_right hdbCbase _)
  have hhead : (hdbHead m).flatten.length ≤ hdbCbase := by
    have hptrs := @pieces_length (hdbPointer m.toMk) 8 (fun _ => rfl) hdbNtabs
    rw [hdbHead, List.flatten_cons, List.flatten_cons, List.length_append, List.length_append, hptrs]
    exact Nat.le_refl hdbCbase
  obtain ⟨tbl, hfinished⟩ := finish_spec hadded hpos rfl hhead hfinish
  refine ⟨m, tbl, hfinished, hadded.fp, hrbase, ?_⟩
  rw [nrecsOf_eq hadded hpos]
  exact cnt_all hdbFormat (hdbRbase comment) recs

/-- Where the parts of the header stand -/
theorem hdbHead_at {f : List UInt8} (h : At f 0 (hdbHead m).flatten) :
    At f 0 hdb32Ident ∧ At f 16 (pack32 (nrecsOf m.toMk hdbNtabs)) ∧ At f 20 (pack32 m.rbase) ∧
      ∀ i, i < hdbNtabs → At f (24 + 8 * i) (pack32 (slots m.toMk i)) ∧
        At f (24 + 8 * i + 4) (pack32 (m.fp % 2 ^ 32 + offset m.toMk i)) := by
  rw [hdbHead, List.flatten_cons, List.flatten_cons, at_append, at_append, at_append] at h
  obtain ⟨hident, ⟨hnrecs, hrbase⟩, hptrs⟩ := h
  refine ⟨hident, hnrecs, hrbase, fun i hi => ?_⟩
  have hptr := @at_pieces f 24 hdbNtabs (hdbPointer m.toMk) 8 i (fun _ => rfl) hptrs hi
  exact at_append.mp hptr

/-- What `hdb_init()` makes of the file -/
structure Opened (file : List UInt8) (comment : List UInt8) (recs : List Rec) (m : Mk)
    (db : Hdb) : Prop where
  file : db.file = file
  nrecs : db.nrecs = recs.length
  cbase : db.cbase = hdbCbase
  rbase : db.rbase = hdbRbase comment
  hbase : db.hbase = eod hdbFormat (hdbRbase comment) recs
  tndx : ∀ i, i < hdbNtabs → db.tndx.getD i ⟨0, 0⟩ =
    ⟨tslotsOf hdbFormat (hdbRbase comment) recs i,
      eod hdbFormat (hdbRbase comment) recs + offset m i⟩

theorem hdbInit_spec
    (h : Finished hdbFormat hdbCbase (hdbRbase comment) comment (hdbHead m) recs m.toMk file tbl)
    (hfp : m.fp = eod hdbFormat (hdbRbase comment) recs) (hrbase : m.rbase = hdbRbase comment)
    (hnrecs : nrecsOf m.toMk hdbNtabs = recs.length) (mmaps : Bool) (hc : Fine c) :
    ∃ db c', hdbInit file mmaps c = (0, db, c') ∧ Fine c' ∧
      Opened file comment recs m.toMk db := by
  have hlen : (hdbHead m).flatten.length = hdbCbase := by
    have hptrs := @pieces_length (hdbPointer m.toMk) 8 (fun _ => rfl) hdbNtabs
    rw [hdbHead, List.flatten_cons, List.flatten_cons, List.length_append, List.length_append, hptrs]
    rfl
  obtain ⟨c', hread, hc'⟩ := @dbRead_spec (dbZero file mmaps) c _ 0 hdbCbase hc h.head hlen
    (by decide)
  have heod := h.image.eod_lt
  have hbound := length_le_eod (F := hdbFormat) (hdbRbase comment) recs
  have hle := Nat.le_mul_of_pos_left recs.length (@hdr_pos hdbFormat)
  obtain ⟨hident, hat16, hat20, hptrs⟩ :=
    @hdbHead_at m (hdbHead m).flatten ⟨[], by rw [List.append_nil, List.drop_zero]⟩
  rw [hnrecs] at hat16
  rw [hrbase] at hat20
  simp only [h.slots, hfp, Nat.mod_eq_of_lt heod] at hptrs
  generalize (hdbHead m).flatten = header at hread hident hat16 hat20 hptrs
  have htake : header.take hdbIdlen = hdb32Ident := by
    have hslice := hident.slice_eq
    rwa [slice, List.drop_zero] at hslice
  have htndx : ∀ i, i < hdbNtabs → ∀ db,
      (loadHeader db header).tndx.getD i ⟨0, 0⟩ =
        ⟨tslotsOf hdbFormat (hdbRbase comment) recs i,
          eod hdbFormat (hdbRbase comment) recs + offset m.toMk i⟩ := by
    intro i hi db
    have htend := h.image.tend_lt i hi
    obtain ⟨hslots, hoff⟩ := hptrs i hi
    have hslots' := unpack32_at hslots (by omega)
    have hoff' := unpack32_at hoff (by omega)
    rw [List.getD_eq_getElem?_getD]
    simp only [loadHeader, List.getElem?_map, List.getElem?_range hi, Option.map_some,
      Option.getD_some, List.drop_drop, hdbIdlen, ← Nat.add_assoc, hslots', hoff']
  refine ⟨loadHeader ⟨dbZero file mmaps, 0, List.replicate hdbNtabs ⟨0, 0⟩, 0, 0⟩ header, c', ?_,
    hc', ?_⟩
  · unfold hdbInit
    simp only [hread]
    rw [if_neg (not_not.mpr htake)]
  · exact
      { file := rfl
        nrecs := unpack32_at hat16 (by omega)
        cbase := rfl
        rbase := by
          have hunpack := unpack32_at hat20 (by omega)
          rwa [show (20 : ℕ) = hdbIdlen + 4 from rfl, ← List.drop_drop] at hunpack
        hbase := congrArg Valoff.offset (htndx 0 (by decide)
          ⟨dbZero file mmaps, 0, List.replicate hdbNtabs ⟨0, 0⟩, 0, 0⟩)
        tndx := fun i hi => htndx i hi _ }

/-- What an hdb visits is what its `Db` visits. -/
theorem visits_ofDb {γ : Type} {f : Db → Calls → ℤ × Db × Calls}
    {next : Hdb → Calls → ℤ × Hdb × Calls} (hnext : ∀ db c, next db c = ofDb db (f db.toDb c))
    (cursor : Db → γ) (db : Hdb) (n : ℕ) (r : ℤ × Db × Calls) :
    visits next (fun db => cursor db.toDb) n (ofDb db r) = visits f cursor n r := by
  induction n generalizing db r with
  | zero => rfl
  | succ n ih =>
    have hrest := ih { db with toDb := r.2.1 } (f r.2.1 r.2.2)
    simp only [visits, ofDb, hnext] at hrest ⊢
    rw [hrest]

/-- What a search in the file visits -/
theorem visits_hdbFind
    (h : Finished hdbFormat hdbCbase (hdbRbase comment) comment (hdbHead m) recs m.toMk file tbl)
    (hdb : Opened file comment recs m.toMk db) (hc : Fine c) {key : List UInt8}
    (hkey : key.length ≤ hdbU24max) {n : ℕ} (hn : recs.length < n) :
    visits hdbFindnext (fun db => (hdbDpos db, db.dlen)) n (hdbFind db c key) =
      (((layout hdbFormat (hdbRbase comment) recs).filter (hit hdbFormat key)).map
        (dataOf hdbFormat), 0) := by
  have hs : Seeking hdbFormat
      { db.toDb with key := key, klen := key.length, h := hdbFormat.hash key } key :=
    ⟨rfl, rfl, rfl⟩
  unfold hdbFind
  rw [if_neg (Nat.not_lt.mpr hkey)]
  simp only [hdb.tndx _ (hdbNtab_lt _)]
  refine (visits_ofDb (fun _ _ => rfl) (dataCursor hdbFormat) _ n _).trans ?_
  exact visits_probeTable h.image hs hdb.file hn hc

/-- `hdb_find()` of `key` and `hdb_findnext()` after it return 1 for each record with
the key, in the order in which they were added, with the cursors on its data, and
then 0; but `hdb_find()` returns -1 with `ERANGE` for a key that is too long. It does
not matter whether the file is mapped, nor in what pieces it is read. -/
def HdbFinds (file comment : List UInt8) (recs : List Rec) (key : List UInt8) : Prop :=
  (∀ mmaps c n, Fine c → recs.length < n →
    (hdbInit file mmaps c).1 = 0 ∧
      if key.length > hdbU24max then
        (hdbFind (hdbInit file mmaps c).2.1 (hdbInit file mmaps c).2.2 key).1 = -1 ∧
          (hdbFind (hdbInit file mmaps c).2.1 (hdbInit file mmaps c).2.2 key).2.2.errno = .erange
      else
        visits hdbFindnext (fun db => (hdbDpos db, db.dlen)) n
            (hdbFind (hdbInit file mmaps c).2.1 (hdbInit file mmaps c).2.2 key) =
          (((layout hdbFormat (hdbRbase comment) recs).filter fun p => p.2.1 = key).map
            (dataOf hdbFormat), 0)) ∧
    ∀ p ∈ layout hdbFormat (hdbRbase comment) recs,
      slice file (dataOf hdbFormat p).1 (dataOf hdbFormat p).2 = p.2.2

/-- What the lookup of a key visits in a file of the generator -/
theorem hdb_visits (h : hdbmk d mem comment recs = .ok file) {key : List UInt8}
    (hkey : key.length ≤ hdbU24max) (mmaps : Bool) {n : ℕ} (hc : Fine c) (hn : recs.length < n) :
    visits hdbFindnext (fun db => (hdbDpos db, db.dlen)) n
        (hdbFind (hdbInit file mmaps c).2.1 (hdbInit file mmaps c).2.2 key) =
      (((layout hdbFormat (hdbRbase comment) recs).filter (hit hdbFormat key)).map
        (dataOf hdbFormat), 0) := by
  obtain ⟨m, tbl, hfin, hfp, hrbase, hnrecs⟩ := hdbmk_spec h
  obtain ⟨db, c', hinit, hc', hopened⟩ := hdbInit_spec hfin hfp hrbase hnrecs mmaps hc
  rw [hinit]
  exact visits_hdbFind hfin hopened hc' hkey hn

/-- No record has a key that is too long for a search. -/
theorem searchable_of_long (h : hdbmk d mem comment recs = .ok file) {key : List UInt8}
    (hkey : key.length > hdbU24max) : Searchable hdbFormat recs key := by
  obtain ⟨m, tbl, hfin, -⟩ := hdbmk_spec h
  refine .inr fun r hr => ?_
  have hle : r.1.length ≤ hdbU24max := (hfin.image.lengths r hr).1
  constructor
  · rintro rfl
    exact absurd hle (Nat.not_le.mpr hkey)
  · rintro ⟨-, heq⟩
    rw [heq, repeated_length] at hle
    exact absurd hle (Nat.not_le.mpr hkey)

theorem searchable_of_hdbFinds (h : hdbmk d mem comment recs = .ok file) {key : List UInt8}
    (hfinds : HdbFinds file comment recs key) : Searchable hdbFormat recs key := by
  by_cases hkey : key.length > hdbU24max
  · exact searchable_of_long h hkey
  · have hvisits := hdb_visits h (Nat.not_lt.mp hkey) true fine_nil (Nat.lt_succ_self _)
    have hexact := (hfinds.1 true _ _ fine_nil (Nat.lt_succ_self _)).2
    rw [if_neg hkey] at hexact
    rw [hexact] at hvisits
    exact (hits_iff hdbFormat (hdbRbase comment) recs key).mp (congrArg Prod.fst hvisits).symm

/-- The lookups of a key are exact just when the key is searchable. -/
theorem hdbFind_exact_iff (h : hdbmk d mem comment recs = .ok file) (key : List UInt8) :
    HdbFinds file comment recs key ↔ Searchable hdbFormat recs key := by
  constructor
  · exact searchable_of_hdbFinds h
  · intro hs
    obtain ⟨m, tbl, hfin, hfp, hrbase, hnrecs⟩ := hdbmk_spec h
    refine ⟨fun mmaps c n hc hn => ⟨?_, ?_⟩, fun p hp => ?_⟩
    · obtain ⟨db, c', hinit, -⟩ := hdbInit_spec hfin hfp hrbase hnrecs mmaps hc
      rw [hinit]
    · by_cases hkey : key.length > hdbU24max
      · rw [if_pos hkey, hdbFind, if_pos hkey]
        exact ⟨rfl, rfl⟩
      · rw [if_neg hkey, ← (hits_iff hdbFormat (hdbRbase comment) recs key).mpr hs]
        exact hdb_visits h (Nat.not_lt.mp hkey) mmaps hc hn
    · exact (slice_recordOf (layout_at hfin.image.records hp)).2

/-- The bytes of "comment" -/
def someComment : List UInt8 := [99, 111, 109, 109, 101, 110, 116]

/-- The generator makes a file of one record with that key. -/
theorem exists_hdbmk_longKey :
    ∃ file, hdbmk newFd [] someComment [(longKey, [])] = .ok file := by
  have hok : (hdbmk newFd [] someComment [(longKey, [])]).isOk = true := by decide +kernel
  cases hrun : hdbmk newFd [] someComment [(longKey, [])] with
  | ok file => exact ⟨file, rfl⟩
  | error e =>
    rw [hrun] at hok
    cases hok

theorem hdbFind_exact_iff_longKey :
    ∃ file, hdbmk newFd [] someComment [(longKey, [])] = .ok file ∧
      (HdbFinds file someComment [(longKey, [])] [1] ↔
        Searchable hdbFormat [(longKey, [])] [1]) := by
  obtain ⟨file, hfile⟩ := exists_hdbmk_longKey
  exact ⟨file, hfile, hdbFind_exact_iff hfile [1]⟩

/-- The record with that key is not found. -/
theorem hdbFind_misses : ∃ file, hdbmk newFd [] someComment [(longKey, [])] = .ok file ∧
    ¬ HdbFinds file someComment [(longKey, [])] longKey := by
  obtain ⟨file, hfile⟩ := exists_hdbmk_longKey
  refine ⟨file, hfile, fun hfinds => ?_⟩
  exact longKey_not_searchable _ (List.mem_singleton_self _) rfl
    (searchable_of_hdbFinds hfile hfinds)

end Perp.HdbExact
