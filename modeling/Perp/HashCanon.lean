import Perp.HashCopy
import Perp.HashIterate

set_option autoImplicit false

/-!
# One file for the records

The file that a generator leaves is of its records alone, however its calls go; and a database that
is copied record by record comes out as it is, for cdb and for hdb.
-/
namespace Perp.HashCanon
open Pkt ByteImage IoqPut HashFile CdbFormat HdbFormat HashImage HashSearch HashAdded HashFinish
  CdbExact HdbExact HashCopy

/-! ## Generators of the same records -/

/-- What two generators hold that have been given the same records -/
structure Alike (m m' : Mk) : Prop where
  fp : m.fp = m'.fp
  lists : ∀ l, listed m l = listed m' l
  counts : m.subtabCount = m'.subtabCount

section alike
variable {F : Format} {f f' pre pre' out : List UInt8} {off off' rbase : ℕ} {recs : List Rec}
  {m m' : Mk}

theorem Added.alike (h : Added F f off pre rbase recs m) (h' : Added F f' off' pre' rbase recs m') :
    Alike m m' := by
  refine ⟨h.fp.trans h'.fp.symm, fun l => (h.lists l).trans (h'.lists l).symm, ?_⟩
  funext i
  exact (h.counts i).trans (h'.counts i).symm

theorem Alike.slots (h : Alike m m') : slots m = slots m' := by
  funext i
  rw [HashFile.slots, HashFile.slots, h.counts]

theorem Alike.toff (h : Alike m m') : toff m = toff m' := by
  funext i
  induction i with
  | zero => rfl
  | succ i ih => rw [HashFile.toff, HashFile.toff, ih, h.slots]

theorem Alike.offset (h : Alike m m') : offset m = offset m' := by
  funext i
  rw [HashFile.offset, HashFile.offset, h.toff]

theorem Alike.listSlots (h : Alike m m') (l : ℕ) : listSlots F m l = listSlots F m' l := by
  funext i
  induction i with
  | zero => rfl
  | succ i ih => rw [HashFile.listSlots, HashFile.listSlots, ih, h.slots]

theorem Alike.listMax (h : Alike m m') : listMax F m = listMax F m' := by
  have hsame : HashFile.listSlots F m = HashFile.listSlots F m' := funext fun l => h.listSlots l
  rw [HashFile.listMax, HashFile.listMax, hsame]

theorem Alike.loadRecord (h : Alike m m') (adj : ℕ) : loadRecord F m adj = loadRecord F m' adj := by
  funext tbuf e
  rw [HashFile.loadRecord, HashFile.loadRecord, h.slots, h.offset]

/-- The loops over the lists are at the same place, and have put the same bytes. -/
structure Level (f : List UInt8) (off : ℕ) (t t' : Tables) : Prop where
  tbuf : t.tbuf = t'.tbuf
  sum : t.sum = t'.sum
  sent : ∃ out, Sent f off t.q out ∧ Sent f off t'.q out

theorem Level.step {t t' u u' : Tables} {l : ℕ} (h : Level f off t t') (hm : Alike m m')
    (hrun : writeList F m t l = .ok u) (hrun' : writeList F m' t' l = .ok u') :
    Level f off u u' := by
  obtain ⟨tbuf, -, hload, hput, rfl⟩ := writeList_ok hrun
  obtain ⟨tbuf', -, hload', hput', rfl⟩ := writeList_ok hrun'
  obtain ⟨out, hsent, hsent'⟩ := h.sent
  rw [← hm.lists, ← hm.loadRecord, ← hm.listSlots, ← h.tbuf, ← h.sum, hload] at hload'
  obtain rfl := Except.ok.inj hload'
  rw [← hm.listSlots] at hput' ⊢
  refine ⟨rfl, by rw [h.sum], ?_⟩
  exact ⟨_, hsent.put ((ioqPut_ret _ _).resolve_right hput),
    hsent'.put ((ioqPut_ret _ _).resolve_right hput')⟩

theorem Level.lists {t t' u u' : Tables} (h : Level f off t t') (hm : Alike m m') (ls : List ℕ)
    (hrun : ls.foldlM (writeList F m) t = .ok u) (hrun' : ls.foldlM (writeList F m') t' = .ok u') :
    Level f off u u' := by
  induction ls generalizing t t' with
  | nil =>
    obtain rfl := Except.ok.inj hrun
    obtain rfl := Except.ok.inj hrun'
    exact h
  | cons l ls ih =>
    obtain ⟨t₁, hone, hrest⟩ := bind_eq_ok.mp hrun
    obtain ⟨t₁', hone', hrest'⟩ := bind_eq_ok.mp hrun'
    exact ih (h.step hm hone hone') hrest hrest'

/-- The same header goes over the same tables. -/
theorem finish_alike {head : List (List UInt8)} {d d' : Fd} (hm : Alike m m')
    (hsent : Sent f off m.ioq out) (hsent' : Sent f off m'.ioq out)
    (hrun : finish F head m = .ok d) (hrun' : finish F head m' = .ok d') : d.file = d'.file := by
  obtain ⟨-, -, t, hlists, hfile⟩ := finish_ok hrun
  obtain ⟨-, -, t', hlists', hfile'⟩ := finish_ok hrun'
  rw [← hm.listMax] at hlists'
  have hstart : Level f off ⟨List.replicate (listMax F m * 8 % 2 ^ 32) 0, m.ioq, 0⟩
      ⟨List.replicate (listMax F m * 8 % 2 ^ 32) 0, m'.ioq, 0⟩ := ⟨rfl, rfl, out, hsent, hsent'⟩
  obtain ⟨all, hall, hall'⟩ := (hstart.lists hm _ hlists hlists').sent
  rw [hfile _ _ _ hall, hfile' _ _ _ hall']

theorem pwrite_length_le {bytes : List UInt8} {n : ℕ} (hf : f.length ≤ n)
    (hbytes : off + bytes.length ≤ n) : (pwrite f off bytes).length ≤ n := by
  rw [pwrite]
  split
  · exact hf
  · simp only [List.length_append, List.length_take, List.length_replicate, List.length_drop]
    omega

/-- No offset in the file is beyond 32 bits. -/
theorem finish_length (h : Added F f off pre rbase recs m) (hpos : 0 < rbase)
    (hrbase : rbase = off + pre.length) {head : List (List UInt8)}
    (hhead : head.flatten.length ≤ off) {d : Fd} (hrun : finish F head m = .ok d)
    (hf : f.length < 2 ^ 32) : d.file.length < 2 ^ 32 := by
  obtain ⟨htoff, heof, t, hlists, hfile⟩ := finish_ok hrun
  have hm := sized h hpos (listMax_lt h hpos hlists) htoff heof
  obtain ⟨H, hsent, hlen, -⟩ := (lists_written h hm hpos hlists).tables
  have hend := hm.end_lt
  have hcnt := cnt_le_ntabs F rbase recs fun j => F.nlist j < F.nlists
  have heod : off + (pre ++ recs.flatMap (record F)).length = eod F rbase recs := by
    rw [List.length_append, records_length, eod, hrbase]
    omega
  have hput : off + (pre ++ recs.flatMap (record F) ++ H).length < 2 ^ 32 := by
    rw [List.length_append, hlen, before]
    omega
  have hle : d.file.length ≤ 2 ^ 32 - 1 := by
    rw [hfile _ _ _ hsent]
    exact pwrite_length_le (pwrite_length_le (by omega) (by omega)) (by omega)
  omega

end alike

section
variable {d d' : Fd} {mem mem' : List Bool} {recs : List Rec} {comment file file' : List UInt8}

/-- The generator before `cdbmk_finish()` -/
theorem cdbmk_added (h : cdbmk d mem recs = .ok file) : ∃ m fd,
    Added cdbFormat d.file cdbRbase [] cdbRbase recs m ∧
      finish cdbFormat (cdbHead m) m = .ok fd ∧ fd.file = file := by
  obtain ⟨m0, hinit, h⟩ := bind_eq_ok.mp h
  obtain ⟨m, hadds, h⟩ := bind_eq_ok.mp h
  obtain ⟨fd, hfinish, h⟩ := bind_eq_ok.mp h
  have hfile := Except.ok.inj h
  obtain ⟨hr, rfl⟩ := returned_eq_ok.mp hinit
  refine ⟨m, fd, ?_, hfinish, hfile⟩
  apply foldlM_run (P := fun pre m => Added cdbFormat d.file cdbRbase [] cdbRbase pre m) _
    (added_cdbmkInit hr) hadds
  intro pre r post m m' _ hm hadd
  obtain ⟨hret, rfl⟩ := returned_eq_ok.mp hadd
  exact hm.add hret (fun h => Nat.le_sub_one_of_lt h) fun h => Nat.le_sub_one_of_lt h

theorem cdbmk_canon (h : cdbmk d mem recs = .ok file) (h' : cdbmk d' mem' recs = .ok file')
    (hd : d.file = d'.file) : file = file' := by
  obtain ⟨m, fd, hadded, hfinish, rfl⟩ := cdbmk_added h
  obtain ⟨m', fd', hadded', hfinish', rfl⟩ := cdbmk_added h'
  have hm := Added.alike hadded hadded'
  have hhead : cdbHead m = cdbHead m' := by
    apply List.map_congr_left
    intro i _
    rw [cdbPointer, cdbPointer, hm.fp, hm.offset, hm.slots]
  rw [← hhead] at hfinish'
  rw [← hd] at hadded'
  exact finish_alike hm hadded.sent hadded'.sent hfinish hfinish'

theorem hdbmk_added (h : hdbmk d mem comment recs = .ok file) : ∃ m : Hdbmk, ∃ fd,
    Added hdbFormat d.file hdbCbase comment (hdbRbase comment) recs m.toMk ∧
      m.rbase = hdbRbase comment ∧ finish hdbFormat (hdbHead m) m.toMk = .ok fd ∧
        fd.file = file := by
  obtain ⟨m0, hinit, h⟩ := bind_eq_ok.mp h
  obtain ⟨m, hadds, h⟩ := bind_eq_ok.mp h
  obtain ⟨fd, hfinish, h⟩ := bind_eq_ok.mp h
  have hfile := Except.ok.inj h
  obtain ⟨hr, rfl⟩ := returned_eq_ok.mp hinit
  obtain ⟨hadded, hrbase⟩ := foldlM_run
    (P := fun pre m => Added hdbFormat d.file hdbCbase comment (hdbRbase comment) pre m.toMk ∧
      m.rbase = hdbRbase comment)
    (by
      intro pre r post m m' _ hm hadd
      obtain ⟨hret, rfl⟩ := returned_eq_ok.mp hadd
      obtain ⟨hnext, hsame⟩ := added_hdbmkAdd hm.1 hret
      exact ⟨hnext, hsame.trans hm.2⟩)
    (added_hdbmkStart hr) hadds
  exact ⟨m, fd, hadded, hrbase, hfinish, hfile⟩

theorem nrecsOf_alike {m m' : Mk} (h : Alike m m') (i : ℕ) : nrecsOf m i = nrecsOf m' i := by
  induction i with
  | zero => rfl
  | succ i ih => rw [nrecsOf, nrecsOf, ih, h.counts]

theorem hdbmk_canon (h : hdbmk d mem comment recs = .ok file)
    (h' : hdbmk d' mem' comment recs = .ok file') (hd : d.file = d'.file) : file = file' := by
  obtain ⟨m, fd, hadded, hrbase, hfinish, rfl⟩ := hdbmk_added h
  obtain ⟨m', fd', hadded', hrbase', hfinish', rfl⟩ := hdbmk_added h'
  have hm := Added.alike hadded hadded'
  have hhead : hdbHead m = hdbHead m' := by
    have hpointer : hdbPointer m.toMk = hdbPointer m'.toMk := by
      funext i
      rw [hdbPointer, hdbPointer, hm.fp, hm.offset, hm.slots]
    rw [hdbHead, hdbHead, nrecsOf_alike hm, hrbase, hrbase', hpointer]
  rw [← hhead] at hfinish'
  rw [← hd] at hadded'
  exact finish_alike hm hadded.sent hadded'.sent hfinish hfinish'

end

/-! ## Copies -/

/-- A program that copies record by record: `r` is what `seqinit` or `seqnext` has returned. -/
def copyFrom {δ μ : Type} (next : δ → Calls → ℤ × δ × Calls)
    (addrec : μ → δ → Calls → ℤ × μ × Calls) :
    ℕ → μ → ℤ × δ × Calls → Except Stop μ
  | 0, _, _ => .error .fault
  | fuel + 1, m, r =>
    if r.1 = 1 then
      let a := addrec m r.2.1 r.2.2
      if a.1 = -1 then .error .failed else copyFrom next addrec fuel a.2.1 (next r.2.1 a.2.2)
    else if r.1 = 0 then .ok m else .error .failed

/-- The cursors go over these records to the end, in a database that is mapped. -/
inductive Walk {δ : Type} (F : Format) (next : δ → Calls → ℤ × δ × Calls) (db : δ → Db) :
    ℤ × δ × Calls → List Rec → Prop where
  | last {r : ℤ × δ × Calls} (h : r.1 = 0) : Walk F next db r []
  | more {r : ℤ × δ × Calls} {p : ℕ × Rec} {recs : List Rec} (h : r.1 = 1)
      (hmap : (db r.2.1).mapped = true) (hat : At (db r.2.1).file p.1 (record F p.2))
      (hlt : p.1 + size F p.2 < 2 ^ 32) (hon : OnRecord (db r.2.1).file (db r.2.1) p)
      (hrest : Walk F next db (next r.2.1 r.2.2) recs) : Walk F next db r (p.2 :: recs)

section copies
variable {F : Format} {file : List UInt8} {recs : List Rec} {db : Db} {c : Calls} {δ μ : Type}

theorem seqAt_record {r : Rec} {pos : ℕ} (hfile : db.file = file) (hlt : pos < db.hbase)
    (hlens : r.1.length ≤ F.lmax ∧ r.2.length ≤ F.lmax) (hat : At file pos (record F r))
    (hc : Fine c) :
    ∃ c', Fine c' ∧
      seqAt F db c pos =
        (1, { db with rpos := pos, klen := r.1.length, dlen := r.2.length }, c') := by
  have hheader := (record_at hat).1
  rw [← hfile] at hheader
  obtain ⟨c', hread, hc'⟩ := dbRead_spec hc hheader (header_length _) hdr_pos
  refine ⟨c', hc', ?_⟩
  unfold seqAt
  rw [if_neg (not_not.mpr hlt), hread]
  simp only [header_klen hlens.1, header_dlen hlens.2]

theorem walk_seqAt {pos : ℕ} (hmap : db.mapped = true) (hfile : db.file = file)
    (hbase : db.hbase = eod F pos recs) (heod : eod F pos recs < 2 ^ 32)
    (hlens : ∀ r ∈ recs, r.1.length ≤ F.lmax ∧ r.2.length ≤ F.lmax)
    (hat : At file pos (recs.flatMap (record F))) (hc : Fine c) :
    Walk F (seqnext F) id (seqAt F db c pos) recs := by
  induction recs generalizing pos db c with
  | nil =>
    have hend : ¬ pos < db.hbase := by simp [hbase, eod]
    apply Walk.last
    rw [seqAt, if_pos hend]
  | cons r recs ih =>
    have hsum : eod F pos (r :: recs) = eod F (pos + size F r) recs := eod_cons
    have hle : pos + size F r ≤ eod F pos (r :: recs) :=
      (@layout_bounds F pos (r :: recs) (pos, r) List.mem_cons_self).2
    have hpos := @size_pos F r
    rw [List.flatMap_cons, at_append, record_length] at hat
    obtain ⟨hrec, hrest⟩ := hat
    obtain ⟨c', hc', hseq⟩ := seqAt_record hfile (by omega) (hlens r List.mem_cons_self) hrec hc
    have hnext : (pos + (r.1.length + r.2.length + F.hdr)) % 2 ^ 32 = pos + size F r := by
      have hsize : pos + (r.1.length + r.2.length + F.hdr) = pos + size F r := by
        rw [size]
        omega
      rw [hsize]
      exact Nat.mod_eq_of_lt (by omega)
    rw [hseq]
    apply Walk.more (p := (pos, r)) rfl hmap (by rw [← hfile] at hrec; exact hrec)
      (by simp only; omega)
      ⟨rfl, rfl, rfl, rfl⟩
    rw [seqnext, hnext]
    exact ih hmap hfile (hbase.trans hsum) (hsum ▸ heod)
      (fun r' hr' => hlens r' (List.mem_cons_of_mem _ hr')) hrest hc'

theorem walk_ofDb {r : ℤ × Db × Calls} (h : Walk hdbFormat (seqnext hdbFormat) id r recs)
    (db : Hdb) :
    Walk hdbFormat hdbSeqnext Hdb.toDb (ofDb db r) recs := by
  induction h generalizing db with
  | last h => exact .last h
  | more h hmap hat hlt hon _ ih => exact .more h hmap hat hlt hon (ih { db with toDb := _ })

/-- From a database that is mapped the records are added one by one. -/
theorem copyFrom_eq {next : δ → Calls → ℤ × δ × Calls} {addrec : μ → δ → Calls → ℤ × μ × Calls}
    {add : μ → List UInt8 → List UInt8 → ℤ × μ} {toDb : δ → Db} {r : ℤ × δ × Calls}
    (hwalk : Walk F next toDb r recs)
    (hadd : ∀ (m : μ) (db : δ) (c : Calls) (p : ℕ × Rec), (toDb db).mapped = true →
      At (toDb db).file p.1 (record F p.2) → p.1 + size F p.2 < 2 ^ 32 →
      OnRecord (toDb db).file (toDb db) p →
      addrec m db c = ((add m p.2.1 p.2.2).1, (add m p.2.1 p.2.2).2, c))
    {fuel : ℕ} (hfuel : recs.length < fuel) (m : μ) :
    copyFrom next addrec fuel m r = recs.foldlM (fun m r => returned (add m r.1 r.2)) m := by
  induction hwalk generalizing fuel m with
  | last h =>
    obtain ⟨fuel, rfl⟩ := Nat.exists_eq_succ_of_ne_zero (Nat.ne_of_gt hfuel)
    have hzero : ¬ (0 : ℤ) = 1 := by decide
    rw [copyFrom, h, if_neg hzero, if_pos rfl]
    rfl
  | @more r p recs h hmap hat hlt hon _ ih =>
    obtain ⟨fuel, rfl⟩ := Nat.exists_eq_succ_of_ne_zero (Nat.ne_of_gt (Nat.zero_lt_of_lt hfuel))
    have hrest := @ih fuel (by simpa using hfuel)
    rw [copyFrom, if_pos h, List.foldlM_cons]
    simp only [hadd m _ _ p hmap hat hlt hon]
    rw [returned]
    split
    · rfl
    · exact hrest _

end copies

/-- `cdb_init()`, then each record, then `cdbmk_finish()`, with `mmap()` -/
def cdbCopy (d : Fd) (mem : List Bool) (file : List UInt8) (c : Calls) :
    Except Stop (List UInt8) := do
  let db ← returned (cdbInit file true c)
  let m ← returned (cdbmkInit d mem)
  let m ← copyFrom cdbSeqnext cdbmkAddrec (file.length + 1) m (cdbSeqinit db.1 db.2)
  let d ← cdbmkFinish m
  return d.file

/-- The comment of an hdb is copied with its records. -/
def hdbCopy (d : Fd) (mem : List Bool) (file : List UInt8) (c : Calls) :
    Except Stop (List UInt8) := do
  let db ← returned (hdbInit file true c)
  let m ← returned (hdbmkStart d mem (slice file db.1.cbase (db.1.rbase - db.1.cbase)))
  let m ← copyFrom hdbSeqnext hdbmkAddrec (file.length + 1) m (hdbSeqinit db.1 db.2)
  let d ← hdbmkFinish m
  return d.file

section
variable {d d' : Fd} {mem mem' : List Bool} {recs : List Rec} {comment file copy : List UInt8}
  {c : Calls}

theorem few_records {F : Format} {pos : ℕ} (hat : At file pos (recs.flatMap (record F))) :
    recs.length < file.length + 1 := by
  obtain ⟨rest, hrest⟩ := hat
  have hlen := congrArg List.length hrest
  have hsizes : recs.length ≤ (recs.map (size F)).sum := by
    clear hlen hrest
    induction recs with
    | nil => exact Nat.le_refl 0
    | cons r recs ih =>
      have hpos := @size_pos F r
      rw [List.map_cons, List.sum_cons, List.length_cons]
      omega
  rw [List.length_append, records_length, List.length_drop] at hlen
  omega

theorem cdbmk_length (h : cdbmk d mem recs = .ok file) (hd : d.file.length < 2 ^ 32) :
    file.length < 2 ^ 32 := by
  obtain ⟨m, fd, hadded, hfinish, rfl⟩ := cdbmk_added h
  exact finish_length hadded (by decide) rfl
    (Nat.le_of_eq (@pieces_length (cdbPointer m) 8 (fun _ => rfl) cdbNtabs)) hfinish hd

theorem hdbmk_length (h : hdbmk d mem comment recs = .ok file) (hd : d.file.length < 2 ^ 32) :
    file.length < 2 ^ 32 := by
  obtain ⟨m, fd, hadded, -, hfinish, rfl⟩ := hdbmk_added h
  have hpos : 0 < hdbRbase comment := Nat.lt_of_lt_of_le (by decide) (Nat.le_add_right hdbCbase _)
  have hhead : (hdbHead m).flatten.length ≤ hdbCbase := by
    have hptrs := @pieces_length (hdbPointer m.toMk) 8 (fun _ => rfl) hdbNtabs
    rw [hdbHead, List.flatten_cons, List.flatten_cons, List.length_append, List.length_append,
      hptrs]
    exact Nat.le_refl hdbCbase
  exact finish_length hadded hpos rfl hhead hfinish hd

theorem mapped_dbZero (h : file.length < 2 ^ 32) : (dbZero file true).mapped = true := by
  have hle : file.length ≤ 0xffffffff := Nat.le_of_lt_succ h
  simp [dbZero, hle]

theorem hdbInit_mapped (file : List UInt8) (mmaps : Bool) (c : Calls) :
    (hdbInit file mmaps c).2.1.mapped = (dbZero file mmaps).mapped := by
  unfold hdbInit
  simp only
  split
  · rfl
  · split <;> rfl

/-- Copying a cdb is generating one from its records. -/
theorem cdbCopy_eq (h : cdbmk d mem recs = .ok file) (hd : d.file.length < 2 ^ 32) (hc : Fine c)
    (d' : Fd) (mem' : List Bool) : cdbCopy d' mem' file c = cdbmk d' mem' recs := by
  obtain ⟨m, tbl, hfin, hfp⟩ := cdbmk_spec h
  obtain ⟨c', hinit, hc'⟩ := cdbInit_spec hfin hfp true hc
  let db : Db := { dbZero file true with hbase := eod cdbFormat cdbRbase recs }
  have hmap : db.mapped = true := mapped_dbZero (cdbmk_length h hd)
  have hwalk : Walk cdbFormat cdbSeqnext id (cdbSeqinit db c') recs :=
    walk_seqAt hmap rfl rfl hfin.image.eod_lt hfin.image.lengths hfin.image.records hc'
  have hcopy : ∀ m, copyFrom cdbSeqnext cdbmkAddrec (file.length + 1) m (cdbSeqinit db c') =
      recs.foldlM (fun m r => returned (cdbmkAdd m r.1 r.2)) m := by
    apply copyFrom_eq hwalk _ (few_records hfin.image.records)
    intro m db c p hmap hat hlt hon
    exact addrec_mapped hmap hat hlt hon m c
  have hopen : returned (cdbInit file true c) = .ok (db, c') := by
    rw [hinit]
    exact returned_eq_ok.mpr ⟨Int.ne_of_gt (by decide : (-1 : ℤ) < 0), rfl⟩
  rw [cdbCopy, cdbmk, hopen]
  exact congrArg _ (funext fun m => congrArg (· >>= _) (hcopy m))

/-- As for a cdb; the comment is read back from the file. -/
theorem hdbCopy_eq (h : hdbmk d mem comment recs = .ok file) (hd : d.file.length < 2 ^ 32)
    (hc : Fine c) (d' : Fd) (mem' : List Bool) :
    hdbCopy d' mem' file c = hdbmk d' mem' comment recs := by
  obtain ⟨m, tbl, hfin, hfp, hrbase, hnrecs⟩ := hdbmk_spec h
  obtain ⟨db, c', hinit, hc', hopened⟩ := hdbInit_spec hfin hfp hrbase hnrecs true hc
  have hmap : db.mapped = true := by
    have hsame := hdbInit_mapped file true c
    rw [hinit] at hsame
    exact hsame.trans (mapped_dbZero (hdbmk_length h hd))
  have hwalk : Walk hdbFormat hdbSeqnext Hdb.toDb (hdbSeqinit db c') recs := by
    rw [hdbSeqinit, hopened.rbase]
    exact walk_ofDb (walk_seqAt hmap hopened.file hopened.hbase hfin.image.eod_lt hfin.image.lengths
      hfin.image.records hc') db
  have hcopy : ∀ m, copyFrom hdbSeqnext hdbmkAddrec (file.length + 1) m (hdbSeqinit db c') =
      recs.foldlM (fun m r => returned (hdbmkAdd m r.1 r.2)) m := by
    apply copyFrom_eq hwalk _ (few_records hfin.image.records)
    intro m db c p hmap hat hlt hon
    rw [hdbmkAddrec, addrec_mapped hmap hat hlt hon]
    rfl
  have hcomment : slice file db.cbase (db.rbase - db.cbase) = comment := by
    rw [hopened.cbase, hopened.rbase, hdbRbase, Nat.add_sub_cancel_left]
    exact hfin.pre.slice_eq
  have hopen : returned (hdbInit file true c) = .ok (db, c') := by
    rw [hinit]
    exact returned_eq_ok.mpr ⟨Int.ne_of_gt (by decide : (-1 : ℤ) < 0), rfl⟩
  rw [hdbCopy, hdbmk, hopen]
  change (returned (hdbmkStart d' mem' (slice file db.cbase (db.rbase - db.cbase))) >>= _) = _
  rw [hcomment]
  exact congrArg _ (funext fun m => congrArg (· >>= _) (hcopy m))

/-- A database that is copied record by record comes out byte for byte, and so it does when it is
generated once more from its records, whatever the calls of the two generators return. -/
theorem copies_identical :
    (∀ d mem recs file, cdbmk d mem recs = .ok file → d.file.length < 2 ^ 32 →
      ∀ d' mem' c, Fine c → cdbCopy d' mem' file c = cdbmk d' mem' recs ∧
        ∀ copy, cdbCopy d' mem' file c = .ok copy → d'.file = d.file → copy = file) ∧
      ∀ d mem comment recs file, hdbmk d mem comment recs = .ok file → d.file.length < 2 ^ 32 →
        ∀ d' mem' c, Fine c → hdbCopy d' mem' file c = hdbmk d' mem' comment recs ∧
          ∀ copy, hdbCopy d' mem' file c = .ok copy → d'.file = d.file → copy = file := by
  constructor
  · intro d mem recs file h hd d' mem' c hc
    have hcopy := cdbCopy_eq h hd hc d' mem'
    refine ⟨hcopy, fun copy hok hsame => ?_⟩
    rw [hcopy] at hok
    exact cdbmk_canon hok h hsame
  · intro d mem comment recs file h hd d' mem' c hc
    have hcopy := hdbCopy_eq h hd hc d' mem'
    refine ⟨hcopy, fun copy hok hsame => ?_⟩
    rw [hcopy] at hok
    exact hdbmk_canon hok h hsame

theorem copies_identical_longKey :
    (∃ file, cdbmk newFd [] [(longKey, [])] = .ok file ∧
      cdbCopy newFd [] file ⟨[], [], .none⟩ = .ok file) ∧
      ∃ file, hdbmk newFd [] someComment [(longKey, [])] = .ok file ∧
        hdbCopy newFd [] file ⟨[], [], .none⟩ = .ok file := by
  obtain ⟨file, hfile⟩ := exists_cdbmk_longKey
  obtain ⟨file', hfile'⟩ := exists_hdbmk_longKey
  have hnew : newFd.file.length < 2 ^ 32 := by decide
  exact ⟨⟨file, hfile, (copies_identical.1 _ _ _ _ hfile hnew newFd [] _ fine_nil).1.trans hfile⟩,
    file', hfile', (copies_identical.2 _ _ _ _ _ hfile' hnew newFd [] _ fine_nil).1.trans hfile'⟩

end

end Perp.HashCanon
