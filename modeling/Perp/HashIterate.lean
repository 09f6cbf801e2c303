import Perp.CdbExact
import Perp.HdbExact

set_option autoImplicit false

/-!
# Iteration over a database

Iteration visits the records of a database as they were added, for cdb and for hdb.
-/
namespace Perp.HashIterate
open Pkt ByteImage IoqPut HashFile CdbFormat HdbFormat HashImage HashSearch HashAdded HashFinish
  CdbExact HdbExact

/-- The key and the data that the cursors show -/
def shown (file : List UInt8) (cursors : (ℕ × ℕ) × ℕ × ℕ) : Rec :=
  (slice file cursors.1.1 cursors.1.2, slice file cursors.2.1 cursors.2.2)

/-- `cdb_seqinit()` and `cdb_seqnext()` visit the records and return 0 at the end. -/
def CdbIterates (file : List UInt8) (recs : List Rec) : Prop :=
  ∀ mmaps c n, Fine c → recs.length < n →
    (cdbInit file mmaps c).1 = 0 ∧
      let v := visits cdbSeqnext (fun db => ((cdbKpos db, db.klen), cdbDpos db, db.dlen)) n
        (cdbSeqinit (cdbInit file mmaps c).2.1 (cdbInit file mmaps c).2.2)
      v.1.map (shown file) = recs ∧ v.2 = 0

/-- `hdb_seqinit()` and `hdb_seqnext()` visit the records and return 0 at the end;
`hdb_init()` has their number and the place of the comment. -/
def HdbIterates (file comment : List UInt8) (recs : List Rec) : Prop :=
  ∀ mmaps c n, Fine c → recs.length < n →
    let db := (hdbInit file mmaps c).2.1
    (hdbInit file mmaps c).1 = 0 ∧ db.nrecs = recs.length ∧
      slice file db.cbase (db.rbase - db.cbase) = comment ∧
      let v := visits hdbSeqnext (fun db => ((hdbKpos db, db.klen), hdbDpos db, db.dlen)) n
        (hdbSeqinit db (hdbInit file mmaps c).2.2)
      v.1.map (shown file) = recs ∧ v.2 = 0

variable {F : Format} {file : List UInt8} {rbase : ℕ} {recs : List Rec} {tbase : ℕ → ℕ}
  {tbl : ℕ → ℕ → Option (ℕ × Rec)}

theorem shown_records (him : Image F file rbase recs tbase tbl) :
    ((layout F rbase recs).map (recordOf F)).map (shown file) = recs := by
  rw [List.map_map, ← layout_map_snd F rbase recs]
  conv_lhs => rw [layout_map_snd]
  apply List.map_congr_left
  intro p hp
  obtain ⟨hkey, hdata⟩ := slice_recordOf (layout_at him.records hp)
  exact Prod.ext hkey hdata

/-- Iteration undoes the generation of a database, empty or not. -/
theorem seq_exact :
    (∀ d mem recs file, cdbmk d mem recs = .ok file → CdbIterates file recs) ∧
      ∀ d mem comment recs file, hdbmk d mem comment recs = .ok file →
        HdbIterates file comment recs := by
  constructor
  · intro d mem recs file h mmaps c n hc hn
    obtain ⟨m, tbl, hfin, hfp⟩ := cdbmk_spec h
    obtain ⟨c', hinit, hc'⟩ := cdbInit_spec hfin hfp mmaps hc
    have hvisits : visits cdbSeqnext (fun db => ((cdbKpos db, db.klen), cdbDpos db, db.dlen)) n
        (cdbSeqinit { dbZero file mmaps with hbase := eod cdbFormat cdbRbase recs } c') =
        ((layout cdbFormat cdbRbase recs).map (recordOf cdbFormat), 0) :=
      visits_seqAt rfl rfl hfin.image.eod_lt hfin.image.lengths hfin.image.records hn hc'
    rw [hinit]
    simp only [hvisits]
    exact ⟨trivial, shown_records hfin.image, trivial⟩
  · intro d mem comment recs file h mmaps c n hc hn
    obtain ⟨m, tbl, hfin, hfp, hrbase, hnrecs⟩ := hdbmk_spec h
    obtain ⟨db, c', hinit, hc', hopened⟩ := hdbInit_spec hfin hfp hrbase hnrecs mmaps hc
    have hvisits : visits hdbSeqnext (fun db => ((hdbKpos db, db.klen), hdbDpos db, db.dlen)) n
        (hdbSeqinit db c') =
        ((layout hdbFormat (hdbRbase comment) recs).map (recordOf hdbFormat), 0) := by
      rw [hdbSeqinit, hopened.rbase]
      refine (visits_ofDb (fun _ _ => rfl) (recordCursor hdbFormat) db n _).trans ?_
      exact visits_seqAt hopened.file hopened.hbase hfin.image.eod_lt hfin.image.lengths
        hfin.image.records hn hc'
    have hcomment : slice file db.cbase (db.rbase - db.cbase) = comment := by
      rw [hopened.cbase, hopened.rbase, hdbRbase, Nat.add_sub_cancel_left]
      exact hfin.pre.slice_eq
    rw [hinit]
    simp only [hvisits]
    exact ⟨trivial, hopened.nrecs, hcomment, shown_records hfin.image, trivial⟩

theorem seq_exact_longKey :
    (∃ file, cdbmk newFd [] [(longKey, [])] = .ok file ∧ CdbIterates file [(longKey, [])]) ∧
      ∃ file, hdbmk newFd [] someComment [(longKey, [])] = .ok file ∧
        HdbIterates file someComment [(longKey, [])] := by
  obtain ⟨file, hfile⟩ := exists_cdbmk_longKey
  obtain ⟨file', hfile'⟩ := exists_hdbmk_longKey
  exact ⟨⟨file, hfile, seq_exact.1 _ _ _ _ hfile⟩, file', hfile', seq_exact.2 _ _ _ _ _ hfile'⟩

end Perp.HashIterate
