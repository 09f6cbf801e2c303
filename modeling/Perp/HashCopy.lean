import Perp.CdbExact
import Perp.HdbExact

set_option autoImplicit false

/-!
# Copying a record

`cdbmk_addrec()` against `cdbmk_add()` of the same record, for cdb and for hdb. A
record whose database is not mapped is copied without its header, and its hash is
that of more than the key.
-/
namespace Perp.HashCopy
open Pkt ByteImage IoqPut HashFile CdbFormat HdbFormat HashImage HashSearch HashAdded HashFinish
  CdbExact HdbExact

/-- The same return value and the same effect: the position, the records and the
counts of the tables, and the bytes put to the queue. -/
structure SameEffect (a b : ℤ × Mk) : Prop where
  ret : a.1 = b.1
  fp : a.2.fp = b.2.fp
  inputList : a.2.inputList = b.2.inputList
  subtabCount : a.2.subtabCount = b.2.subtabCount
  put : ∀ f off out, Sent f off a.2.ioq out ↔ Sent f off b.2.ioq out

/-- The generator with calls that will go as told -/
def onCalls (m : Mk) (writes : List WriteRet) (seeks mem : List Bool) : Mk :=
  { m with ioq := { m.ioq with d := { m.ioq.d with writes := writes, seeks := seeks } }, mem := mem }

/-- The cursors are on the record `p`. -/
structure OnRecord (file : List UInt8) (db : Db) (p : ℕ × Rec) : Prop where
  file : db.file = file
  rpos : db.rpos = p.1
  klen : db.klen = p.2.1.length
  dlen : db.dlen = p.2.2.length

/-- However the calls of the generator go, copying the record at the cursors is the
same as adding `r`. -/
def Copies (F : Format) (addition : Mk → List UInt8 → List UInt8 → ℤ × Mk) (m : Mk) (db : Db)
    (r : Rec) : Prop :=
  ∀ writes seeks mem c, Fine c →
    SameEffect
      ((addrec F addition (onCalls m writes seeks mem) db c).1,
        (addrec F addition (onCalls m writes seeks mem) db c).2.1)
      (addition (onCalls m writes seeks mem) r.1 r.2)

section copy
variable {F : Format} {f out file : List UInt8} {off rpos len : ℕ} {q : Ioq} {db : Db} {c : Calls}
  {m : Mk} {p : ℕ × Rec}

theorem sameEffect_rfl (a : ℤ × Mk) : SameEffect a a := ⟨rfl, rfl, rfl, rfl, fun _ _ _ => Iff.rfl⟩

/-- What has been put is as long as the queue says. -/
theorem sent_length (h : Sent f off q out) : off + out.length = q.d.off + q.buf.length := by
  obtain ⟨w, hout, -, hoff⟩ := h.split
  rw [hout, hoff, List.length_append, Nat.add_assoc]

theorem sent_self (q : Ioq) : Sent q.d.file q.d.off q q.buf :=
  ⟨[], rfl, (pwrite_nil _ _).symm, rfl⟩

/-- A loop of `cdbmk_addrec()` puts as many bytes as it is told. -/
theorem copyLoop_smooth {fuel : ℕ} {s : Copy} (hq : Smooth s.q) (hc : Fine s.c)
    (hsent : Sent f off s.q out) (hfile : s.rpos + len ≤ db.file.length)
    (hend : s.rpos + len < 2 ^ 32) (hfuel : len ≤ fuel) :
    ∃ s', copyLoop F db fuel len s = (true, s') ∧ Smooth s'.q ∧ Fine s'.c ∧
      s'.rpos = s.rpos + len ∧ ∃ bytes, bytes.length = len ∧ Sent f off s'.q (out ++ bytes) := by
  induction fuel generalizing len s out with
  | zero =>
    obtain rfl : len = 0 := Nat.le_zero.mp hfuel
    exact ⟨s, rfl, hq, hc, rfl, [], rfl, by simpa using hsent⟩
  | succ fuel ih =>
    unfold copyLoop
    by_cases h0 : len = 0
    · subst h0
      exact ⟨s, rfl, hq, hc, rfl, [], rfl, by simpa using hsent⟩
    · rw [if_neg h0]
      have h512 : 0 < copybufSize := by decide
      generalize hr : min len copybufSize = r
      obtain ⟨hat, hlen⟩ := @slice_at db.file s.rpos r (by omega)
      generalize slice db.file s.rpos r = buf at hat hlen
      obtain ⟨c', hread, hc'⟩ := @dbRead_spec db s.c buf s.rpos r hc hat hlen (by omega)
      obtain ⟨hput, hq'⟩ := ioqPut_smooth hq buf
      have hmod : (s.rpos + r) % 2 ^ 32 = s.rpos + r := Nat.mod_eq_of_lt (by omega)
      obtain ⟨s', heq, hq'', hc'', hrpos, bytes, hbytes, hsent'⟩ :=
        @ih (out ++ buf) (len - r) ⟨s.rpos + r, F.hashpart s.hash buf, (ioqPut s.q buf).2, c'⟩ hq'
          hc' (hsent.put hput) (by simp only; omega) (by simp only; omega) (by omega)
      refine ⟨s', ?_, hq'', hc'', ?_, buf ++ bytes, ?_, ?_⟩
      · simp only [hread, hput, hmod]
        exact heq
      · rw [hrpos]
        simp only
        omega
      · rw [List.length_append, hlen, hbytes]
        omega
      · rw [← List.append_assoc]
        exact hsent'

/-- With memory `cdbmk__update()` does not fail. -/
theorem update_ok (hmem : m.mem = []) (hash : UInt32) (rpos fpUp : ℕ) :
    (update F m hash rpos fpUp).1 = 0 ∧ (update F m hash rpos fpUp).2.ioq = m.ioq := by
  have hnew : ∀ blocks, ∃ b, (newBlock m.mem blocks).1 = some b := by
    intro blocks
    rw [hmem]
    exact ⟨_, rfl⟩
  have hroomy : ∃ b, (roomy F m.mem (m.inputList (F.nlist (F.ntab hash)))).1 = some b := by
    cases m.inputList (F.nlist (F.ntab hash)) with
    | nil => exact hnew []
    | cons block blocks =>
      rw [roomy]
      split
      · exact hnew _
      · exact ⟨_, rfl⟩
  have hret : (update F m hash rpos fpUp).1 = 0 := by
    obtain ⟨b, hb⟩ := hroomy
    unfold update
    simp only
    generalize roomy F m.mem (m.inputList (F.nlist (F.ntab hash))) = res at hb
    obtain ⟨r, mem⟩ := res
    simp only at hb
    subst hb
    rfl
  exact ⟨hret, (update_spec (by omega)).ioq⟩

/-- `cdbmk_add()` of a record that fits, when nothing fails -/
theorem add_smooth {r : Rec} (hq : Smooth m.ioq) (hmem : m.mem = [])
    (hfits : m.fp % 2 ^ 32 + size F r < 2 ^ 32) (hsent : Sent f off m.ioq out) :
    (add F m r.1 r.2).1 = 0 ∧ Sent f off (add F m r.1 r.2).2.ioq (out ++ record F r) := by
  obtain ⟨hput, -⟩ := puts_smooth hq [header F r, r.1, r.2]
  have hend : recordEnd (m.fp % 2 ^ 32) F.hdr r.1.length r.2.length =
      some (m.fp % 2 ^ 32 + F.hdr + r.1.length + r.2.length) := by
    unfold size at hfits
    exact (recordEnd_eq_some (Nat.mod_lt _ (by decide))).mpr ⟨by omega, rfl⟩
  have hsent' := hsent.puts (show (puts m.ioq [header F r, r.1, r.2]).1 ≠ -1 by omega)
  obtain ⟨hret, hioq⟩ := @update_ok F { m with ioq := (puts m.ioq [header F r, r.1, r.2]).2 } hmem
    (F.hash r.1) (m.fp % 2 ^ 32) (m.fp % 2 ^ 32 + F.hdr + r.1.length + r.2.length)
  have hheader : F.pack r.1.length ++ F.pack r.2.length = header F r := rfl
  have hadd : add F m r.1 r.2 =
      update F { m with ioq := (puts m.ioq [header F r, r.1, r.2]).2 } (F.hash r.1)
        (m.fp % 2 ^ 32) (m.fp % 2 ^ 32 + F.hdr + r.1.length + r.2.length) := by
    unfold add
    simp only [hend, hheader, hput]
    rfl
  rw [hadd, hioq]
  refine ⟨hret, ?_⟩
  simpa [record] using hsent'

/-- `cdbmk_add()` of a record that does not fit -/
theorem add_refused {r : Rec} (hbig : 2 ^ 32 ≤ m.fp % 2 ^ 32 + size F r) :
    add F m r.1 r.2 = (-1, m) := by
  have hend : recordEnd (m.fp % 2 ^ 32) F.hdr r.1.length r.2.length = none := by
    rw [recordEnd_eq_none (Nat.mod_lt _ (by decide))]
    unfold size at hbig
    omega
  unfold add
  simp only [hend]

/-- `cdbmk_addrec()` of a record that fits, when the database is not mapped and
nothing fails: no header is put. -/
theorem addrec_smooth {addition : Mk → List UInt8 → List UInt8 → ℤ × Mk} (hmap : db.mapped = false)
    (hq : Smooth m.ioq) (hmem : m.mem = []) (hc : Fine c)
    (hfits : m.fp % 2 ^ 32 + 8 + db.klen + db.dlen < 2 ^ 32) (hsent : Sent f off m.ioq out)
    (hfile : db.rpos + db.klen + db.dlen ≤ db.file.length)
    (hlt : db.rpos + db.klen + db.dlen < 2 ^ 32) :
    ∃ bytes, bytes.length = db.klen + db.dlen ∧
      Sent f off (addrec F addition m db c).2.1.ioq (out ++ bytes) := by
  have hend : recordEnd (m.fp % 2 ^ 32) 8 db.klen db.dlen =
      some (m.fp % 2 ^ 32 + 8 + db.klen + db.dlen) :=
    (recordEnd_eq_some (Nat.mod_lt _ (by decide))).mpr ⟨hfits, rfl⟩
  obtain ⟨k, hk, hkq, hkc, hkpos, kbytes, hkbytes, hksent⟩ :=
    @copyLoop_smooth F f out off db.klen db db.klen ⟨db.rpos, F.hashinit, m.ioq, c⟩ hq hc hsent
      (by simp only; omega) (by simp only; omega) (Nat.le_refl _)
  simp only at hkpos
  obtain ⟨d, hd, -, -, -, dbytes, hdbytes, hdsent⟩ :=
    @copyLoop_smooth F f (out ++ kbytes) off db.dlen db db.dlen k hkq hkc hksent (by omega) (by omega)
      (Nat.le_refl _)
  refine ⟨kbytes ++ dbytes, by rw [List.length_append, hkbytes, hdbytes], ?_⟩
  have hup := (@update_ok F { m with ioq := d.q } hmem d.hash (m.fp % 2 ^ 32)
    (m.fp % 2 ^ 32 + 8 + db.klen + db.dlen)).2
  unfold addrec
  simp only [hmap, hend, hk, hd]
  rw [← List.append_assoc]
  exact hup.symm ▸ hdsent

/-- From a database that is mapped `cdbmk_addrec()` is `cdbmk_add()`. -/
theorem addrec_mapped {addition : Mk → List UInt8 → List UInt8 → ℤ × Mk} (hmap : db.mapped = true)
    (hat : At file p.1 (record F p.2)) (hlt : p.1 + size F p.2 < 2 ^ 32)
    (hon : OnRecord file db p) (m : Mk) (c : Calls) :
    addrec F addition m db c =
      ((addition m p.2.1 p.2.2).1, (addition m p.2.1 p.2.2).2, c) := by
  have hsize : size F p.2 = F.hdr + p.2.1.length + p.2.2.length := rfl
  obtain ⟨-, hkey, hdata⟩ := record_at hat
  have hkpos : db.kpos F = p.1 + F.hdr := by
    rw [Db.kpos, hon.rpos]
    exact Nat.mod_eq_of_lt (by omega)
  have hdpos : db.dpos F = p.1 + F.hdr + p.2.1.length := by
    rw [Db.dpos, hon.rpos, hon.klen]
    exact Nat.mod_eq_of_lt (by omega)
  unfold addrec
  rw [if_pos hmap, hkpos, hdpos, hon.file, hon.klen, hon.dlen, hkey.slice_eq, hdata.slice_eq]

/-- From one that is not, a record that does not fit is refused, with 8 bytes of
header in each format. -/
theorem addrec_refused {addition : Mk → List UInt8 → List UInt8 → ℤ × Mk}
    (hmap : db.mapped = false) (hbig : 2 ^ 32 ≤ m.fp % 2 ^ 32 + 8 + db.klen + db.dlen) (c : Calls) :
    addrec F addition m db c = (-1, m, c) := by
  have hnone : recordEnd (m.fp % 2 ^ 32) 8 db.klen db.dlen = none := by
    rw [recordEnd_eq_none (Nat.mod_lt _ (by decide))]
    omega
  unfold addrec
  simp only [hmap, hnone]
  rfl

/-- A record that fits is not copied as it is added when the database is not mapped. -/
theorem not_copies {addition : Mk → List UInt8 → List UInt8 → ℤ × Mk}
    (hadd : ∀ m, addition m p.2.1 p.2.2 = add F m p.2.1 p.2.2)
    (hat : At file p.1 (record F p.2)) (hlt : p.1 + size F p.2 < 2 ^ 32)
    (hon : OnRecord file db p) (hmap : db.mapped = false)
    (hfits : m.fp % 2 ^ 32 + size F p.2 < 2 ^ 32) : ¬ Copies F addition m db p.2 := by
  have hsize : size F p.2 = F.hdr + p.2.1.length + p.2.2.length := rfl
  intro hcopies
  have hsame := hcopies [] [] [] _ fine_nil
  generalize hm' : onCalls m [] [] [] = m' at hsame
  have hfp : m'.fp = m.fp := by rw [← hm']; rfl
  have hq : Smooth m'.ioq := by rw [← hm']; exact ⟨rfl, rfl⟩
  have hmem : m'.mem = [] := by rw [← hm']; rfl
  have hsent := sent_self m'.ioq
  obtain ⟨hret, hput⟩ := @add_smooth F _ _ _ m' p.2 hq hmem (hfp.symm ▸ hfits) hsent
  rw [hadd] at hsame
  by_cases hfits8 : m.fp % 2 ^ 32 + 8 + db.klen + db.dlen < 2 ^ 32
  · -- the header is missing
    have hend := hat.end_le (by rw [record_length]; exact size_pos _)
    rw [record_length] at hend
    obtain ⟨bytes, hbytes, hcopy⟩ := @addrec_smooth F _ _ _ db ⟨[], [], .none⟩ m' addition hmap hq
      hmem fine_nil (hfp.symm ▸ hfits8) hsent
      (by rw [hon.file, hon.rpos, hon.klen, hon.dlen]; omega)
      (by rw [hon.rpos, hon.klen, hon.dlen]; omega)
    have h1 := sent_length hput
    have h2 := sent_length ((hsame.put _ _ _).mp hcopy)
    have hpos := @hdr_pos F
    rw [List.length_append, record_length] at h1
    rw [List.length_append, hbytes, hon.klen, hon.dlen] at h2
    omega
  · have hrefused := @addrec_refused F db m' addition hmap (by rw [hfp]; omega) ⟨[], [], .none⟩
    have hboth := hsame.ret
    simp only [hrefused, hret] at hboth
    omega

/-- Copying a record is adding it just when the database is mapped, or the record
does not fit in either way. -/
theorem copies_iff {addition : Mk → List UInt8 → List UInt8 → ℤ × Mk}
    (hadd : ∀ m, addition m p.2.1 p.2.2 = add F m p.2.1 p.2.2) (hhdr : F.hdr ≤ 8)
    (hat : At file p.1 (record F p.2)) (hlt : p.1 + size F p.2 < 2 ^ 32)
    (hon : OnRecord file db p) (m : Mk) :
    Copies F addition m db p.2 ↔
      db.mapped = true ∨ 2 ^ 32 ≤ m.fp % 2 ^ 32 + F.hdr + p.2.1.length + p.2.2.length := by
  have hsize : size F p.2 = F.hdr + p.2.1.length + p.2.2.length := rfl
  constructor
  · intro hcopies
    by_contra hno
    obtain ⟨hmap, hfits⟩ := not_or.mp hno
    exact not_copies hadd hat hlt hon (by simpa using hmap) (by omega) hcopies
  · intro hcond writes seeks mem c _
    generalize hm' : onCalls m writes seeks mem = m'
    have hfp : m'.fp = m.fp := by rw [← hm']; rfl
    by_cases hmap : db.mapped = true
    · rw [addrec_mapped hmap hat hlt hon]
      exact sameEffect_rfl _
    · have hbig := hcond.resolve_left hmap
      rw [addrec_refused (by simpa using hmap) (by rw [hfp, hon.klen, hon.dlen]; omega), hadd,
        add_refused (by rw [hfp, hsize]; omega)]
      exact sameEffect_rfl _

end copy

/-- `cdbmk_addrec()` from the cursors of `db` does what `cdbmk_add()` of `r` does. -/
def CdbCopies (m : Mk) (db : Db) (r : Rec) : Prop :=
  ∀ writes seeks mem c, Fine c →
    SameEffect
      ((cdbmkAddrec (onCalls m writes seeks mem) db c).1,
        (cdbmkAddrec (onCalls m writes seeks mem) db c).2.1)
      (cdbmkAdd (onCalls m writes seeks mem) r.1 r.2)

/-- `hdbmk_addrec()` from the cursors of `db` does what `hdbmk_add()` of `r` does. -/
def HdbCopies (m : Hdbmk) (db : Hdb) (r : Rec) : Prop :=
  ∀ writes seeks mem c, Fine c →
    let m' : Hdbmk := { m with toMk := onCalls m.toMk writes seeks mem }
    SameEffect ((hdbmkAddrec m' db c).1, (hdbmkAddrec m' db c).2.1.toMk)
      ((hdbmkAdd m' r.1 r.2).1, (hdbmkAdd m' r.1 r.2).2.toMk)

theorem cdbCopies_iff {d : Fd} {mem : List Bool} {recs : List Rec} {file : List UInt8}
    {p : ℕ × Rec} {db : Db} (h : cdbmk d mem recs = .ok file)
    (hp : p ∈ layout cdbFormat cdbRbase recs) (hon : OnRecord file db p) (m : Mk) :
    CdbCopies m db p.2 ↔
      db.mapped = true ∨ 2 ^ 32 ≤ m.fp % 2 ^ 32 + 8 + p.2.1.length + p.2.2.length := by
  obtain ⟨_, tbl, hfin, -⟩ := cdbmk_spec h
  have hhdr : cdbFormat.hdr ≤ 8 := by decide
  exact copies_iff (fun _ => rfl) hhdr (layout_at hfin.image.records hp) (hfin.image.layout_lt hp)
    hon m

theorem hdbCopies_iff {d : Fd} {mem : List Bool} {comment : List UInt8} {recs : List Rec}
    {file : List UInt8} {p : ℕ × Rec} {db : Hdb} (h : hdbmk d mem comment recs = .ok file)
    (hp : p ∈ layout hdbFormat (hdbRbase comment) recs) (hon : OnRecord file db.toDb p)
    (m : Hdbmk) :
    HdbCopies m db p.2 ↔
      db.mapped = true ∨ 2 ^ 32 ≤ m.fp % 2 ^ 32 + 6 + p.2.1.length + p.2.2.length := by
  obtain ⟨_, tbl, hfin, -⟩ := hdbmk_spec h
  have hlens : p.2.1.length ≤ hdbU24max ∧ p.2.2.length ≤ hdbU24max :=
    hfin.image.lengths _ (layout_mem hp)
  have hadd : ∀ m, addition m p.2.1 p.2.2 = add hdbFormat m p.2.1 p.2.2 := by
    intro m
    unfold addition
    rw [if_neg (not_or.mpr ⟨Nat.not_lt.mpr hlens.1, Nat.not_lt.mpr hlens.2⟩)]
  have hhdr : hdbFormat.hdr ≤ 8 := by decide
  exact copies_iff hadd hhdr (layout_at hfin.image.records hp) (hfin.image.layout_lt hp) hon m.toMk

/-- Copying a record is adding it just when the database is mapped, or the record
does not fit in either way. -/
theorem addrec_exact_iff (d : Fd) (mem : List Bool) (comment : List UInt8) (recs : List Rec)
    (file : List UInt8) :
    (cdbmk d mem recs = .ok file →
      ∀ p ∈ layout cdbFormat cdbRbase recs, ∀ db, OnRecord file db p → ∀ m,
        (CdbCopies m db p.2 ↔
          db.mapped = true ∨ 2 ^ 32 ≤ m.fp % 2 ^ 32 + 8 + p.2.1.length + p.2.2.length)) ∧
      (hdbmk d mem comment recs = .ok file →
        ∀ p ∈ layout hdbFormat (hdbRbase comment) recs, ∀ db : Hdb, OnRecord file db.toDb p → ∀ m,
          (HdbCopies m db p.2 ↔
            db.mapped = true ∨ 2 ^ 32 ≤ m.fp % 2 ^ 32 + 6 + p.2.1.length + p.2.2.length)) := by
  constructor
  · intro h p hp db hon m
    exact cdbCopies_iff h hp hon m
  · intro h p hp db hon m
    exact hdbCopies_iff h hp hon m

/-- A reader on the first record of `file`, whose key is `longKey` -/
def onLongKey (file : List UInt8) (mapped : Bool) (rbase : ℕ) : Db :=
  { dbZero file mapped with rpos := rbase, klen := 81 }

theorem onRecord_onLongKey (file : List UInt8) (mapped : Bool) (rbase : ℕ) :
    OnRecord file (onLongKey file mapped rbase) (rbase, longKey, []) := ⟨rfl, rfl, rfl, rfl⟩

theorem addrec_exact_iff_longKey :
    (∃ file, cdbmk newFd [] [(longKey, [])] = .ok file ∧
      (CdbCopies (cdbmkInit newFd []).2 (onLongKey file false cdbRbase) (longKey, []) ↔
        (onLongKey file false cdbRbase).mapped = true ∨ 2 ^ 32 ≤ 2048 % 2 ^ 32 + 8 + 81 + 0)) ∧
      ∃ file, hdbmk newFd [] someComment [(longKey, [])] = .ok file ∧
        (HdbCopies (hdbmkStart newFd [] []).2 ⟨onLongKey file false 95, 0, [], 0, 0⟩ (longKey, []) ↔
          (onLongKey file false 95).mapped = true ∨ 2 ^ 32 ≤ 88 % 2 ^ 32 + 6 + 81 + 0) := by
  obtain ⟨file, hfile⟩ := exists_cdbmk_longKey
  obtain ⟨file', hfile'⟩ := exists_hdbmk_longKey
  refine ⟨⟨file, hfile, ?_⟩, file', hfile', ?_⟩
  · exact (addrec_exact_iff newFd [] [] _ file).1 hfile _ List.mem_cons_self _
      (onRecord_onLongKey file false cdbRbase) _
  · exact (addrec_exact_iff newFd [] someComment _ file').2 hfile' _ List.mem_cons_self
      ⟨onLongKey file' false 95, 0, [], 0, 0⟩ (onRecord_onLongKey file' false 95) _

/-- A record of a database that is not mapped is not copied as it is added. -/
theorem addrec_differs : ∃ file, cdbmk newFd [] [(longKey, [])] = .ok file ∧
    OnRecord file (onLongKey file false cdbRbase) (cdbRbase, longKey, []) ∧
    ¬ CdbCopies (cdbmkInit newFd []).2 (onLongKey file false cdbRbase) (longKey, []) := by
  obtain ⟨file, hfile⟩ := exists_cdbmk_longKey
  refine ⟨file, hfile, onRecord_onLongKey file false cdbRbase, fun hcopies => ?_⟩
  have hiff := cdbCopies_iff hfile List.mem_cons_self (onRecord_onLongKey file false cdbRbase)
    (cdbmkInit newFd []).2
  rcases hiff.mp hcopies with hmap | hbig
  · simp [onLongKey, dbZero] at hmap
  · exact absurd hbig (by decide)

end Perp.HashCopy
