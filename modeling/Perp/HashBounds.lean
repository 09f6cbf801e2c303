import Perp.HashCopy

set_option autoImplicit false

/-!
# The bytes of a mapped record

`cdbmk_addrec()` on a mapped database hands on the key and the data where they
stand in the map, with the lengths of the file.
-/
namespace Perp.HashBounds
open Pkt ByteImage IoqPut HashFile CdbFormat HdbFormat HashImage HashAdded HashCopy

/-- `n` bytes of the map from `off` on; none if one of them lies outside it -/
def mapBytes (file : List UInt8) (off n : ℕ) : Option (List UInt8) :=
  if n = 0 then some [] else if off + n ≤ file.length then some (slice file off n) else none

/-- `cdbmk_add()` of the key and the data at the cursors of a mapped database: none
is a read outside the map. -/
def addMap (F : Format) (m : Mk) (db : Db) : Option (ℤ × Mk) :=
  let rpos := m.fp % 2 ^ 32
  match recordEnd rpos F.hdr db.klen db.dlen with
  | none => some (-1, m)
  | some fpUp =>
    let r := ioqPut m.ioq (F.pack db.klen ++ F.pack db.dlen)
    if r.1 = -1 then some (-1, { m with ioq := r.2 })
    else
      (mapBytes db.file (db.kpos F) db.klen).bind fun key =>
        let r := ioqPut r.2 key
        if r.1 = -1 then some (-1, { m with ioq := r.2 })
        else
          (mapBytes db.file (db.dpos F) db.dlen).bind fun data =>
            let r := ioqPut r.2 data
            if r.1 = -1 then some (-1, { m with ioq := r.2 })
            else some (update F { m with ioq := r.2 } (F.hash key) rpos fpUp)

/-- `cdbmk_addrec()` of a mapped database -/
def cdbmkAddrecMap (m : Mk) (db : Db) : Option (ℤ × Mk) := addMap cdbFormat m db

/-- `hdbmk_addrec()` of a mapped database -/
def hdbmkAddrecMap (m : Mk) (db : Db) : Option (ℤ × Mk) :=
  if db.klen > hdbU24max ∨ db.dlen > hdbU24max then some (-1, m) else addMap hdbFormat m db

/-- The record at the cursors lies in the map. -/
def Inside (F : Format) (db : Db) : Prop :=
  (db.klen = 0 ∨ db.kpos F + db.klen ≤ db.file.length) ∧
    (db.dlen = 0 ∨ db.dpos F + db.dlen ≤ db.file.length)

/-- A generator at `fp` copies the record at the cursors without a read outside the
map, or returns -1 without one, however its own calls go. -/
def StaysInside (copy : Mk → Db → Option (ℤ × Mk)) (fp : ℕ) (db : Db) : Prop :=
  ∀ m : Mk, m.fp = fp → ∃ r, copy m db = some r

section
variable {F : Format} {db : Db} {m : Mk}

theorem mapBytes_in {file : List UInt8} {off n : ℕ} (h : n = 0 ∨ off + n ≤ file.length) :
    mapBytes file off n = some (slice file off n) := by
  rw [mapBytes]
  by_cases h0 : n = 0
  · rw [if_pos h0, h0]
    simp [slice]
  · rw [if_neg h0, if_pos (h.resolve_left h0)]

theorem mapBytes_out {file : List UInt8} {off n : ℕ} (h : ¬ (n = 0 ∨ off + n ≤ file.length)) :
    mapBytes file off n = none := by
  obtain ⟨h0, hout⟩ := not_or.mp h
  rw [mapBytes, if_neg h0, if_neg hout]

/-- Of a record inside the map `cdbmk_add()` gets the bytes that stand there. -/
theorem addMap_inside (hin : Inside F db) (hk : (slice db.file (db.kpos F) db.klen).length = db.klen)
    (hd : (slice db.file (db.dpos F) db.dlen).length = db.dlen) (m : Mk) :
    addMap F m db =
      some (add F m (slice db.file (db.kpos F) db.klen) (slice db.file (db.dpos F) db.dlen)) := by
  unfold addMap add
  rw [hk, hd]
  cases hend : recordEnd (m.fp % 2 ^ 32) F.hdr db.klen db.dlen with
  | none => simp only [hend]
  | some fpUp =>
    simp only [hend, mapBytes_in hin.1, mapBytes_in hin.2, puts, Option.bind_some]
    by_cases h1 : (ioqPut m.ioq (F.pack db.klen ++ F.pack db.dlen)).1 = -1
    · simp [h1]
    · by_cases h2 : (ioqPut (ioqPut m.ioq (F.pack db.klen ++ F.pack db.dlen)).2
          (slice db.file (db.kpos F) db.klen)).1 = -1
      · simp [h1, h2]
      · by_cases h3 : (ioqPut (ioqPut (ioqPut m.ioq (F.pack db.klen ++ F.pack db.dlen)).2
            (slice db.file (db.kpos F) db.klen)).2 (slice db.file (db.dpos F) db.dlen)).1 = -1
        · simp [h1, h2, h3]
        · simp [h1, h2, h3]

theorem slice_in {file : List UInt8} {off n : ℕ} (h : n = 0 ∨ off + n ≤ file.length) :
    (slice file off n).length = n := by
  rcases h with rfl | h
  · simp [slice]
  · exact (slice_at h).2

/-- A record that the generator takes and that does not lie in the map: a generator
whose calls do not fail reads outside it. -/
theorem addMap_outside (hout : ¬ Inside F db)
    (hend : recordEnd (m.fp % 2 ^ 32) F.hdr db.klen db.dlen ≠ none) (hq : Smooth m.ioq) :
    addMap F m db = none := by
  obtain ⟨fpUp, hfp⟩ := Option.ne_none_iff_exists'.mp hend
  obtain ⟨h1, hq1⟩ := ioqPut_smooth hq (F.pack db.klen ++ F.pack db.dlen)
  have h1 : ¬ (ioqPut m.ioq (F.pack db.klen ++ F.pack db.dlen)).1 = -1 := by omega
  simp only [addMap, hfp, if_neg h1]
  by_cases hkey : db.klen = 0 ∨ db.kpos F + db.klen ≤ db.file.length
  · have hdata : ¬ (db.dlen = 0 ∨ db.dpos F + db.dlen ≤ db.file.length) :=
      fun hd => hout ⟨hkey, hd⟩
    obtain ⟨h2, -⟩ := ioqPut_smooth hq1 (slice db.file (db.kpos F) db.klen)
    rw [mapBytes_in hkey, mapBytes_out hdata, Option.bind_some, if_neg (by omega)]
    rfl
  · rw [mapBytes_out hkey]
    rfl

theorem addMap_iff (db : Db) (fp : ℕ) : StaysInside (addMap F) fp db ↔
    Inside F db ∨ 2 ^ 32 ≤ fp % 2 ^ 32 + F.hdr + db.klen + db.dlen := by
  have hnone := @recordEnd_eq_none (fp % 2 ^ 32) F.hdr db.klen db.dlen (Nat.mod_lt _ (by decide))
  constructor
  · intro hsafe
    by_contra hno
    obtain ⟨hout, hfits⟩ := not_or.mp hno
    let m : Mk := ⟨fp, fun _ => [], fun _ => 0, ioqInit newFd 8192, []⟩
    obtain ⟨r, hr⟩ := hsafe m rfl
    have hfault := @addMap_outside F db m hout (mt hnone.mp hfits) ⟨rfl, rfl⟩
    rw [hfault] at hr
    exact absurd hr (by simp)
  · rintro (hin | hbig) m rfl
    · exact ⟨_, addMap_inside hin (slice_in hin.1) (slice_in hin.2) m⟩
    · refine ⟨(-1, m), ?_⟩
      simp only [addMap, hnone.mpr hbig]

theorem hdbmkAddrecMap_iff (db : Db) (fp : ℕ) : StaysInside hdbmkAddrecMap fp db ↔
    Inside hdbFormat db ∨ 2 ^ 32 ≤ fp % 2 ^ 32 + hdbFormat.hdr + db.klen + db.dlen ∨
      hdbU24max < db.klen ∨ hdbU24max < db.dlen := by
  by_cases hlong : db.klen > hdbU24max ∨ db.dlen > hdbU24max
  · refine ⟨fun _ => .inr (.inr hlong), fun _ m _ => ⟨(-1, m), ?_⟩⟩
    rw [hdbmkAddrecMap, if_pos hlong]
  · have hsame : ∀ m, hdbmkAddrecMap m db = addMap hdbFormat m db := by
      intro m
      rw [hdbmkAddrecMap, if_neg hlong]
    have hiff := @addMap_iff hdbFormat db fp
    unfold StaysInside at hiff ⊢
    simp only [hsame, hiff]
    constructor
    · exact fun h => h.imp_right .inl
    · exact fun h => h.imp_right fun h => h.resolve_right hlong

end

/-- `cdbmk_addrec()` and `hdbmk_addrec()` of a mapped database, at any cursors: no
byte outside the map is read if and only if the record lies in it, or the generator
has no room for the record. -/
theorem addrec_inside_iff {db : Db} (hmap : db.mapped = true) (fp : ℕ) :
    (StaysInside cdbmkAddrecMap fp db ↔
      Inside cdbFormat db ∨ 2 ^ 32 ≤ fp % 2 ^ 32 + 8 + db.klen + db.dlen) ∧
    (StaysInside hdbmkAddrecMap fp db ↔
      Inside hdbFormat db ∨ 2 ^ 32 ≤ fp % 2 ^ 32 + 6 + db.klen + db.dlen ∨
        hdbU24max < db.klen ∨ hdbU24max < db.dlen) ∧
    (Inside cdbFormat db → ∀ m c, (cdbmkAddrecMap m db).map (fun r => (r.1, r.2, c)) =
      some (cdbmkAddrec m db c)) := by
  refine ⟨addMap_iff db fp, hdbmkAddrecMap_iff db fp, fun hin m c => ?_⟩
  rw [cdbmkAddrecMap, addMap_inside hin (slice_in hin.1) (slice_in hin.2), cdbmkAddrec, addrec,
    if_pos hmap]
  rfl

/-- A file whose only record is longer than the file -/
def cutFile : List UInt8 := pack32 2056 ++ List.replicate 2044 0 ++ pack32 100 ++ pack32 0

def fineCalls : Calls := ⟨[], [], .none⟩

def cutDb : Db := { dbZero cutFile true with hbase := 2056, rpos := 2048, klen := 100 }

theorem cutDb_reached : cdbSeqinit (cdbInit cutFile true fineCalls).2.1 fineCalls =
    (1, cutDb, fineCalls) ∧ (cdbInit cutFile true fineCalls).1 = 0 ∧ cutDb.mapped = true := by
  decide +kernel

theorem addrec_inside_iff_cut :
    (StaysInside cdbmkAddrecMap 2048 cutDb ↔
      Inside cdbFormat cutDb ∨ 2 ^ 32 ≤ 2048 % 2 ^ 32 + 8 + cutDb.klen + cutDb.dlen) ∧
    (StaysInside hdbmkAddrecMap 2048 cutDb ↔
      Inside hdbFormat cutDb ∨ 2 ^ 32 ≤ 2048 % 2 ^ 32 + 6 + cutDb.klen + cutDb.dlen ∨
        hdbU24max < cutDb.klen ∨ hdbU24max < cutDb.dlen) ∧
    (Inside cdbFormat cutDb → ∀ m c, (cdbmkAddrecMap m cutDb).map (fun r => (r.1, r.2, c)) =
      some (cdbmkAddrec m cutDb c)) :=
  addrec_inside_iff cutDb_reached.2.2 2048

/-- `cdb_seqinit()` is content with a record of which only the header is in the file,
and its copy by a generator that has no record yet reads beyond the map. -/
theorem addrec_outside : (cdbInit cutFile true fineCalls).1 = 0 ∧
    cdbSeqinit (cdbInit cutFile true fineCalls).2.1 fineCalls = (1, cutDb, fineCalls) ∧
    cutDb.mapped = true ∧ ¬ StaysInside cdbmkAddrecMap 2048 cutDb := by
  obtain ⟨hseq, hinit, hmap⟩ := cutDb_reached
  refine ⟨hinit, hseq, hmap, fun hsafe => ?_⟩
  rcases (addMap_iff cutDb 2048).mp hsafe with ⟨hkey, -⟩ | hbig
  · exact absurd hkey (by decide +kernel)
  · exact absurd hbig (by decide)

end Perp.HashBounds
