import Perp.HashFile

set_option autoImplicit false

/-!
# hdb

`lasagna/hdb`: the reader `struct hdb` and the generator `struct hdbmk`.
-/
namespace Perp.HdbFormat
open Pkt ByteImage IoqPut HashFile

def hdbNtabs : ℕ := 8
def hdbHashinit : UInt32 := 0
def hdbHword : UInt32 := 16
def hdbShift : UInt32 := 3
def hdbIdlen : ℕ := 16
def hdbCbase : ℕ := hdbIdlen + 8 + hdbNtabs * 8
def hdbU24max : ℕ := 2 ^ 24 - 1

/-- `"hdb32/1.0\0\0\0\0\0\0\0\0"`, the first `HDB_IDLEN` bytes -/
def hdb32Ident : List UInt8 := [104, 100, 98, 51, 50, 47, 49, 46, 48, 0, 0, 0, 0, 0, 0, 0]

/-- `hdb_NTAB()` -/
def hdbNtab (hash : UInt32) : ℕ := (hash &&& 7).toNat

/-- `hdb_XMIX()` -/
def hdbXmix (hash : UInt32) : UInt32 := (hash >>> (hdbHword - hdbShift)) ^^^ hash

/-- `hdb_SLOT()` -/
def hdbSlot (hash : UInt32) (tslots : ℕ) : ℕ := (hdbXmix hash >>> hdbShift).toNat % tslots

def hdbmkNrecs : ℕ := 256
def hdbmkBufsize : ℕ := 8192

def upak24Pack (u : UInt32) : List UInt8 := [0, 8, 16].map fun k : UInt32 => (u >>> k).toUInt8

def upak24Unpack (b : List UInt8) : UInt32 :=
  [2, 1, 0].foldl (fun u i => (u <<< 8) + (byteAt b i).toUInt32) 0

def pack24 (n : ℕ) : List UInt8 := upak24Pack (UInt32.ofNat n)

def unpack24 (b : List UInt8) : ℕ := (upak24Unpack b).toNat

theorem unpack24_pack (n : ℕ) (h : n ≤ hdbU24max) (rest : List UInt8) :
    unpack24 (pack24 n ++ rest) = n := by
  have hlt : n < 2 ^ 24 := by
    unfold hdbU24max at h
    omega
  simp [unpack24, pack24, upak24Unpack, upak24Pack, byteAt, Nat.shiftRight_eq_div_pow,
    Nat.shiftLeft_eq]
  omega

theorem hdbNtab_lt (h : UInt32) : hdbNtab h < hdbNtabs := by
  have hle : h.toNat &&& 7 ≤ 7 := Nat.and_le_right
  simp only [hdbNtab, hdbNtabs, UInt32.toNat_and]
  exact Nat.lt_succ_of_le hle

/-- the format of hdb -/
def hdbFormat : Format where
  width := 3
  lmax := hdbU24max
  pack := pack24
  unpack := unpack24
  hashinit := hdbHashinit
  -- combine precedes mix; mix multiplier 37
  mix h c :=
    let h := h ^^^ c.toUInt32
    h + ((h <<< 2) + (h <<< 5))
  ntabs := hdbNtabs
  ntab := hdbNtab
  slot := hdbSlot
  nlists := hdbNtabs
  nlist ntab := ntab
  nrecs := hdbmkNrecs
  width_pos := by decide
  pack_length _ := rfl
  unpack_pack := unpack24_pack
  ntab_lt := hdbNtab_lt
  slot_lt _ _ hn := Nat.mod_lt _ hn
  nlist_lt _ h := h
  nlist_mono _ _ h := h

/-- `struct hdb_valoff` -/
structure Valoff where
  value : ℕ
  offset : ℕ
  deriving DecidableEq, Repr

structure Hdb extends Db where
  nrecs : ℕ
  tndx : List Valoff
  cbase : ℕ
  rbase : ℕ
  deriving DecidableEq, Repr

/-- Sections M and P of the header, as `hdb_init()` loads them -/
def loadHeader (db : Hdb) (header : List UInt8) : Hdb :=
  let buf := header.drop hdbIdlen
  let tndx := (List.range hdbNtabs).map fun i =>
    ⟨unpack32 (buf.drop (8 + 8 * i)), unpack32 (buf.drop (8 + 8 * i + 4))⟩
  { db with
    nrecs := unpack32 buf
    rbase := unpack32 (buf.drop 4)
    tndx := tndx
    cbase := hdbCbase
    hbase := (tndx.getD 0 ⟨0, 0⟩).offset }

/-- `hdb_init()`: whether `mmap()` succeeds is up to the system. -/
def hdbInit (file : List UInt8) (mmaps : Bool) (c : Calls) : ℤ × Hdb × Calls :=
  let db : Hdb := ⟨dbZero file mmaps, 0, List.replicate hdbNtabs ⟨0, 0⟩, 0, 0⟩
  match dbRead db.toDb c hdbCbase 0 with
  | (none, c) => (-1, db, c)
  | (some header, c) =>
    if header.take hdbIdlen ≠ hdb32Ident then (-1, db, { c with errno := .eproto })
    else (0, loadHeader db header, c)

def ofDb (db : Hdb) (r : ℤ × Db × Calls) : ℤ × Hdb × Calls := (r.1, { db with toDb := r.2.1 }, r.2.2)

def hdbFind (db : Hdb) (c : Calls) (key : List UInt8) : ℤ × Hdb × Calls :=
  if key.length > hdbU24max then (-1, db, { c with errno := .erange })
  else
    let hash := hdbFormat.hash key
    let db := { db with key := key, klen := key.length, h := hash }
    let t := db.tndx.getD (hdbNtab hash) ⟨0, 0⟩
    ofDb db (probeTable hdbFormat db.toDb c t.offset t.value)

def hdbFindnext (db : Hdb) (c : Calls) : ℤ × Hdb × Calls := ofDb db (findnext hdbFormat db.toDb c)

def hdbKpos (db : Hdb) : ℕ := db.kpos hdbFormat

def hdbDpos (db : Hdb) : ℕ := db.dpos hdbFormat

def hdbSeqinit (db : Hdb) (c : Calls) : ℤ × Hdb × Calls :=
  ofDb db (seqAt hdbFormat db.toDb c db.rbase)

def hdbSeqnext (db : Hdb) (c : Calls) : ℤ × Hdb × Calls := ofDb db (seqnext hdbFormat db.toDb c)

structure Hdbmk extends Mk where
  rbase : ℕ

def hdbmkStart (d : Fd) (mem : List Bool) (comment : List UInt8) : ℤ × Hdbmk :=
  let r := lseek d hdbCbase
  let m : Hdbmk := ⟨⟨0, fun _ => [], fun _ => 0, ioqInit r.2 hdbmkBufsize, mem⟩, 0⟩
  if r.1 = -1 then (-1, m)
  else if comment = [] then (0, { m with fp := hdbCbase, rbase := hdbCbase })
  else
    match ufuncU32add hdbCbase comment.length with
    | none => (-1, m)
    | some fp =>
      let p := ioqPut m.ioq comment
      if p.1 = -1 then (-1, { m with ioq := p.2 })
      else (0, { m with ioq := p.2, fp := fp, rbase := fp })

/-- `hdbmk_add()` -/
def addition (m : Mk) (key data : List UInt8) : ℤ × Mk :=
  if key.length > hdbU24max ∨ data.length > hdbU24max then (-1, m) else add hdbFormat m key data

def hdbmkAdd (m : Hdbmk) (key data : List UInt8) : ℤ × Hdbmk :=
  let r := addition m.toMk key data
  (r.1, { m with toMk := r.2 })

def hdbmkAddrec (m : Hdbmk) (db : Hdb) (c : Calls) : ℤ × Hdbmk × Calls :=
  let r := addrec hdbFormat addition m.toMk db.toDb c
  (r.1, { m with toMk := r.2.1 }, r.2.2)

/-- `nrecs` before the subtable `i` -/
def nrecsOf (m : Mk) : ℕ → ℕ
  | 0 => 0
  | i + 1 => (nrecsOf m i + m.subtabCount i) % 2 ^ 32

/-- The pointer to the subtable `i` in section P -/
def hdbPointer (m : Mk) (i : ℕ) : List UInt8 :=
  pack32 (slots m i) ++ pack32 (m.fp % 2 ^ 32 + offset m i)

/-- Sections I, M and P -/
def hdbHead (m : Hdbmk) : List (List UInt8) :=
  hdb32Ident :: (pack32 (nrecsOf m.toMk hdbNtabs) ++ pack32 m.rbase) ::
    (List.range hdbNtabs).map (hdbPointer m.toMk)

def hdbmkFinish (m : Hdbmk) : Except Stop Fd := finish hdbFormat (hdbHead m) m.toMk

/-- A database generated from `comment` and the records `recs`: every call
succeeds. The result is the file. -/
def hdbmk (d : Fd) (mem : List Bool) (comment : List UInt8)
    (recs : List (List UInt8 × List UInt8)) : Except Stop (List UInt8) := do
  let m ← returned (hdbmkStart d mem comment)
  let m ← recs.foldlM (fun m r => returned (hdbmkAdd m r.1 r.2)) m
  let d ← hdbmkFinish m
  return d.file

end Perp.HdbFormat
