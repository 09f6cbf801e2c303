import Perp.HashFile

set_option autoImplicit false

/-!
# cdb

`lasagna/cdb`: the reader `struct cdb` and the generator `struct cdbmk`.
-/
namespace Perp.CdbFormat
open Pkt ByteImage IoqPut HashFile

def cdbNtabs : ℕ := 256
def cdbHashinit : UInt32 := 5381

/-- `cdb_NTAB()` -/
def cdbNtab (hash : UInt32) : ℕ := (hash &&& 255).toNat

/-- `cdb_SLOT()` -/
def cdbSlot (hash : UInt32) (tslots : ℕ) : ℕ := (hash >>> 8).toNat % tslots

def cdbmkNlists : ℕ := 4
def cdbmkNrecs : ℕ := 500
def cdbmkBufsize : ℕ := 8192

/-- `cdbmk_NLIST()` -/
def cdbmkNlist (ntab : ℕ) : ℕ :=
  if ntab < 128 then if ntab < 64 then 0 else 1 else if ntab < 192 then 2 else 3

theorem cdbNtab_lt (h : UInt32) : cdbNtab h < cdbNtabs := by
  have hle : h.toNat &&& 255 ≤ 255 := Nat.and_le_right
  simp only [cdbNtab, cdbNtabs, UInt32.toNat_and]
  exact Nat.lt_succ_of_le hle

/-- the format of cdb -/
def cdbFormat : Format where
  width := 4
  lmax := 2 ^ 32 - 1
  pack := pack32
  unpack := unpack32
  hashinit := cdbHashinit
  -- mix operation precedes combine
  mix h c := (h + (h <<< 5)) ^^^ c.toUInt32
  ntabs := cdbNtabs
  ntab := cdbNtab
  slot := cdbSlot
  nlists := cdbmkNlists
  nlist := cdbmkNlist
  nrecs := cdbmkNrecs
  width_pos := by decide
  pack_length := pack32_length
  unpack_pack n h rest := unpack32_pack n (by omega) rest
  ntab_lt := cdbNtab_lt
  slot_lt _ _ hn := Nat.mod_lt _ hn
  nlist_lt i _ := by
    simp only [cdbmkNlist, cdbmkNlists]
    split_ifs <;> decide
  nlist_mono i j h := by
    simp only [cdbmkNlist]
    split_ifs <;> omega

/-- `cdb_init()`: whether `mmap()` succeeds is up to the system. -/
def cdbInit (file : List UInt8) (mmaps : Bool) (c : Calls) : ℤ × Db × Calls :=
  let db := dbZero file mmaps
  match dbRead db c 4 0 with
  | (none, c) => (-1, db, c)
  | (some buf, c) => (0, { db with hbase := unpack32 buf }, c)

def cdbFind (db : Db) (c : Calls) (key : List UInt8) : ℤ × Db × Calls :=
  let hash := cdbFormat.hash key
  let db := { db with key := key, klen := key.length, h := hash }
  match dbRead db c 8 (cdbNtab hash * 8) with
  | (none, c) => (-1, db, c)
  | (some nbuf, c) => probeTable cdbFormat db c (unpack32 nbuf) (unpack32 (nbuf.drop 4))

def cdbFindnext (db : Db) (c : Calls) : ℤ × Db × Calls := findnext cdbFormat db c

def cdbKpos (db : Db) : ℕ := db.kpos cdbFormat

def cdbDpos (db : Db) : ℕ := db.dpos cdbFormat

def cdbSeqinit (db : Db) (c : Calls) : ℤ × Db × Calls := seqAt cdbFormat db c (256 * 8)

def cdbSeqnext (db : Db) (c : Calls) : ℤ × Db × Calls := seqnext cdbFormat db c

/-- `cdbmk_init()`, which returns what `lseek()` returns -/
def cdbmkInit (d : Fd) (mem : List Bool) : ℤ × Mk :=
  let fp := 4 * 2 * cdbNtabs
  let r := lseek d fp
  (r.1, ⟨fp, fun _ => [], fun _ => 0, ioqInit r.2 cdbmkBufsize, mem⟩)

def cdbmkAdd (m : Mk) (key data : List UInt8) : ℤ × Mk := add cdbFormat m key data

def cdbmkAddrec (m : Mk) (db : Db) (c : Calls) : ℤ × Mk × Calls := addrec cdbFormat cdbmkAdd m db c

/-- The pointer to the subtable `i` in section P -/
def cdbPointer (m : Mk) (i : ℕ) : List UInt8 :=
  pack32 (m.fp % 2 ^ 32 + offset m i) ++ pack32 (slots m i)

/-- Section P -/
def cdbHead (m : Mk) : List (List UInt8) := (List.range cdbNtabs).map (cdbPointer m)

def cdbmkFinish (m : Mk) : Except Stop Fd := finish cdbFormat (cdbHead m) m

/-- A database generated from the records `recs`: every call succeeds. The
result is the file. -/
def cdbmk (d : Fd) (mem : List Bool) (recs : List (List UInt8 × List UInt8)) :
    Except Stop (List UInt8) := do
  let m ← returned (cdbmkInit d mem)
  let m ← recs.foldlM (fun m r => returned (cdbmkAdd m r.1 r.2)) m
  let d ← cdbmkFinish m
  return d.file

end Perp.CdbFormat
