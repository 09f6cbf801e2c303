import Mathlib.Algebra.Order.Ring.Nat
import Perp.IoqGet
import Perp.IoqPut

set_option autoImplicit false

/-!
# Constant hash databases

What `lasagna/cdb` and `lasagna/hdb` have in common: a reader and a writer of a
file of records and of hash tables, for a format that says how the two differ.
Offsets and lengths are counted as the `uint32_t` they are.
-/
namespace Perp.HashFile
open Pkt ByteImage IoqPut
open IoqGet (ReadAns readOnce)

/-- What `cdb` and `hdb` do not have in common. -/
structure Format where
  /-- the bytes of one of the two lengths before a record -/
  width : ℕ
  /-- the greatest length -/
  lmax : ℕ
  pack : ℕ → List UInt8
  unpack : List UInt8 → ℕ
  hashinit : UInt32
  /-- one byte of the hash -/
  mix : UInt32 → UInt8 → UInt32
  ntabs : ℕ
  ntab : UInt32 → ℕ
  slot : UInt32 → ℕ → ℕ
  nlists : ℕ
  nlist : ℕ → ℕ
  /-- the records of a block -/
  nrecs : ℕ
  width_pos : 0 < width
  pack_length : ∀ n, (pack n).length = width
  unpack_pack : ∀ n, n ≤ lmax → ∀ rest, unpack (pack n ++ rest) = n
  ntab_lt : ∀ h, ntab h < ntabs
  slot_lt : ∀ h n, 0 < n → slot h n < n
  nlist_lt : ∀ i, i < ntabs → nlist i < nlists
  nlist_mono : ∀ i j, i ≤ j → nlist i ≤ nlist j

variable (F : Format)

/-- The size of the header of a record -/
def Format.hdr : ℕ := 2 * F.width

/-- `cdb_hashpart()`, whose loop is unrolled by four -/
def Format.hashpart (h : UInt32) (key : List UInt8) : UInt32 := key.foldl F.mix h

def Format.hash (key : List UInt8) : UInt32 := F.hashpart F.hashinit key

def pack32 (n : ℕ) : List UInt8 := upak32Pack (UInt32.ofNat n)

def unpack32 (b : List UInt8) : ℕ := (upak32Unpack b).toNat

theorem pack32_length (n : ℕ) : (pack32 n).length = 4 := rfl

theorem unpack32_pack (n : ℕ) (h : n < 2 ^ 32) (rest : List UInt8) :
    unpack32 (pack32 n ++ rest) = n := by
  rw [unpack32, pack32, upak32Unpack_pack]
  exact Nat.mod_eq_of_lt h

/-- `ufunc_u32add()` -/
def ufuncU32add (u add : ℕ) : Option ℕ :=
  if (u + add) % 2 ^ 32 < add then none else some ((u + add) % 2 ^ 32)

/-! ## The reader -/

inductive Errno where
  | none
  /-- an error of `lseek()` or `read()` -/
  | io
  | eproto
  | erange
  deriving DecidableEq, Repr

/-- How the system calls of a reader will go, and `errno`. -/
structure Calls where
  /-- whether `lseek()` fails, call by call -/
  seeks : List Bool
  reads : List ReadAns
  errno : Errno
  deriving DecidableEq, Repr

structure Db where
  file : List UInt8
  /-- the file is mapped at `map` -/
  mapped : Bool
  hbase : ℕ
  key : List UInt8
  klen : ℕ
  h : UInt32
  tbase : ℕ
  tslots : ℕ
  s0 : ℕ
  sN : ℕ
  rpos : ℕ
  dlen : ℕ
  deriving DecidableEq, Repr

/-- A reader before its `init`: `mmap()` may fail, and is not tried on a file
that is too large. -/
def dbZero (file : List UInt8) (mmaps : Bool) : Db :=
  ⟨file, mmaps && file.length ≤ 0xffffffff, 0, [], 0, 0, 0, 0, 0, 0, 0, 0⟩

/-- The loop of `cdb_read()` over `read()`. Every `read()` returns a byte at
least or ends it. -/
def readLoop : ℕ → List UInt8 → ℕ → Calls → Option (List UInt8) × Calls
  | 0, _, _, c => (some [], c)
  | fuel + 1, rest, len, c =>
    if len = 0 then (some [], c)
    else
      match readOnce rest len c.reads with
      | (none, i) => (none, { c with reads := i.answers, errno := .io })
      | (some data, i) =>
        if data = [] then (none, { c with reads := i.answers, errno := .eproto })
        else
          let r := readLoop fuel i.rest (len - data.length) { c with reads := i.answers }
          (r.1.map (data ++ ·), r.2)

/-- `cdb_read()`: none is a return of -1. -/
def dbRead (db : Db) (c : Calls) (len offset : ℕ) : Option (List UInt8) × Calls :=
  if db.mapped then
    if offset ≥ db.file.length ∨ db.file.length - offset < len then
      (none, { c with errno := .eproto })
    else (some (slice db.file offset len), c)
  else if c.seeks.head? = some true then (none, { c with seeks := c.seeks.tail, errno := .io })
  else readLoop len (db.file.drop offset) len { c with seeks := c.seeks.tail }

def keybufSize : ℕ := 80

/-- `cdb_key_match()`: `key` is not advanced with `kpos`. -/
def keyMatch (db : Db) (key : List UInt8) : ℕ → ℕ → ℕ → Calls → ℤ × Calls
  | 0, _, _, c => (1, c)
  | fuel + 1, klen, kpos, c =>
    if klen = 0 then (1, c)
    else
      let n := min keybufSize klen
      match dbRead db c n kpos with
      | (none, c) => (-1, c)
      | (some kbuf, c) =>
        if key.take n ≠ kbuf then (0, c)
        else keyMatch db key fuel (klen - n) ((kpos + n) % 2 ^ 32) c

/-- Whether the record of a slot that is not empty matches: 1 with the length of
its data, 0, or -1. -/
def slotMatch (db : Db) (c : Calls) (slotHash : UInt32) (rpos : ℕ) : ℤ × ℕ × Calls :=
  if slotHash ≠ db.h then (0, 0, c)
  else
    match dbRead db c F.hdr rpos with
    | (none, c) => (-1, 0, c)
    | (some nbuf, c) =>
      if F.unpack nbuf ≠ db.klen then (0, 0, c)
      else
        let r := keyMatch db db.key db.klen db.klen ((rpos + F.hdr) % 2 ^ 32) c
        (r.1, F.unpack (nbuf.drop F.width), r.2)

/-- `cdb_hash_probe()`: from any target it is back at `s0` after `tslots` slots. -/
def hashProbe (db : Db) : ℕ → ℕ → Calls → ℤ × Db × Calls
  | 0, _, c => (0, db, c)
  | fuel + 1, target, c =>
    if target < db.tslots then
      match dbRead db c 8 ((db.tbase + target * 8) % 2 ^ 32) with
      | (none, c) => (-1, db, c)
      | (some nbuf, c) =>
        let rpos := unpack32 (nbuf.drop 4)
        if rpos = 0 then (0, db, c)
        else
          let m := slotMatch F db c (upak32Unpack nbuf) rpos
          if m.1 = -1 then (-1, db, m.2.2)
          else if m.1 = 1 then (1, { db with sN := target, rpos := rpos, dlen := m.2.1 }, m.2.2)
          else
            let target := if target + 1 = db.tslots then 0 else target + 1
            if target = db.s0 then (0, db, m.2.2) else hashProbe db fuel target m.2.2
    else (0, db, c)

/-- The end of `cdb_find()`, when the subtable of the key is known. -/
def probeTable (db : Db) (c : Calls) (tbase tslots : ℕ) : ℤ × Db × Calls :=
  let db := { db with tbase := tbase, tslots := tslots }
  if tslots = 0 then (0, db, c)
  else
    let target := F.slot db.h tslots
    hashProbe F { db with s0 := target } tslots target c

def findnext (db : Db) (c : Calls) : ℤ × Db × Calls :=
  let target := (db.sN + 1) % 2 ^ 32
  let target := if target = db.tslots then 0 else target
  if target = db.s0 then (0, db, c) else hashProbe F db db.tslots target c

/-- `cdb_seq_()` -/
def seqAt (db : Db) (c : Calls) (rpos : ℕ) : ℤ × Db × Calls :=
  if ¬ rpos < db.hbase then (0, db, c)
  else
    match dbRead db c F.hdr rpos with
    | (none, c) => (-1, db, c)
    | (some nbuf, c) =>
      (1, { db with rpos := rpos, klen := F.unpack nbuf, dlen := F.unpack (nbuf.drop F.width) }, c)

def seqnext (db : Db) (c : Calls) : ℤ × Db × Calls :=
  seqAt F db c ((db.rpos + (db.klen + db.dlen + F.hdr)) % 2 ^ 32)

/-- `cdb_kpos()` -/
def Db.kpos (db : Db) : ℕ := (db.rpos + F.hdr) % 2 ^ 32

/-- `cdb_dpos()` -/
def Db.dpos (db : Db) : ℕ := (db.rpos + F.hdr + db.klen) % 2 ^ 32

/-- What `cursor` shows after a call and after the calls of `next` that follow it,
as long as they return 1, and the return that ends them. -/
def visits {δ γ : Type} (next : δ → Calls → ℤ × δ × Calls) (cursor : δ → γ) :
    ℕ → ℤ × δ × Calls → List γ × ℤ
  | 0, r => ([], r.1)
  | fuel + 1, r =>
    if r.1 = 1 then
      let rest := visits next cursor fuel (next r.2.1 r.2.2)
      (cursor r.2.1 :: rest.1, rest.2)
    else ([], r.1)

/-! ## The writer -/

structure Hashoff where
  hash : UInt32
  rpos : ℕ
  deriving DecidableEq, Repr

structure Mk where
  fp : ℕ
  /-- the lists of blocks, the last block first -/
  inputList : ℕ → List (List Hashoff)
  subtabCount : ℕ → ℕ
  ioq : Ioq
  /-- whether `malloc()` fails, call by call -/
  mem : List Bool

/-- A new block before the others -/
def newBlock (mem : List Bool) (blocks : List (List Hashoff)) :
    Option (List Hashoff × List (List Hashoff)) × List Bool :=
  (if mem.head? = some true then none else some ([], blocks), mem.tail)

/-- The block of a list with room for a record, and those before it -/
def roomy (mem : List Bool) : List (List Hashoff) →
    Option (List Hashoff × List (List Hashoff)) × List Bool
  | [] => newBlock mem []
  | block :: blocks =>
    if block.length ≥ F.nrecs then newBlock mem (block :: blocks) else (some (block, blocks), mem)

/-- `cdbmk__update()` -/
def update (m : Mk) (hash : UInt32) (rpos fpUp : ℕ) : ℤ × Mk :=
  let ntab := F.ntab hash
  let nlist := F.nlist ntab
  match roomy F m.mem (m.inputList nlist) with
  | (none, mem) => (-1, { m with mem := mem })
  | (some (block, blocks), mem) =>
    (0,
      { m with
        fp := fpUp
        inputList := Function.update m.inputList nlist ((block ++ [⟨hash, rpos⟩]) :: blocks)
        subtabCount := Function.update m.subtabCount ntab ((m.subtabCount ntab + 1) % 2 ^ 32)
        mem := mem })

/-- The check for overflow of a record with a header of `hdr` bytes at `fp` -/
def recordEnd (fp hdr klen dlen : ℕ) : Option ℕ :=
  ((ufuncU32add fp hdr).bind fun fp => ufuncU32add fp klen).bind fun fp => ufuncU32add fp dlen

/-- `cdbmk_add()` -/
def add (m : Mk) (key data : List UInt8) : ℤ × Mk :=
  let rpos := m.fp % 2 ^ 32
  match recordEnd rpos F.hdr key.length data.length with
  | none => (-1, m)
  | some fpUp =>
    let r := puts m.ioq [F.pack key.length ++ F.pack data.length, key, data]
    if r.1 = -1 then (-1, { m with ioq := r.2 })
    else update F { m with ioq := r.2 } (F.hash key) rpos fpUp

def copybufSize : ℕ := 512

/-- What `cdbmk_addrec()` works on while it copies a record. -/
structure Copy where
  rpos : ℕ
  hash : UInt32
  q : Ioq
  c : Calls
  deriving DecidableEq, Repr

/-- One loop of `cdbmk_addrec()`, over `len` bytes -/
def copyLoop (db : Db) : ℕ → ℕ → Copy → Bool × Copy
  | 0, _, s => (true, s)
  | fuel + 1, len, s =>
    if len = 0 then (true, s)
    else
      let r := min len copybufSize
      match dbRead db s.c r s.rpos with
      | (none, c) => (false, { s with c := c })
      | (some buf, c) =>
        let p := ioqPut s.q buf
        let s := ⟨(s.rpos + r) % 2 ^ 32, F.hashpart s.hash buf, p.2, c⟩
        if p.1 = -1 then (false, s) else copyLoop db fuel (len - r) s

/-- `cdbmk_addrec()`: `addition` is the `cdbmk_add()` of the format. -/
def addrec (addition : Mk → List UInt8 → List UInt8 → ℤ × Mk) (m : Mk) (db : Db) (c : Calls) :
    ℤ × Mk × Calls :=
  if db.mapped then
    let r := addition m (slice db.file (db.kpos F) db.klen) (slice db.file (db.dpos F) db.dlen)
    (r.1, r.2, c)
  else
    let fp := m.fp % 2 ^ 32
    match recordEnd fp 8 db.klen db.dlen with
    | none => (-1, m, c)
    | some fpUp =>
      let k := copyLoop F db db.klen db.klen ⟨db.rpos, F.hashinit, m.ioq, c⟩
      if k.1 = false then (-1, { m with ioq := k.2.q }, k.2.c)
      else
        let d := copyLoop F db db.dlen db.dlen k.2
        if d.1 = false then (-1, { m with ioq := d.2.q }, d.2.c)
        else
          let r := update F { m with ioq := d.2.q } d.2.hash fp fpUp
          (r.1, r.2, d.2.c)

/-- Why a call gets no further: it returns -1, or the program leaves what C
defines, or does not return. -/
inductive Stop where
  | failed
  | fault
  deriving DecidableEq, Repr

/-- The loop of `tbuf_load()`, which never ends when no slot is empty: then it has
been at every slot after `tslots` of them. -/
def tbufLoop (tbuf : List UInt8) (tbase tslots : ℕ) (e : Hashoff) :
    ℕ → ℕ → Except Stop (List UInt8)
  | 0, _ => .error .fault
  | fuel + 1, target =>
    let slotbuf := tbase + target * 8 % 2 ^ 32
    if tbuf.length < slotbuf + 8 then .error .fault
    else if unpack32 (slice tbuf (slotbuf + 4) 4) = 0 then
      .ok (bufWrite tbuf slotbuf (upak32Pack e.hash ++ pack32 e.rpos))
    else tbufLoop tbuf tbase tslots e fuel (if target + 1 = tslots then 0 else target + 1)

def tbufLoad (tbuf : List UInt8) (tbase tslots target : ℕ) (e : Hashoff) :
    Except Stop (List UInt8) :=
  if ¬ target < tslots then .error .failed else tbufLoop tbuf tbase tslots e tslots target

/-- `subtab_slots[i]` -/
def slots (m : Mk) (i : ℕ) : ℕ := m.subtabCount i * 2 % 2 ^ 32

/-- `toff` before the subtable `i` -/
def toff (m : Mk) : ℕ → Option ℕ
  | 0 => some 0
  | i + 1 => (toff m i).bind fun u => ufuncU32add u (slots m i * 8 % 2 ^ 32)

/-- `subtab_offset[i]` -/
def offset (m : Mk) (i : ℕ) : ℕ := (toff m i).getD 0

/-- `sum` before the subtable `i` -/
def sum (m : Mk) : ℕ → ℕ
  | 0 => 0
  | i + 1 => (sum m i + slots m i) % 2 ^ 32

/-- `list_slots[l]` before the subtable `i` -/
def listSlots (m : Mk) (l : ℕ) : ℕ → ℕ
  | 0 => 0
  | i + 1 => if F.nlist i = l then (listSlots m l i + slots m i) % 2 ^ 32 else listSlots m l i

def listMax (m : Mk) : ℕ :=
  (List.range F.nlists).foldl (fun max l => Nat.max max (listSlots F m l F.ntabs)) 0

/-- One record of the loop that fills `tbuf`. Without a slot for it the remainder
of its hash is a division by zero. -/
def loadRecord (m : Mk) (tbaseAdj : ℕ) (tbuf : List UInt8) (e : Hashoff) :
    Except Stop (List UInt8) :=
  let ntab := F.ntab e.hash
  let tbase := (offset m ntab + 2 ^ 32 - tbaseAdj) % 2 ^ 32
  let tslots := slots m ntab
  if tslots = 0 then .error .fault
  else tbufLoad tbuf tbase tslots (F.slot e.hash tslots) e

/-- What the loop over the lists works on. -/
structure Tables where
  tbuf : List UInt8
  q : Ioq
  sum : ℕ

/-- What a call that may return -1 leaves. -/
def returned {α : Type} (r : ℤ × α) : Except Stop α :=
  if r.1 = -1 then .error .failed else .ok r.2

/-- One list of section H: `buf_zero()`, the records in the order they were added,
and the table written. -/
def writeList (m : Mk) (t : Tables) (l : ℕ) : Except Stop Tables :=
  let len := listSlots F m l F.ntabs * 8 % 2 ^ 32
  if t.tbuf.length < len then .error .fault
  else do
    let tbuf := bufWrite t.tbuf 0 (List.replicate len 0)
    let tbuf ← (m.inputList l).reverse.flatten.foldlM (loadRecord F m (t.sum * 8 % 2 ^ 32)) tbuf
    let q ← returned (ioqPut t.q (tbuf.take len))
    return ⟨tbuf, q, (t.sum + listSlots F m l F.ntabs) % 2 ^ 32⟩

/-- `cdbmk_finish()`: `head` is what stands before the records. The result is the
file after a return of 0. Of the memory for `tbuf` nothing is used before
`buf_zero()`. -/
def finish (head : List (List UInt8)) (m : Mk) : Except Stop Fd :=
  if toff m F.ntabs = none then .error .failed
  else if ufuncU32add (m.fp % 2 ^ 32) (sum m F.ntabs * 8 % 2 ^ 32) = none then .error .failed
  else if m.mem.head? = some true then .error .failed
  else do
    let t ← (List.range F.nlists).foldlM (writeList F m)
      ⟨List.replicate (listMax F m * 8 % 2 ^ 32) 0, m.ioq, 0⟩
    let q ← returned (ioqFlush t.q)
    let d ← returned (lseek q.d 0)
    let q ← returned (puts { q with d := d } head)
    let q ← returned (ioqFlush q)
    return q.d

end Perp.HashFile
