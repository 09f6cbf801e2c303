import Perp.CdbFormat
import Perp.HashImage
import Perp.HdbFormat

set_option autoImplicit false

/-!
# Mapped and unmapped

A reader whose file is mapped against one that calls `read()`. They differ in one
place: at the end of the file and beyond, for no bytes at all.
-/
namespace Perp.HashModes
open Pkt ByteImage HashFile CdbFormat HdbFormat HashImage

def asMapped (db : Db) (mapped : Bool) : Db := { db with mapped := mapped }

/-- `errno` is the same, and the calls of the one that is not mapped do not fail. -/
structure Paired (c c' : Calls) : Prop where
  errno : c.errno = c'.errno
  fine : Fine c'

/-- A call of a mapped reader and of one that is not: the same result and the same
reader afterwards. -/
structure Agree (x y : ℤ × Db × Calls) : Prop where
  ret : x.1 = y.1
  mapped : x.2.1.mapped = true
  db : asMapped x.2.1 false = y.2.1
  calls : Paired x.2.2 y.2.2

inductive Query where
  | find (key : List UInt8)
  | findnext
  | seqinit
  | seqnext
  deriving DecidableEq, Repr

def cdbQuery (db : Db) (c : Calls) : Query → ℤ × Db × Calls
  | .find key => cdbFind db c key
  | .findnext => cdbFindnext db c
  | .seqinit => cdbSeqinit db c
  | .seqnext => cdbSeqnext db c

def hdbQuery (db : Hdb) (c : Calls) : Query → ℤ × Hdb × Calls
  | .find key => hdbFind db c key
  | .findnext => hdbFindnext db c
  | .seqinit => hdbSeqinit db c
  | .seqnext => hdbSeqnext db c

/-- What can be seen of a call: its return, `errno`, and the reader but for its map -/
def seen {δ : Type} (forget : δ → δ) (r : ℤ × δ × Calls) : ℤ × δ × Errno :=
  (r.1, forget r.2.1, r.2.2.errno)

/-- One query after the other: what is seen of each. -/
def answers {δ : Type} (query : δ → Calls → Query → ℤ × δ × Calls) (forget : δ → δ) :
    ℤ × δ × Calls → List Query → List (ℤ × δ × Errno)
  | r, [] => [seen forget r]
  | r, q :: qs => seen forget r :: answers query forget (query r.2.1 r.2.2 q) qs

def cdbAnswers (file : List UInt8) (mmaps : Bool) (c : Calls) (qs : List Query) :
    List (ℤ × Db × Errno) :=
  answers cdbQuery (asMapped · false) (cdbInit file mmaps c) qs

def hdbAnswers (file : List UInt8) (mmaps : Bool) (c : Calls) (qs : List Query) :
    List (ℤ × Hdb × Errno) :=
  answers hdbQuery (fun db => { db with toDb := asMapped db.toDb false }) (hdbInit file mmaps c) qs

/-- The file mapped and the same file unmapped: a read of `len` bytes at `offset`
ends in the same way and with the same bytes, and so do all the queries. -/
structure ModesAgree (file : List UInt8) (offset len : ℕ) : Prop where
  read : ∀ c c', Paired c c' →
    let x := dbRead (dbZero file true) c len offset
    let y := dbRead (dbZero file false) c' len offset
    x.1 = y.1 ∧ x.2.errno = y.2.errno ∧ ∀ buf, x.1 = some buf → buf = slice file offset len
  cdb : ∀ c c', Paired c c' → ∀ qs, cdbAnswers file true c qs = cdbAnswers file false c' qs
  hdb : ∀ c c', Paired c c' → ∀ qs, hdbAnswers file true c qs = hdbAnswers file false c' qs

section
variable {F : Format} {db : Db} {c c' : Calls}

theorem dbRead_agree {len : ℕ} (off : ℕ) (hm : db.mapped = true) (hp : Paired c c') (hpos : 0 < len) :
    ∃ v d d', dbRead db c len off = (v, d) ∧ dbRead (asMapped db false) c' len off = (v, d') ∧
      Paired d d' ∧ ∀ buf, v = some buf → buf = slice db.file off len := by
  obtain ⟨d, hread, -, herr⟩ := @dbRead_value db c off len (.inr hm) hpos
  obtain ⟨d', hread', hfine, herr'⟩ :=
    @dbRead_value (asMapped db false) c' off len (.inl hp.fine) hpos
  refine ⟨_, d, d', hread, hread', ⟨?_, hfine hp.fine⟩, fun buf hbuf => ?_⟩
  · rw [herr, herr', hp.errno]
    rfl
  · by_cases hin : off + len ≤ db.file.length
    · rw [if_pos hin] at hbuf
      exact (Option.some.inj hbuf).symm
    · rw [if_neg hin] at hbuf
      exact absurd hbuf (by simp)

theorem keyMatch_agree (key : List UInt8) {fuel klen : ℕ} (kpos : ℕ) (hm : db.mapped = true)
    (hp : Paired c c') :
    ∃ r d d', keyMatch db key fuel klen kpos c = (r, d) ∧
      keyMatch (asMapped db false) key fuel klen kpos c' = (r, d') ∧ Paired d d' := by
  induction fuel generalizing klen kpos c c' with
  | zero => exact ⟨1, c, c', rfl, rfl, hp⟩
  | succ fuel ih =>
    unfold keyMatch
    by_cases h0 : klen = 0
    · rw [if_pos h0, if_pos h0]
      exact ⟨1, c, c', rfl, rfl, hp⟩
    · rw [if_neg h0, if_neg h0]
      have h80 : 0 < keybufSize := by decide
      obtain ⟨v, d, d', hread, hread', hp', -⟩ :=
        @dbRead_agree db c c' (min keybufSize klen) kpos hm hp (by omega)
      simp only [hread, hread']
      cases v with
      | none => exact ⟨-1, d, d', rfl, rfl, hp'⟩
      | some kbuf =>
        by_cases hne : key.take (min keybufSize klen) ≠ kbuf
        · simp only [if_pos hne]
          exact ⟨0, d, d', rfl, rfl, hp'⟩
        · simp only [if_neg hne]
          exact ih _ hp'

theorem slotMatch_agree (hash : UInt32) (rpos : ℕ) (hm : db.mapped = true) (hp : Paired c c') :
    ∃ r n d d', slotMatch F db c hash rpos = (r, n, d) ∧
      slotMatch F (asMapped db false) c' hash rpos = (r, n, d') ∧ Paired d d' := by
  unfold slotMatch
  have hh : (asMapped db false).h = db.h := rfl
  have hk : (asMapped db false).klen = db.klen := rfl
  have hkey : (asMapped db false).key = db.key := rfl
  rw [hh, hk, hkey]
  by_cases hhash : hash ≠ db.h
  · rw [if_pos hhash, if_pos hhash]
    exact ⟨0, 0, c, c', rfl, rfl, hp⟩
  · rw [if_neg hhash, if_neg hhash]
    obtain ⟨v, d, d', hread, hread', hp', -⟩ := @dbRead_agree db c c' F.hdr rpos hm hp hdr_pos
    simp only [hread, hread']
    cases v with
    | none => exact ⟨-1, 0, d, d', rfl, rfl, hp'⟩
    | some nbuf =>
      by_cases hlen : F.unpack nbuf ≠ db.klen
      · simp only [if_pos hlen]
        exact ⟨0, 0, d, d', rfl, rfl, hp'⟩
      · simp only [if_neg hlen]
        obtain ⟨r, e, e', hmatch, hmatch', hp''⟩ :=
          @keyMatch_agree db d d' db.key db.klen db.klen ((rpos + F.hdr) % 2 ^ 32) hm hp'
        rw [hmatch, hmatch']
        exact ⟨r, _, e, e', rfl, rfl, hp''⟩

theorem hashProbe_agree (fuel target : ℕ) (hm : db.mapped = true) (hp : Paired c c') :
    Agree (hashProbe F db fuel target c) (hashProbe F (asMapped db false) fuel target c') := by
  induction fuel generalizing target c c' with
  | zero => exact ⟨rfl, hm, rfl, hp⟩
  | succ fuel ih =>
    unfold hashProbe
    have hts : (asMapped db false).tslots = db.tslots := rfl
    have htb : (asMapped db false).tbase = db.tbase := rfl
    have hs0 : (asMapped db false).s0 = db.s0 := rfl
    rw [hts, htb, hs0]
    by_cases ht : target < db.tslots
    · rw [if_pos ht, if_pos ht]
      obtain ⟨v, d, d', hread, hread', hp', -⟩ :=
        @dbRead_agree db c c' 8 ((db.tbase + target * 8) % 2 ^ 32) hm hp (by decide)
      simp only [hread, hread']
      cases v with
      | none => exact ⟨rfl, hm, rfl, hp'⟩
      | some nbuf =>
        by_cases hr0 : unpack32 (nbuf.drop 4) = 0
        · simp only [if_pos hr0]
          exact ⟨rfl, hm, rfl, hp'⟩
        · simp only [if_neg hr0]
          obtain ⟨r, n, e, e', hmatch, hmatch', hp''⟩ :=
            @slotMatch_agree F db d d' (upak32Unpack nbuf) (unpack32 (nbuf.drop 4)) hm hp'
          simp only [hmatch, hmatch']
          by_cases hfail : r = -1
          · simp only [if_pos hfail]
            exact ⟨rfl, hm, rfl, hp''⟩
          · simp only [if_neg hfail]
            by_cases hhit : r = 1
            · simp only [if_pos hhit]
              exact ⟨rfl, hm, rfl, hp''⟩
            · simp only [if_neg hhit]
              generalize (if target + 1 = db.tslots then 0 else target + 1) = next
              by_cases hback : next = db.s0
              · rw [if_pos hback, if_pos hback]
                exact ⟨rfl, hm, rfl, hp''⟩
              · rw [if_neg hback, if_neg hback]
                exact ih next hp''
    · rw [if_neg ht, if_neg ht]
      exact ⟨rfl, hm, rfl, hp⟩

theorem probeTable_agree (tbase tslots : ℕ) (hm : db.mapped = true) (hp : Paired c c') :
    Agree (probeTable F db c tbase tslots) (probeTable F (asMapped db false) c' tbase tslots) := by
  unfold probeTable
  by_cases h0 : tslots = 0
  · rw [if_pos h0, if_pos h0]
    exact ⟨rfl, hm, rfl, hp⟩
  · rw [if_neg h0, if_neg h0]
    exact @hashProbe_agree F { db with
      tbase := tbase, tslots := tslots, s0 := F.slot db.h tslots } c c' tslots _ hm hp

theorem findnext_agree (hm : db.mapped = true) (hp : Paired c c') :
    Agree (findnext F db c) (findnext F (asMapped db false) c') := by
  unfold findnext
  have hsN : (asMapped db false).sN = db.sN := rfl
  have hts : (asMapped db false).tslots = db.tslots := rfl
  have hs0 : (asMapped db false).s0 = db.s0 := rfl
  rw [hsN, hts, hs0]
  dsimp only
  generalize (if (db.sN + 1) % 2 ^ 32 = db.tslots then 0 else (db.sN + 1) % 2 ^ 32) = target
  by_cases hback : target = db.s0
  · rw [if_pos hback, if_pos hback]
    exact ⟨rfl, hm, rfl, hp⟩
  · rw [if_neg hback, if_neg hback]
    exact hashProbe_agree _ _ hm hp

theorem seqAt_agree (rpos : ℕ) (hm : db.mapped = true) (hp : Paired c c') :
    Agree (seqAt F db c rpos) (seqAt F (asMapped db false) c' rpos) := by
  unfold seqAt
  have hb : (asMapped db false).hbase = db.hbase := rfl
  rw [hb]
  by_cases hend : ¬ rpos < db.hbase
  · rw [if_pos hend, if_pos hend]
    exact ⟨rfl, hm, rfl, hp⟩
  · rw [if_neg hend, if_neg hend]
    obtain ⟨v, d, d', hread, hread', hp', -⟩ := @dbRead_agree db c c' F.hdr rpos hm hp hdr_pos
    simp only [hread, hread']
    cases v with
    | none => exact ⟨rfl, hm, rfl, hp'⟩
    | some nbuf => exact ⟨rfl, hm, rfl, hp'⟩

def sought (F : Format) (db : Db) (key : List UInt8) : Db :=
  { db with key := key, klen := key.length, h := F.hash key }

theorem cdbQuery_agree (q : Query) (hm : db.mapped = true) (hp : Paired c c') :
    Agree (cdbQuery db c q) (cdbQuery (asMapped db false) c' q) := by
  cases q with
  | find key =>
    have hsame : sought cdbFormat (asMapped db false) key =
        asMapped (sought cdbFormat db key) false := rfl
    obtain ⟨v, d, d', hread, hread', hp', -⟩ := @dbRead_agree (sought cdbFormat db key) c c' 8
      (cdbNtab (cdbFormat.hash key) * 8) hm hp (by decide)
    unfold cdbQuery cdbFind
    change dbRead { asMapped db false with key := key, klen := key.length, h := cdbFormat.hash key }
      c' 8 (cdbNtab (cdbFormat.hash key) * 8) = _ at hread'
    change dbRead { db with key := key, klen := key.length, h := cdbFormat.hash key } c 8
      (cdbNtab (cdbFormat.hash key) * 8) = _ at hread
    simp only [hread, hread']
    cases v with
    | none => exact ⟨rfl, hm, rfl, hp'⟩
    | some nbuf => exact @probeTable_agree cdbFormat (sought cdbFormat db key) _ _ _ _ hm hp'
  | findnext => exact findnext_agree hm hp
  | seqinit => exact seqAt_agree _ hm hp
  | seqnext => exact seqAt_agree _ hm hp

structure HdbAgree (x y : ℤ × Hdb × Calls) : Prop where
  core : Agree (x.1, x.2.1.toDb, x.2.2) (y.1, y.2.1.toDb, y.2.2)
  rest : { x.2.1 with toDb := y.2.1.toDb } = y.2.1

theorem ofDb_agree {db db' : Hdb} {x y : ℤ × Db × Calls} (h : Agree x y)
    (hdb : ∀ core, { db with toDb := core } = { db' with toDb := core }) :
    HdbAgree (ofDb db x) (ofDb db' y) := ⟨h, hdb _⟩

theorem hdbQuery_agree {db db' : Hdb} (q : Query) (hm : db.mapped = true)
    (hdb : { db with toDb := asMapped db.toDb false } = db') (hp : Paired c c') :
    HdbAgree (hdbQuery db c q) (hdbQuery db' c' q) := by
  subst hdb
  cases q with
  | find key =>
    simp only [hdbQuery, hdbFind]
    by_cases hlong : key.length > hdbU24max
    · rw [if_pos hlong, if_pos hlong]
      exact ⟨⟨rfl, hm, rfl, rfl, hp.fine.seeks, hp.fine.reads⟩, rfl⟩
    · rw [if_neg hlong, if_neg hlong]
      exact ofDb_agree (@probeTable_agree hdbFormat (sought hdbFormat db.toDb key) c c' _ _ hm hp)
        fun _ => rfl
  | findnext => exact ofDb_agree (findnext_agree hm hp) fun _ => rfl
  | seqinit => exact ofDb_agree (seqAt_agree _ hm hp) fun _ => rfl
  | seqnext => exact ofDb_agree (seqAt_agree _ hm hp) fun _ => rfl

theorem cdbInit_agree {file : List UInt8} (hfile : file.length ≤ 0xffffffff) (hp : Paired c c') :
    Agree (cdbInit file true c) (cdbInit file false c') := by
  have hm : (dbZero file true).mapped = true := by simpa [dbZero] using hfile
  have hsame : dbZero file false = asMapped (dbZero file true) false := rfl
  obtain ⟨v, d, d', hread, hread', hp', -⟩ :=
    @dbRead_agree (dbZero file true) c c' 4 0 hm hp (by decide)
  unfold cdbInit
  rw [hsame]
  simp only [hread, hread']
  cases v with
  | none => exact ⟨rfl, hm, rfl, hp'⟩
  | some buf => exact ⟨rfl, hm, rfl, hp'⟩

theorem hdbInit_agree {file : List UInt8} (hfile : file.length ≤ 0xffffffff) (hp : Paired c c') :
    HdbAgree (hdbInit file true c) (hdbInit file false c') := by
  have hm : (dbZero file true).mapped = true := by simpa [dbZero] using hfile
  have hsame : dbZero file false = asMapped (dbZero file true) false := rfl
  obtain ⟨v, d, d', hread, hread', hp', -⟩ :=
    @dbRead_agree (dbZero file true) c c' hdbCbase 0 hm hp (by decide)
  unfold hdbInit
  rw [hsame]
  simp only [hread, hread']
  cases v with
  | none => exact ⟨⟨rfl, hm, rfl, hp'⟩, rfl⟩
  | some header =>
    by_cases hid : header.take hdbIdlen ≠ hdb32Ident
    · simp only [if_pos hid]
      exact ⟨⟨rfl, hm, rfl, rfl, hp'.fine.seeks, hp'.fine.reads⟩, rfl⟩
    · simp only [if_neg hid]
      exact ⟨⟨rfl, hm, rfl, hp'⟩, rfl⟩

theorem seen_agree {x y : ℤ × Db × Calls} (h : Agree x y) :
    seen (asMapped · false) x = seen (asMapped · false) y := by
  simp only [seen, h.ret, ← h.db, h.calls.errno]
  rfl

theorem cdbAnswers_agree (qs : List Query) {x y : ℤ × Db × Calls} (h : Agree x y) :
    answers cdbQuery (asMapped · false) x qs = answers cdbQuery (asMapped · false) y qs := by
  induction qs generalizing x y with
  | nil => simp only [answers, seen_agree h]
  | cons q qs ih =>
    have hnext := cdbQuery_agree q h.mapped h.calls
    rw [h.db] at hnext
    rw [answers, answers, seen_agree h, ih hnext]

theorem seen_hdbAgree {x y : ℤ × Hdb × Calls} (h : HdbAgree x y) :
    seen (fun db : Hdb => { db with toDb := asMapped db.toDb false }) x =
      seen (fun db : Hdb => { db with toDb := asMapped db.toDb false }) y := by
  have hret : x.1 = y.1 := h.core.ret
  have herr : x.2.2.errno = y.2.2.errno := h.core.calls.errno
  have hdb : asMapped x.2.1.toDb false = y.2.1.toDb := h.core.db
  simp only [seen, hret, herr, hdb]
  rw [← h.rest, ← hdb]
  rfl

theorem hdbAnswers_agree (qs : List Query) {x y : ℤ × Hdb × Calls} (h : HdbAgree x y) :
    answers hdbQuery (fun db => { db with toDb := asMapped db.toDb false }) x qs =
      answers hdbQuery (fun db => { db with toDb := asMapped db.toDb false }) y qs := by
  induction qs generalizing x y with
  | nil => simp only [answers, seen_hdbAgree h]
  | cons q qs ih =>
    have hdb : { x.2.1 with toDb := asMapped x.2.1.toDb false } = y.2.1 := by
      have hcore : asMapped x.2.1.toDb false = y.2.1.toDb := h.core.db
      rw [hcore]
      exact h.rest
    have hnext := hdbQuery_agree q h.core.mapped hdb h.core.calls
    rw [answers, answers, seen_hdbAgree h, ih hnext]

/-- A read of no bytes: mapped, it fails from the end of the file on. -/
theorem dbRead_none {file : List UInt8} (hfile : file.length ≤ 0xffffffff) (hp : Paired c c')
    (offset : ℕ) :
    dbRead (dbZero file true) c 0 offset =
        (if offset < file.length then (some [], c) else (none, { c with errno := .eproto })) ∧
      (dbRead (dbZero file false) c' 0 offset).1 = some [] ∧
      (dbRead (dbZero file false) c' 0 offset).2.errno = c'.errno := by
  have hm : (dbZero file true).mapped = true := by simpa [dbZero] using hfile
  have hu : (dbZero file false).mapped = false := rfl
  have hseek : c'.seeks.head? ≠ some true := fun h => hp.fine.seeks (List.mem_of_head? h)
  have hf : (dbZero file true).file = file := rfl
  refine ⟨?_, ?_, ?_⟩
  · unfold dbRead
    rw [if_pos hm, hf]
    by_cases hin : offset < file.length
    · rw [if_neg (by omega), if_pos hin]
      simp [slice]
    · rw [if_pos (by omega), if_neg hin]
  · simp [dbRead, hu, hseek, readLoop]
  · simp [dbRead, hu, hseek, readLoop]

end

/-- The two modes agree at a read if and only if it is of some byte, or lies within
the file. Whatever is asked of a reader, they agree. -/
theorem modesAgree_iff {file : List UInt8} (hfile : file.length ≤ 0xffffffff) (offset len : ℕ) :
    ModesAgree file offset len ↔ len ≠ 0 ∨ offset < file.length := by
  constructor
  · intro h
    by_contra hno
    obtain ⟨hlen, hend⟩ := not_or.mp hno
    obtain rfl : len = 0 := not_not.mp hlen
    have hp : Paired ⟨[], [], .none⟩ ⟨[], [], .none⟩ := ⟨rfl, fine_nil⟩
    obtain ⟨hmap, hread, -⟩ := dbRead_none hfile hp offset
    have hsame := (h.read _ _ hp).1
    rw [hmap, if_neg hend, hread] at hsame
    exact absurd hsame (by simp)
  · intro h
    refine ⟨fun c c' hp => ?_, fun c c' hp qs => cdbAnswers_agree qs (cdbInit_agree hfile hp),
      fun c c' hp qs => hdbAnswers_agree qs (hdbInit_agree hfile hp)⟩
    have hm : (dbZero file true).mapped = true := by simpa [dbZero] using hfile
    by_cases h0 : len = 0
    · subst h0
      obtain ⟨hmap, hread, herr⟩ := dbRead_none hfile hp offset
      have hin := h.resolve_left (not_not_intro rfl)
      simp only
      rw [hmap, if_pos hin, hread, herr]
      exact ⟨rfl, hp.errno, fun buf hbuf => by simpa [slice] using hbuf.symm⟩
    · obtain ⟨v, d, d', hread, hread', hp', hslice⟩ :=
        dbRead_agree offset hm hp (Nat.pos_of_ne_zero h0)
      have hsame : dbZero file false = asMapped (dbZero file true) false := rfl
      simp only
      rw [hread, hsame, hread']
      exact ⟨rfl, hp'.errno, hslice⟩

theorem modesAgree_iff_byte : ModesAgree [7] 0 1 ↔ 1 ≠ 0 ∨ 0 < [(7 : UInt8)].length :=
  modesAgree_iff (by decide) 0 1

/-- No bytes at the end of a file: 0 from `read()`, and -1 from the map. -/
theorem modes_differ : ¬ ModesAgree [7] 1 0 := by
  intro h
  have hsame := (h.read ⟨[], [], .none⟩ ⟨[], [], .none⟩ ⟨rfl, fine_nil⟩).1
  exact absurd hsame (by decide)

end Perp.HashModes
