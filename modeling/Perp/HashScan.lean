import Perp.IoqStream
import Perp.HashIterate

set_option autoImplicit false

/-!
# The end of a scan

`seqinit` and `seqnext` on any file that `init` accepts: where the offsets of the
records go, and when they come to an end.
-/
namespace Perp.HashScan
open Pkt ByteImage HashFile CdbFormat HdbFormat HashImage HdbExact
open IoqGet (readOnce)
open IoqStream (readOnce_cases)

/-! ## Reads that succeed -/

section read
variable {db : Db} {c c' : Calls} {buf data rest : List UInt8} {off len fuel : ℕ}

theorem readLoop_some (h : readLoop fuel rest len c = (some data, c')) (hfuel : len ≤ fuel) :
    len ≤ rest.length ∧ data = rest.take len := by
  induction fuel generalizing rest len c data with
  | zero =>
    obtain rfl : len = 0 := Nat.le_zero.mp hfuel
    simp only [readLoop, Prod.mk.injEq, Option.some.injEq] at h
    exact ⟨Nat.zero_le _, by simp [← h.1]⟩
  | succ fuel ih =>
    unfold readLoop at h
    by_cases h0 : len = 0
    · rw [if_pos h0, Prod.mk.injEq, Option.some.injEq] at h
      subst h0
      exact ⟨Nat.zero_le _, by simp [← h.1]⟩
    · rw [if_neg h0] at h
      obtain ⟨left, -, ⟨-, hread⟩ | ⟨m, hm, hml, hread⟩⟩ :=
        readOnce_cases rest c.reads (Nat.pos_of_ne_zero h0)
      · simp [hread] at h
      · by_cases hnil : rest.take m = []
        · simp [hread, hnil] at h
        · simp only [hread, if_neg hnil, Prod.mk.injEq] at h
          obtain ⟨d, hd, rfl⟩ := Option.map_eq_some_iff.mp h.1
          have hpos := List.length_pos_iff.mpr hnil
          obtain ⟨hle, rfl⟩ := ih (Prod.ext hd h.2) (by omega)
          rw [List.length_take] at hpos
          rw [List.length_take, List.length_drop] at hle
          refine ⟨by omega, ?_⟩
          have hlen : (rest.take m).length = m := by
            rw [List.length_take]
            omega
          rw [hlen, ← List.take_add]
          congr 1
          omega

/-- Whatever the system calls do, what `cdb_read()` returns is there. -/
theorem dbRead_some (h : dbRead db c len off = (some buf, c')) (hpos : 0 < len) :
    off + len ≤ db.file.length ∧ buf = slice db.file off len := by
  unfold dbRead at h
  by_cases hmap : db.mapped = true
  · rw [if_pos hmap] at h
    by_cases hout : off ≥ db.file.length ∨ db.file.length - off < len
    · simp [if_pos hout] at h
    · rw [if_neg hout, Prod.mk.injEq, Option.some.injEq] at h
      exact ⟨by omega, h.1.symm⟩
  · rw [if_neg hmap] at h
    by_cases hseek : c.seeks.head? = some true
    · simp [if_pos hseek] at h
    · rw [if_neg hseek] at h
      obtain ⟨hle, hbuf⟩ := readLoop_some h (Nat.le_refl _)
      rw [List.length_drop] at hle
      exact ⟨by omega, hbuf⟩

end read

/-! ## The offsets of a file -/

section offsets
variable (F : Format) (file : List UInt8)

def klenAt (r : ℕ) : ℕ := F.unpack (slice file r F.hdr)

def dlenAt (r : ℕ) : ℕ := F.unpack ((slice file r F.hdr).drop F.width)

/-- What `cdb_seqnext()` adds to the offset of the record at `r`. -/
def stride (r : ℕ) : ℕ := (klenAt F file r + dlenAt F file r + F.hdr) % 2 ^ 32

/-- The records that a scan from `start` comes to, when their headers can be read. -/
inductive Met (hbase start : ℕ) : ℕ → Prop
  | first (hlt : start < hbase) (hin : start + F.hdr ≤ file.length) : Met hbase start start
  | next {r n : ℕ} (hmet : Met hbase start r) (hn : n = (r + stride F file r) % 2 ^ 32)
      (hlt : n < hbase) (hin : n + F.hdr ≤ file.length) : Met hbase start n

/-- The lengths in every header that is met lead on: their sum in 32 bits is not 0 and
does not reach beyond the offsets. -/
def Forward (hbase start : ℕ) : Prop :=
  ∀ r, Met F file hbase start r → 0 < stride F file r ∧ r + stride F file r < 2 ^ 32

def onHeader (db : Db) (r : ℕ) : Db :=
  { db with rpos := r, klen := klenAt F file r, dlen := dlenAt F file r }

/-- The cursors are on a record of the file. -/
structure Stands (hbase : ℕ) (db : Db) : Prop where
  klen : db.klen = klenAt F file db.rpos
  dlen : db.dlen = dlenAt F file db.rpos
  hbase : db.hbase = hbase
  file : db.file = file

end offsets

/-- After the call with the result `r` the calls of `next` come to a return of 0 or
-1, and each before it has a greater offset than the last. -/
structure Ends {δ : Type} (next : δ → Calls → ℤ × δ × Calls) (rpos : δ → ℕ)
    (r : ℤ × δ × Calls) : Prop where
  stops : ∃ n, (visits next rpos n r).2 = 0 ∨ (visits next rpos n r).2 = -1
  increasing : ∀ n, (visits next rpos n r).1.Pairwise (· < ·)

variable {F : Format} {file : List UInt8} {hbase start : ℕ} {db : Db} {c : Calls} {r : ℕ}

theorem Met.lt (h : Met F file hbase start r) : r < hbase := by
  cases h with
  | first hlt => exact hlt
  | next _ _ hlt => exact hlt

theorem Met.inside (h : Met F file hbase start r) : r + F.hdr ≤ file.length := by
  cases h with
  | first _ hin => exact hin
  | next _ _ _ hin => exact hin

/-- A scan that comes to some record comes to the first. -/
theorem Met.start_inside (h : Met F file hbase start r) : start + F.hdr ≤ file.length := by
  induction h with
  | first _ hin => exact hin
  | next _ _ _ _ ih => exact ih

theorem stride_lt : stride F file r < 2 ^ 32 := Nat.mod_lt _ (by decide)

theorem stands_onHeader (hfile : db.file = file) (hb : db.hbase = hbase) :
    Stands F file hbase (onHeader F file db r) := ⟨rfl, rfl, hb, hfile⟩

/-- `cdb_seq_()` leaves everything as it is, or comes to a record. -/
theorem seqAt_cases (db : Db) (c : Calls) (r : ℕ) :
    (∃ ret c', (ret = 0 ∨ ret = -1) ∧ seqAt F db c r = (ret, db, c')) ∨
      (r < db.hbase ∧ r + F.hdr ≤ db.file.length ∧
        ∃ c', seqAt F db c r = (1, onHeader F db.file db r, c')) := by
  unfold seqAt
  by_cases hlt : r < db.hbase
  · rw [if_neg (not_not.mpr hlt)]
    cases hread : dbRead db c F.hdr r with
    | mk buf c' =>
      cases buf with
      | none => exact .inl ⟨-1, c', .inr rfl, rfl⟩
      | some buf =>
        obtain ⟨hin, rfl⟩ := dbRead_some hread hdr_pos
        exact .inr ⟨hlt, hin, c', rfl⟩
  · exact .inl ⟨0, c, .inl rfl, if_pos hlt⟩

theorem seqAt_met (hc : Fine c) (hlt : r < db.hbase) (hin : r + F.hdr ≤ db.file.length) :
    ∃ c', Fine c' ∧ seqAt F db c r = (1, onHeader F db.file db r, c') := by
  obtain ⟨hat, hlen⟩ := slice_at hin
  obtain ⟨c', hread, hc'⟩ := dbRead_spec hc hat hlen hdr_pos
  refine ⟨c', hc', ?_⟩
  unfold seqAt
  rw [if_neg (not_not.mpr hlt), hread]
  rfl

theorem Stands.seqnext (hs : Stands F file hbase db) (c : Calls) :
    seqnext F db c = seqAt F db c ((db.rpos + stride F file db.rpos) % 2 ^ 32) := by
  rw [HashFile.seqnext, hs.klen, hs.dlen, stride, Nat.add_mod_mod]

theorem visits_one {δ γ : Type} (next : δ → Calls → ℤ × δ × Calls) (cursor : δ → γ) (n : ℕ) (d : δ)
    (c : Calls) : visits next cursor (n + 1) (1, d, c) =
      (cursor d :: (visits next cursor n (next d c)).1, (visits next cursor n (next d c)).2) := rfl

theorem visits_stopped {δ γ : Type} {next : δ → Calls → ℤ × δ × Calls} {cursor : δ → γ}
    {r : ℤ × δ × Calls} (h : r.1 ≠ 1) (n : ℕ) : visits next cursor n r = ([], r.1) := by
  cases n with
  | zero => rfl
  | succ n => exact if_neg h

/-- Over a file whose headers lead on the offsets grow, and there is an end of them. -/
theorem visits_forward (hfw : Forward F file hbase start) (hs : Stands F file hbase db)
    (hmet : Met F file hbase start db.rpos) (c : Calls) (n : ℕ) :
    (visits (seqnext F) Db.rpos n (1, db, c)).1.Pairwise (· < ·) ∧
      (∀ x ∈ (visits (seqnext F) Db.rpos n (1, db, c)).1, db.rpos ≤ x) ∧
      (hbase ≤ db.rpos + n → (visits (seqnext F) Db.rpos n (1, db, c)).2 = 0 ∨
        (visits (seqnext F) Db.rpos n (1, db, c)).2 = -1) := by
  induction n generalizing db c with
  | zero =>
    have hlt := hmet.lt
    exact ⟨List.Pairwise.nil, by simp [visits], fun hend => by omega⟩
  | succ n ih =>
    obtain ⟨hpos, hfits⟩ := hfw _ hmet
    rw [visits_one, hs.seqnext, Nat.mod_eq_of_lt hfits]
    obtain ⟨ret, c', hret, hres⟩ | ⟨hlt, hin, c', hres⟩ :=
      @seqAt_cases F db c (db.rpos + stride F file db.rpos)
    · rw [hres, visits_stopped (by simp only; omega)]
      exact ⟨List.pairwise_singleton _ _, by simp, fun _ => hret⟩
    · rw [hs.hbase] at hlt
      rw [hs.file] at hin hres
      rw [hres]
      obtain ⟨hinc, hge, hstop⟩ := ih (stands_onHeader hs.file hs.hbase)
        (hmet.next (Nat.mod_eq_of_lt hfits).symm hlt hin) c'
      have hrpos : (onHeader F file db (db.rpos + stride F file db.rpos)).rpos =
          db.rpos + stride F file db.rpos := rfl
      rw [hrpos] at hge hstop
      refine ⟨List.pairwise_cons.mpr ⟨fun x hx => ?_, hinc⟩, fun x hx => ?_, fun hend => ?_⟩
      · have := hge x hx
        omega
      · rcases List.mem_cons.mp hx with rfl | hx
        · exact Nat.le_refl _
        · have := hge x hx
          omega
      · exact hstop (by omega)

theorem ends_of_forward (hfw : Forward F db.file db.hbase start) (c : Calls) :
    Ends (seqnext F) Db.rpos (seqAt F db c start) := by
  obtain ⟨ret, c', hret, hres⟩ | ⟨hlt, hin, c', hres⟩ := @seqAt_cases F db c start
  · rw [hres]
    have hne : ret ≠ 1 := by omega
    refine ⟨⟨0, hret⟩, fun n => ?_⟩
    rw [visits_stopped hne]
    exact List.Pairwise.nil
  · rw [hres]
    have hall := visits_forward hfw (stands_onHeader rfl rfl) (Met.first hlt hin) c'
    exact ⟨⟨db.hbase, (hall db.hbase).2.2 (Nat.le_add_left _ _)⟩, fun n => (hall n).1⟩

/-- When nothing fails the scan comes to every record that is met. -/
theorem met_visited (hmet : Met F db.file db.hbase start r) (hc : Fine c) :
    ∃ before db' c', Stands F db.file db.hbase db' ∧ db'.rpos = r ∧ Fine c' ∧
      ∀ n, (visits (seqnext F) Db.rpos (before.length + n) (seqAt F db c start)).1 =
        before ++ (visits (seqnext F) Db.rpos n (1, db', c')).1 := by
  induction hmet with
  | first hlt hin =>
    obtain ⟨c', hc', hres⟩ := seqAt_met hc hlt hin
    refine ⟨[], _, c', stands_onHeader rfl rfl, rfl, hc', fun n => ?_⟩
    rw [hres, List.length_nil, Nat.zero_add, List.nil_append]
  | @next r n hmet hn hlt hin ih =>
    obtain ⟨before, db', c', hs, rfl, hc', hbefore⟩ := ih
    obtain ⟨c'', hc'', hres⟩ := @seqAt_met F db' c' n hc' (hs.hbase ▸ hlt) (hs.file ▸ hin)
    refine ⟨before ++ [db'.rpos], _, c'', stands_onHeader hs.file hs.hbase, rfl, hc'', fun k => ?_⟩
    have hnext := hbefore (k + 1)
    rw [visits_one, hs.seqnext, ← hn, hres, hs.file] at hnext
    rw [List.length_append, List.length_singleton, Nat.add_assoc, Nat.add_comm 1, hnext,
      List.append_assoc]
    rfl

/-- Where a header does not lead on, the scan goes back to a record or stays at it. -/
theorem forward_of_ends (hb : db.hbase < 2 ^ 32) (hc : Fine c)
    (hends : Ends (seqnext F) Db.rpos (seqAt F db c start)) : Forward F db.file db.hbase start := by
  intro r hmet
  have hlt := hmet.lt
  have hin := hmet.inside
  have hstride := @stride_lt F db.file r
  by_contra hback
  -- the next offset is no greater, so its header can be read as this one
  have hnext : (r + stride F db.file r) % 2 ^ 32 ≤ r := by omega
  obtain ⟨before, db', c', hs, rfl, hc', hbefore⟩ := met_visited hmet hc
  obtain ⟨c'', -, hres⟩ := @seqAt_met F db' c' ((db'.rpos + stride F db.file db'.rpos) % 2 ^ 32) hc'
    (by rw [hs.hbase]; omega) (by rw [hs.file]; omega)
  have htwo := hbefore 2
  rw [visits_one, hs.seqnext, hres, visits_one] at htwo
  have hinc := hends.increasing (before.length + 2)
  rw [htwo] at hinc
  have hpair := (List.pairwise_append.mp hinc).2.1
  have hless : db'.rpos < (db'.rpos + stride F db.file db'.rpos) % 2 ^ 32 :=
    (List.pairwise_cons.mp hpair).1 _ List.mem_cons_self
  omega

/-! ## The two formats -/

/-- A scan of the file by `cdb_seqinit()` and `cdb_seqnext()` ends, however its system
calls go. -/
def CdbScans (file : List UInt8) (mmaps : Bool) : Prop :=
  ∀ c, (cdbInit file mmaps c).1 = 0 →
    Ends cdbSeqnext (fun db => db.rpos)
      (cdbSeqinit (cdbInit file mmaps c).2.1 (cdbInit file mmaps c).2.2)

/-- A scan of the file by `hdb_seqinit()` and `hdb_seqnext()` ends, however its system
calls go. -/
def HdbScans (file : List UInt8) (mmaps : Bool) : Prop :=
  ∀ c, (hdbInit file mmaps c).1 = 0 →
    Ends hdbSeqnext (fun db => db.rpos)
      (hdbSeqinit (hdbInit file mmaps c).2.1 (hdbInit file mmaps c).2.2)

def cdbOpened (file : List UInt8) (mmaps : Bool) : Db :=
  { dbZero file mmaps with hbase := unpack32 (slice file 0 4) }

def hdbOpened (file : List UInt8) (mmaps : Bool) : Hdb :=
  loadHeader ⟨dbZero file mmaps, 0, List.replicate hdbNtabs ⟨0, 0⟩, 0, 0⟩ (slice file 0 hdbCbase)

def HdbAccepts (file : List UInt8) : Prop :=
  hdbCbase ≤ file.length ∧ file.take hdbIdlen = hdb32Ident

theorem unpack32_lt (b : List UInt8) : unpack32 b < 2 ^ 32 := (upak32Unpack b).toNat_lt

theorem cdbInit_ok {mmaps : Bool} (h : (cdbInit file mmaps c).1 = 0) :
    (cdbInit file mmaps c).2.1 = cdbOpened file mmaps := by
  unfold cdbInit at h ⊢
  cases hread : dbRead (dbZero file mmaps) c 4 0 with
  | mk buf c' =>
    cases buf with
    | none => simp [hread] at h
    | some buf =>
      obtain ⟨-, rfl⟩ := dbRead_some hread (by decide)
      simp only [hread]
      rfl

theorem cdbInit_fine (mmaps : Bool) (hc : Fine c) (hin : 4 ≤ file.length) :
    (cdbInit file mmaps c).1 = 0 ∧ Fine (cdbInit file mmaps c).2.2 := by
  obtain ⟨hat, hlen⟩ := @slice_at file 0 4 (by omega)
  obtain ⟨c', hread, hc'⟩ := @dbRead_spec (dbZero file mmaps) c _ 0 4 hc hat hlen (by decide)
  unfold cdbInit
  simp only [hread]
  exact ⟨trivial, hc'⟩

theorem take_slice (file : List UInt8) :
    (slice file 0 hdbCbase).take hdbIdlen = file.take hdbIdlen := by
  have hmin : min hdbIdlen hdbCbase = hdbIdlen := rfl
  rw [slice, List.drop_zero, List.take_take, hmin]

theorem hdbInit_ok {mmaps : Bool} (h : (hdbInit file mmaps c).1 = 0) :
    HdbAccepts file ∧ (hdbInit file mmaps c).2.1 = hdbOpened file mmaps := by
  unfold hdbInit at h ⊢
  cases hread : dbRead (dbZero file mmaps) c hdbCbase 0 with
  | mk buf c' =>
    cases buf with
    | none => simp [hread] at h
    | some buf =>
      obtain ⟨hin, rfl⟩ := dbRead_some hread (by decide)
      rw [Nat.zero_add] at hin
      have hhead : (slice (dbZero file mmaps).file 0 hdbCbase).take hdbIdlen =
          file.take hdbIdlen := take_slice file
      simp only [hread, hhead] at h ⊢
      by_cases hid : file.take hdbIdlen = hdb32Ident
      · refine ⟨⟨hin, hid⟩, ?_⟩
        rw [if_neg (not_not.mpr hid)]
        rfl
      · rw [if_pos hid] at h
        simp at h

theorem hdbInit_fine (mmaps : Bool) (hc : Fine c) (hacc : HdbAccepts file) :
    (hdbInit file mmaps c).1 = 0 ∧ Fine (hdbInit file mmaps c).2.2 := by
  obtain ⟨hat, hlen⟩ := @slice_at file 0 hdbCbase (by rw [Nat.zero_add]; exact hacc.1)
  obtain ⟨c', hread, hc'⟩ :=
    @dbRead_spec (dbZero file mmaps) c _ 0 hdbCbase hc hat hlen (by decide)
  have hident := (take_slice file).trans hacc.2
  unfold hdbInit
  simp only [hread, hident, ne_eq, not_true_eq_false, if_false]
  exact ⟨trivial, hc'⟩

/-- What a scan of an hdb comes to is what its `Db` comes to. -/
theorem ends_ofDb (db : Hdb) (r : ℤ × Db × Calls) :
    Ends hdbSeqnext (fun db => db.rpos) (ofDb db r) ↔ Ends (seqnext hdbFormat) Db.rpos r := by
  have hvisits := fun n => @visits_ofDb _ _ hdbSeqnext (fun _ _ => rfl) Db.rpos db n r
  constructor
  · rintro ⟨⟨n, hstop⟩, hinc⟩
    exact ⟨⟨n, hvisits n ▸ hstop⟩, fun n => hvisits n ▸ hinc n⟩
  · rintro ⟨⟨n, hstop⟩, hinc⟩
    exact ⟨⟨n, (hvisits n).symm ▸ hstop⟩, fun n => (hvisits n).symm ▸ hinc n⟩

theorem cdbScans_iff (file : List UInt8) (mmaps : Bool) :
    CdbScans file mmaps ↔ Forward cdbFormat file (unpack32 (slice file 0 4)) (256 * 8) := by
  constructor
  · intro hscan r hmet
    have hin := hmet.start_inside
    obtain ⟨hok, hc'⟩ := cdbInit_fine mmaps fine_nil (by omega : 4 ≤ file.length)
    have hends := hscan _ hok
    rw [cdbInit_ok hok] at hends
    exact @forward_of_ends cdbFormat _ (cdbOpened file mmaps) _ (unpack32_lt _) hc' hends r hmet
  · intro hfw c hok
    rw [cdbInit_ok hok]
    exact @ends_of_forward cdbFormat (256 * 8) (cdbOpened file mmaps) hfw _

theorem hdbScans_iff (file : List UInt8) (mmaps : Bool) :
    HdbScans file mmaps ↔ (HdbAccepts file →
      Forward hdbFormat file (hdbOpened file mmaps).hbase (hdbOpened file mmaps).rbase) := by
  have hbase : (hdbOpened file mmaps).hbase < 2 ^ 32 := unpack32_lt _
  constructor
  · intro hscan hacc
    obtain ⟨hok, hc'⟩ := hdbInit_fine mmaps fine_nil hacc
    have hends := hscan _ hok
    rw [(hdbInit_ok hok).2] at hends
    exact @forward_of_ends hdbFormat _ (hdbOpened file mmaps).toDb _ hbase hc'
      ((ends_ofDb _ _).mp hends)
  · intro hfw c hok
    obtain ⟨hacc, hopened⟩ := hdbInit_ok hok
    rw [hopened]
    exact (ends_ofDb _ _).mpr
      (@ends_of_forward hdbFormat _ (hdbOpened file mmaps).toDb (hfw hacc) _)

/-- A scan of a file that is accepted ends, with offsets that grow, just when every
header that it meets leads on. -/
theorem scan_ends_iff (file : List UInt8) (mmaps : Bool) :
    (CdbScans file mmaps ↔ Forward cdbFormat file (unpack32 (slice file 0 4)) (256 * 8)) ∧
      (HdbScans file mmaps ↔ (HdbAccepts file →
        Forward hdbFormat file (hdbOpened file mmaps).hbase (hdbOpened file mmaps).rbase)) :=
  ⟨cdbScans_iff file mmaps, hdbScans_iff file mmaps⟩

/-! ## Short files -/

theorem unpack24_lt (b : List UInt8) : unpack24 b < 2 ^ 24 := by
  have h0 := (byteAt b 0).toNat_lt
  have h1 := (byteAt b 1).toNat_lt
  have h2 := (byteAt b 2).toNat_lt
  simp [unpack24, upak24Unpack, Nat.shiftLeft_eq]
  omega

/-- The lengths of an hdb are too short to reach beyond the offsets from a file that
ends well below them. -/
theorem hdb_forward {file : List UInt8} (hlen : file.length ≤ 2 ^ 32 - 2 ^ 25) (hbase start : ℕ) :
    Forward hdbFormat file hbase start := by
  intro r hmet
  have hin := hmet.inside
  have hhdr : hdbFormat.hdr = 6 := rfl
  have hk : klenAt hdbFormat file r < 2 ^ 24 := unpack24_lt _
  have hd : dlenAt hdbFormat file r < 2 ^ 24 := unpack24_lt _
  rw [hhdr] at hin
  rw [stride, hhdr, Nat.mod_eq_of_lt (by omega)]
  omega

theorem hdbScans_of_short {file : List UInt8} (hlen : file.length ≤ 2 ^ 32 - 2 ^ 25) (mmaps : Bool) :
    HdbScans file mmaps := (hdbScans_iff file mmaps).mpr fun _ => hdb_forward hlen _ _

/-! ## A file without end -/

/-- A record whose lengths add up to nothing in 32 bits -/
def loopFile : List UInt8 :=
  pack32 2056 ++ List.replicate 2044 0 ++ pack32 0xfffffff8 ++ pack32 0

def loopDb (mmaps : Bool) : Db :=
  { dbZero loopFile mmaps with hbase := 2056, rpos := 2048, klen := 0xfffffff8 }

theorem loopDb_next : ∀ mmaps, (cdbInit loopFile mmaps ⟨[], [], .none⟩).1 = 0 ∧
    cdbSeqinit (cdbInit loopFile mmaps ⟨[], [], .none⟩).2.1
      (cdbInit loopFile mmaps ⟨[], [], .none⟩).2.2 = (1, loopDb mmaps, ⟨[], [], .none⟩) ∧
    cdbSeqnext (loopDb mmaps) ⟨[], [], .none⟩ = (1, loopDb mmaps, ⟨[], [], .none⟩) := by
  decide +kernel

/-- `cdb_seqnext()` returns 1 for one record again and again. -/
theorem scan_without_end :
    (∀ mmaps n, (cdbInit loopFile mmaps ⟨[], [], .none⟩).1 = 0 ∧
      visits cdbSeqnext (fun db => db.rpos) n
        (cdbSeqinit (cdbInit loopFile mmaps ⟨[], [], .none⟩).2.1
          (cdbInit loopFile mmaps ⟨[], [], .none⟩).2.2) = (List.replicate n 2048, 1)) ∧
      ∀ mmaps, ¬ CdbScans loopFile mmaps := by
  have hvisits : ∀ mmaps n, visits cdbSeqnext (fun db => db.rpos) n
      (1, loopDb mmaps, ⟨[], [], .none⟩) = (List.replicate n 2048, 1) := by
    intro mmaps n
    induction n with
    | zero => rfl
    | succ n ih =>
      rw [visits_one, (loopDb_next mmaps).2.2, ih]
      rfl
  have hall : ∀ mmaps n, (cdbInit loopFile mmaps ⟨[], [], .none⟩).1 = 0 ∧
      visits cdbSeqnext (fun db => db.rpos) n
        (cdbSeqinit (cdbInit loopFile mmaps ⟨[], [], .none⟩).2.1
          (cdbInit loopFile mmaps ⟨[], [], .none⟩).2.2) = (List.replicate n 2048, 1) := by
    intro mmaps n
    obtain ⟨hinit, hseq, -⟩ := loopDb_next mmaps
    exact ⟨hinit, hseq ▸ hvisits mmaps n⟩
  refine ⟨hall, fun mmaps hscan => ?_⟩
  obtain ⟨n, hstop⟩ := (hscan _ (hall mmaps 0).1).stops
  rw [(hall mmaps n).2] at hstop
  omega

end Perp.HashScan
