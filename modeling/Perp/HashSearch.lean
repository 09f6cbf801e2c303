import Perp.HashImage

set_option autoImplicit false

/-!
# Searching a database

What `find` and `findnext` visit in a database file, and what `seqinit` and
`seqnext` do.
-/
namespace Perp.HashSearch
open Pkt ByteImage HashFile OpenTable HashImage

variable (F : Format)

/-- Whether a search for `key` stops at the record: the hash is compared, and the
key piece by piece. -/
def hit (key : List UInt8) (p : ℕ × Rec) : Bool :=
  hashOf F p = F.hash key && p.2.1 = repeated key key.length

/-- A search for `key` has been initialized. -/
structure Seeking (db : Db) (key : List UInt8) : Prop where
  klen : db.klen = key.length
  h : db.h = F.hash key
  sought : db.key = key

variable {F} {db : Db} {c : Calls} {key : List UInt8} {p : ℕ × Rec}

theorem slotMatch_spec (hc : Fine c) (hs : Seeking F db key) (hat : At db.file p.1 (record F p.2))
    (hkey : p.2.1.length ≤ F.lmax) (hdata : p.2.2.length ≤ F.lmax)
    (hend : p.1 + size F p.2 < 2 ^ 32) :
    ∃ d c', slotMatch F db c (hashOf F p) p.1 = (if hit F key p then 1 else 0, d, c') ∧
      (hit F key p = true → d = p.2.2.length) ∧ Fine c' := by
  unfold slotMatch
  by_cases hhash : hashOf F p = db.h
  · rw [if_neg (not_not.mpr hhash)]
    obtain ⟨hheader, hrkey, -⟩ := record_at hat
    obtain ⟨c1, hread, hc1⟩ := dbRead_spec hc hheader (header_length _) hdr_pos
    simp only [hread, header_klen hkey, header_dlen hdata]
    by_cases hlen : p.2.1.length = db.klen
    · rw [if_neg (not_not.mpr hlen)]
      unfold size at hend
      have hmod : (p.1 + F.hdr) % 2 ^ 32 = p.1 + F.hdr := Nat.mod_eq_of_lt (by omega)
      obtain ⟨c2, hmatch, hc2⟩ := keyMatch_spec hc1 hrkey hlen (Nat.le_refl _)
        (Nat.le_of_eq (hs.klen.trans (congrArg _ hs.sought.symm))) (by omega)
      refine ⟨_, c2, ?_, fun _ => rfl, hc2⟩
      rw [hmod, hmatch, hs.sought, hs.klen]
      simp [hit, hhash, hs.h]
    · refine ⟨0, c1, ?_, ?_, hc1⟩
      · rw [if_pos hlen]
        have hmiss : hit F key p = false := by
          simp only [hit, Bool.and_eq_false_iff, decide_eq_false_iff_not]
          refine .inr fun heq => hlen ?_
          rw [heq, repeated_length, hs.klen]
        rw [hmiss]
        rfl
      · intro hhit
        simp only [hit, Bool.and_eq_true, decide_eq_true_eq] at hhit
        rw [hhit.2, repeated_length, hs.klen] at hlen
        exact absurd rfl hlen
  · rw [hs.h] at hhash
    refine ⟨0, c, ?_, ?_, hc⟩
    · rw [hs.h, if_pos hhash]
      simp [hit, hhash]
    · simp [hit, hhash]

variable {file : List UInt8} {rbase : ℕ} {recs : List Rec} {tbase : ℕ → ℕ}
  {tbl : ℕ → ℕ → Option (ℕ × Rec)}

/-- The subtable of a key -/
abbrev tabOf (F : Format) (key : List UInt8) : ℕ := F.ntab (F.hash key)

/-- The search stands at the subtable of its key. -/
structure Located (F : Format) (file : List UInt8) (rbase : ℕ) (recs : List Rec) (tbase : ℕ → ℕ)
    (db : Db) (key : List UInt8) : Prop extends Seeking F db key where
  file : db.file = file
  tbase : db.tbase = tbase (tabOf F key)
  tslots : db.tslots = tslotsOf F rbase recs (tabOf F key)

/-- Where the data of a record is, and how much of it -/
def dataOf (F : Format) (p : ℕ × Rec) : ℕ × ℕ := (p.1 + F.hdr + p.2.1.length, p.2.2.length)

/-- `dpos` and `dlen` -/
def dataCursor (F : Format) (db : Db) : ℕ × ℕ := (db.dpos F, db.dlen)

/-- The records that a search for `key` stops at, of those before a gap -/
def hitsFrom (F : Format) (T : ℕ) (tab : ℕ → Option (ℕ × Rec)) (key : List UInt8) (g t : ℕ) :
    List (ℕ × Rec) := (walk T tab g t).filter (hit F key)

/-- A probe stops at the first hit before the gap, with what is needed to go on. -/
theorem hashProbe_spec (him : Image F file rbase recs tbase tbl)
    (hl : Located F file rbase recs tbase db key) {T : ℕ} {tab : ℕ → Option (ℕ × Rec)}
    (hT : T = tslotsOf F rbase recs (tabOf F key)) (htab : tab = tbl (tabOf F key))
    {fuel t g : ℕ} (hgap : Gap T tab t g) (hclear : Clear T db.s0 t g) (ht : t < T)
    (hfuel : g < fuel) (hc : Fine c) :
    ∃ c', Fine c' ∧
      ((hashProbe F db fuel t c = (0, db, c') ∧ hitsFrom F T tab key g t = []) ∨
        ∃ t' g' p, t' < T ∧ Gap T tab (next T t') g' ∧ Clear T db.s0 (next T t') g' ∧ g' < g ∧
          next T t' ≠ db.s0 ∧ p ∈ layout F rbase recs ∧ hit F key p = true ∧
          hashProbe F db fuel t c =
            (1, { db with sN := t', rpos := p.1, dlen := p.2.2.length }, c') ∧
          hitsFrom F T tab key g t = p :: hitsFrom F T tab key g' (next T t')) := by
  have hi : tabOf F key < F.ntabs := F.ntab_lt _
  induction fuel generalizing t g c with
  | zero => omega
  | succ fuel ih =>
    have hcell := him.slots _ hi t (hT ▸ ht)
    have htend := him.tend_lt _ hi
    have hmod : (db.tbase + t * 8) % 2 ^ 32 = tbase (tabOf F key) + 8 * t := by
      rw [hl.tbase, Nat.mul_comm t, Nat.mod_eq_of_lt (by omega)]
    rw [← hl.file, ← htab] at hcell
    obtain ⟨c1, hread, hc1⟩ := dbRead_spec hc hcell (cell_length F _) (by decide)
    unfold hashProbe
    rw [if_pos (by rw [hl.tslots, ← hT]; exact ht), hmod, hread]
    have hslot : tab ((t + 0) % T) = tab t := by rw [Nat.add_zero, Nat.mod_eq_of_lt ht]
    cases g with
    | zero =>
      have hnone : tab t = none := hslot ▸ hgap.empty
      refine ⟨c1, hc1, .inl ⟨?_, rfl⟩⟩
      simp only [hnone, cell_none_rpos, if_true]
    | succ g =>
      obtain ⟨p, hp⟩ := Option.ne_none_iff_exists'.mp (hslot ▸ hgap.full 0 (Nat.succ_pos g))
      have hmem : p ∈ layout F rbase recs :=
        (List.mem_filter.mp ((him.loaded _ hi).mem t p (hT ▸ ht) (htab ▸ hp))).1
      have hlt := him.layout_lt hmem
      have hpos := him.layout_pos hmem
      have hlens := him.lengths _ (layout_mem hmem)
      obtain ⟨d, c2, hmatch, hd, hc2⟩ := slotMatch_spec hc1 hl.toSeeking
        (hl.file ▸ layout_at him.records hmem) hlens.1 hlens.2 hlt
      have hwalk : hitsFrom F T tab key (g + 1) t =
          if hit F key p then p :: hitsFrom F T tab key g (next T t)
          else hitsFrom F T tab key g (next T t) := by
        simp only [hitsFrom, walk, hp, List.filter_cons]
      have hne := hclear.next_ne ht
      have hnext : (if t + 1 = db.tslots then 0 else t + 1) = next T t := by
        rw [hl.tslots, ← hT]
        rfl
      simp only [hp, cell_some_rpos (by omega : p.1 < 2 ^ 32), cell_some_hash, hmatch, hnext,
        if_neg (Nat.pos_iff_ne_zero.mp hpos), hwalk]
      by_cases hhit : hit F key p = true
      · refine ⟨c2, hc2, .inr ⟨t, g, p, ht, hgap.tail, hclear.tail, Nat.lt_succ_self g, hne, hmem,
          hhit, ?_, ?_⟩⟩
        · simp [hhit, hd hhit]
        · rw [if_pos hhit]
      · obtain ⟨c', hc', hrest⟩ := ih hgap.tail hclear.tail (next_lt ht) (by omega) hc2
        refine ⟨c', hc', ?_⟩
        simp only [if_neg hhit, if_neg hne]
        rcases hrest with hrest | ⟨t', g', p', h1, h2, h3, h4, hrest⟩
        · exact .inl hrest
        · exact .inr ⟨t', g', p', h1, h2, h3, by omega, hrest⟩

theorem dataCursor_hit (him : Image F file rbase recs tbase tbl) (hs : Seeking F db key)
    (hp : p ∈ layout F rbase recs) (hhit : hit F key p = true) (sN : ℕ) :
    dataCursor F { db with sN := sN, rpos := p.1, dlen := p.2.2.length } = dataOf F p := by
  have hlt := him.layout_lt hp
  simp only [hit, Bool.and_eq_true, decide_eq_true_eq] at hhit
  have hklen : db.klen = p.2.1.length := by rw [hs.klen, hhit.2, repeated_length]
  unfold size at hlt
  simp only [dataCursor, Db.dpos, dataOf, hklen]
  rw [Nat.mod_eq_of_lt (by omega)]

/-- A probe and the calls of `cdb_findnext()` after it visit the hits before the
gap. -/
theorem visits_hashProbe (him : Image F file rbase recs tbase tbl)
    (hl : Located F file rbase recs tbase db key) {T : ℕ} {tab : ℕ → Option (ℕ × Rec)}
    (hT : T = tslotsOf F rbase recs (tabOf F key)) (htab : tab = tbl (tabOf F key))
    {fuel n t g : ℕ} (hgap : Gap T tab t g) (hclear : Clear T db.s0 t g) (ht : t < T)
    (hfuel : g < fuel) (hg : g < T) (hn : (hitsFrom F T tab key g t).length < n) (hc : Fine c) :
    visits (findnext F) (dataCursor F) n (hashProbe F db fuel t c) =
      ((hitsFrom F T tab key g t).map (dataOf F), 0) := by
  have htend := him.tend_lt (tabOf F key) (F.ntab_lt _)
  induction n generalizing fuel t g c db with
  | zero => omega
  | succ n ih =>
    obtain ⟨c', hc', hstop⟩ := hashProbe_spec him hl hT htab hgap hclear ht hfuel hc
    rcases hstop with ⟨hres, hnil⟩ | ⟨t', g', p, ht', hgap', hclear', hg', hne, hp, hhit, hres, hcons⟩
    · rw [hres, hnil]
      rfl
    · rw [hres, hcons]
      simp only [visits, if_true, List.map_cons]
      rw [hcons, List.length_cons] at hn
      have hcur := dataCursor_hit him hl.toSeeking hp hhit t'
      generalize hdb : { db with sN := t', rpos := p.1, dlen := p.2.2.length } = db' at hcur
      have hl' : Located F file rbase recs tbase db' key := by
        subst hdb
        exact ⟨⟨hl.klen, hl.h, hl.sought⟩, hl.file, hl.tbase, hl.tslots⟩
      have hs0 : db'.s0 = db.s0 := by rw [← hdb]
      have hsN : db'.sN = t' := by rw [← hdb]
      have htarget : (db'.sN + 1) % 2 ^ 32 = t' + 1 := by
        rw [hsN, Nat.mod_eq_of_lt (by omega)]
      have hnext : findnext F db' c' = hashProbe F db' T (next T t') c' := by
        unfold findnext
        rw [htarget, hl'.tslots, ← hT, hs0]
        exact if_neg hne
      rw [hcur, hnext, ih hl' hgap' (hs0 ▸ hclear') (next_lt ht') (by omega) (by omega) (by omega)
        hc']

theorem hash_of_hit (hhit : hit F key p = true) : hashOf F p = F.hash key := by
  simp only [hit, Bool.and_eq_true, decide_eq_true_eq] at hhit
  exact hhit.1

/-- Hits stand in the subtable of the key. -/
theorem table_hits (F : Format) (rbase : ℕ) (recs : List Rec) (key : List UInt8) :
    (table F rbase recs (tabOf F key)).filter (hit F key) =
      (layout F rbase recs).filter (hit F key) := by
  rw [table, List.filter_filter]
  apply List.filter_congr
  intro p _
  by_cases hhit : hit F key p = true
  · simp [hhit, hash_of_hit hhit]
  · simp [hhit]

/-- Hits have the home of the key. -/
theorem home_hits (F : Format) (T : ℕ) (ps : List (ℕ × Rec)) (key : List UInt8) :
    (ps.filter fun p => home F T p = F.slot (F.hash key) T).filter (hit F key) =
      ps.filter (hit F key) := by
  rw [List.filter_filter]
  apply List.filter_congr
  intro p _
  by_cases hhit : hit F key p = true
  · simp [hhit, home, hash_of_hit hhit]
  · simp [hhit]

/-- A search visits the hits in the order of the records. -/
theorem visits_probeTable (him : Image F file rbase recs tbase tbl) (hs : Seeking F db key)
    (hfile : db.file = file) {n : ℕ} (hn : recs.length < n) (hc : Fine c) :
    visits (findnext F) (dataCursor F) n
        (probeTable F db c (tbase (tabOf F key)) (tslotsOf F rbase recs (tabOf F key))) =
      (((layout F rbase recs).filter (hit F key)).map (dataOf F), 0) := by
  have hlen := @table_length_le F rbase recs (tabOf F key)
  have hloaded := him.loaded _ (F.ntab_lt (F.hash key))
  have hhits := table_hits F rbase recs key
  generalize hT : tslotsOf F rbase recs (tabOf F key) = T at hloaded
  have hTlen : T = 2 * (table F rbase recs (tabOf F key)).length := hT.symm
  unfold probeTable
  by_cases h0 : T = 0
  · have hempty : table F rbase recs (tabOf F key) = [] := List.length_eq_zero_iff.mp (by omega)
    rw [hempty, List.filter_nil] at hhits
    rw [if_pos h0, ← hhits]
    cases n with
    | zero => omega
    | succ n => rfl
  · rw [if_neg h0]
    have hpos : 0 < T := Nat.pos_of_ne_zero h0
    have hhome : F.slot db.h T < T := F.slot_lt _ _ hpos
    have hlt : (table F rbase recs (tabOf F key)).length < T := by omega
    obtain ⟨g, hg, hgap⟩ := exists_gap hhome (hloaded.not_full hlt)
    have hwalk := hloaded.walk hhome hgap hg
    have hfrom : hitsFrom F T (tbl (tabOf F key)) key g (F.slot db.h T) =
        (layout F rbase recs).filter (hit F key) := by
      rw [hitsFrom, ← home_hits F T, ← hs.h, hwalk, hs.h, home_hits, hhits]
    have hl : Located F file rbase recs tbase
        { db with tbase := tbase (tabOf F key), tslots := T, s0 := F.slot db.h T } key :=
      ⟨⟨hs.klen, hs.h, hs.sought⟩, hfile, rfl, hT.symm⟩
    have hcount := List.length_filter_le (hit F key) (table F rbase recs (tabOf F key))
    rw [← hfrom]
    exact visits_hashProbe him hl hT.symm rfl hgap (clear_home hhome hg) hhome hg hg
      (by rw [hfrom, ← hhits]; omega) hc

/-- What a search for `key` finds is right: the 80 bytes it compares repeat to the
whole of the key, or neither the key nor that repetition is in the database. -/
def Searchable (F : Format) (recs : List Rec) (key : List UInt8) : Prop :=
  repeated key key.length = key ∨
    ∀ r ∈ recs, r.1 ≠ key ∧ ¬ (F.hash r.1 = F.hash key ∧ r.1 = repeated key key.length)

/-- Every key of no more than 80 bytes is searchable. -/
theorem searchable_of_short (F : Format) (recs : List Rec) {key : List UInt8}
    (h : key.length ≤ keybufSize) : Searchable F recs key :=
  .inl (repeated_self h)

/-- 81 bytes of which the last is not the first -/
def longKey : List UInt8 := List.replicate 80 0 ++ [1]

/-- A record with that key cannot be found. -/
theorem longKey_not_searchable (F : Format) {r : Rec} (hr : r ∈ recs) (hkey : r.1 = longKey) :
    ¬ Searchable F recs longKey := by
  rintro (hrep | hnone)
  · exact absurd hrep (by decide)
  · exact (hnone r hr).1 hkey

theorem exists_layout {r : Rec} (h : r ∈ recs) : ∃ p ∈ layout F rbase recs, p.2 = r := by
  rw [← layout_map_snd F rbase recs] at h
  exact List.mem_map.mp h

/-- Records with keys of one length and data at one offset are one record. -/
theorem dataOf_inj {p' : ℕ × Rec} (hp : p ∈ layout F rbase recs) (hp' : p' ∈ layout F rbase recs)
    (hlen : p.2.1.length = p'.2.1.length) (h : dataOf F p = dataOf F p') : p = p' := by
  have hpos := congrArg Prod.fst h
  simp only [dataOf] at hpos
  exact layout_inj hp hp' (by omega)

/-- The hits are the records with the key just when the key is searchable. -/
theorem hits_iff (F : Format) (rbase : ℕ) (recs : List Rec) (key : List UInt8) :
    ((layout F rbase recs).filter (hit F key)).map (dataOf F) =
        ((layout F rbase recs).filter fun p => p.2.1 = key).map (dataOf F) ↔
      Searchable F recs key := by
  have hhit : ∀ p, hit F key p = true ↔
      F.hash p.2.1 = F.hash key ∧ p.2.1 = repeated key key.length := by
    intro p
    rw [hit, Bool.and_eq_true, decide_eq_true_eq, decide_eq_true_eq, hashOf]
  constructor
  · intro heq
    by_contra hno
    obtain ⟨hrep, hrecs⟩ := not_or.mp hno
    apply hrecs
    intro r hr
    obtain ⟨p, hp, rfl⟩ := @exists_layout F rbase recs r hr
    -- a record on one side stands on the other, where its key is another one
    constructor
    · intro hkey
      have hmem : dataOf F p ∈
          ((layout F rbase recs).filter fun p => p.2.1 = key).map (dataOf F) :=
        List.mem_map_of_mem (List.mem_filter.mpr ⟨hp, by simp [hkey]⟩)
      rw [← heq] at hmem
      obtain ⟨p', hp', hdata⟩ := List.mem_map.mp hmem
      obtain ⟨hp', hhit'⟩ := List.mem_filter.mp hp'
      have hkey' := ((hhit p').mp hhit').2
      have := dataOf_inj hp' hp (by rw [hkey', hkey, repeated_length]) hdata
      subst this
      exact hrep (hkey'.symm.trans hkey)
    · intro hhitp
      have hmem : dataOf F p ∈ ((layout F rbase recs).filter (hit F key)).map (dataOf F) :=
        List.mem_map_of_mem (List.mem_filter.mpr ⟨hp, (hhit p).mpr hhitp⟩)
      rw [heq] at hmem
      obtain ⟨p', hp', hdata⟩ := List.mem_map.mp hmem
      obtain ⟨hp', hkey'⟩ := List.mem_filter.mp hp'
      have hkey' : p'.2.1 = key := by simpa using hkey'
      have := dataOf_inj hp' hp (by rw [hkey', hhitp.2, repeated_length]) hdata
      subst this
      exact hrep (hhitp.2.symm.trans hkey')
  · intro hs
    congr 1
    apply List.filter_congr
    intro p hp
    rw [Bool.eq_iff_iff, hhit, decide_eq_true_eq]
    rcases hs with hrep | hnone
    · rw [hrep]
      exact ⟨fun h => h.2, fun h => ⟨by rw [h], h⟩⟩
    · obtain ⟨hne, hnot⟩ := hnone _ (layout_mem hp)
      exact ⟨fun h => absurd h hnot, fun h => absurd h hne⟩

/-! ## Iteration -/

/-- Where the key and the data of a record are, and how much of them -/
def recordOf (F : Format) (p : ℕ × Rec) : (ℕ × ℕ) × ℕ × ℕ :=
  ((p.1 + F.hdr, p.2.1.length), dataOf F p)

/-- `kpos`, `klen`, `dpos` and `dlen` -/
def recordCursor (F : Format) (db : Db) : (ℕ × ℕ) × ℕ × ℕ :=
  ((db.kpos F, db.klen), dataCursor F db)

/-- The key and the data of a record stand where its cursors say. -/
theorem slice_recordOf (hat : At file p.1 (record F p.2)) :
    slice file (recordOf F p).1.1 (recordOf F p).1.2 = p.2.1 ∧
      slice file (recordOf F p).2.1 (recordOf F p).2.2 = p.2.2 := by
  obtain ⟨-, hkey, hdata⟩ := record_at hat
  exact ⟨hkey.slice_eq, hdata.slice_eq⟩

/-- Iteration from a record on visits the records from there. -/
theorem visits_seqAt {pos n : ℕ} (hfile : db.file = file) (hbase : db.hbase = eod F pos recs)
    (heod : eod F pos recs < 2 ^ 32) (hlens : ∀ r ∈ recs, r.1.length ≤ F.lmax ∧ r.2.length ≤ F.lmax)
    (hat : At file pos (recs.flatMap (record F))) (hn : recs.length < n) (hc : Fine c) :
    visits (seqnext F) (recordCursor F) n (seqAt F db c pos) =
      ((layout F pos recs).map (recordOf F), 0) := by
  induction recs generalizing pos n db c with
  | nil =>
    obtain ⟨n, rfl⟩ := Nat.exists_eq_succ_of_ne_zero (Nat.ne_of_gt hn)
    have hend : ¬ pos < db.hbase := by simp [hbase, eod]
    simp [seqAt, hend, visits, layout]
  | cons r recs ih =>
    obtain ⟨n, rfl⟩ := Nat.exists_eq_succ_of_ne_zero (Nat.ne_of_gt (Nat.zero_lt_of_lt hn))
    have hsum : eod F pos (r :: recs) = eod F (pos + size F r) recs := eod_cons
    have hle : pos + size F r ≤ eod F pos (r :: recs) :=
      (@layout_bounds F pos (r :: recs) (pos, r) List.mem_cons_self).2
    have hpos := @size_pos F r
    rw [List.flatMap_cons, at_append, record_length] at hat
    obtain ⟨hrec, hrest⟩ := hat
    have hheader := (record_at hrec).1
    rw [← hfile] at hheader
    obtain ⟨c1, hread, hc1⟩ := dbRead_spec hc hheader (header_length _) hdr_pos
    obtain ⟨hklen, hdlen⟩ := hlens r List.mem_cons_self
    have hseq : seqAt F db c pos =
        (1, { db with rpos := pos, klen := r.1.length, dlen := r.2.length }, c1) := by
      unfold seqAt
      rw [if_neg (by omega), hread]
      simp only [header_klen hklen, header_dlen hdlen]
    have hnext : (pos + (r.1.length + r.2.length + F.hdr)) % 2 ^ 32 = pos + size F r := by
      rw [show pos + (r.1.length + r.2.length + F.hdr) = pos + size F r by unfold size; omega]
      exact Nat.mod_eq_of_lt (by omega)
    have hih := @ih { db with rpos := pos, klen := r.1.length, dlen := r.2.length } c1
      (pos + size F r) n hfile (hbase.trans hsum) (hsum ▸ heod)
      (fun r' hr' => hlens r' (List.mem_cons_of_mem _ hr')) hrest (by simpa using hn) hc1
    have hcur : recordCursor F { db with rpos := pos, klen := r.1.length, dlen := r.2.length } =
        recordOf F (pos, r) := by
      unfold size at hle
      simp only [recordCursor, dataCursor, Db.kpos, Db.dpos, recordOf, dataOf]
      rw [Nat.mod_eq_of_lt (by omega), Nat.mod_eq_of_lt (by omega)]
    rw [hseq, layout, List.map_cons]
    simp only [visits, if_true, hcur]
    rw [seqnext, hnext, hih]

end Perp.HashSearch
