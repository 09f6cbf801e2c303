import Mathlib.Algebra.Order.Ring.Nat
import Mathlib.Tactic.Linarith
import Perp.HashFile
import Perp.OpenTable

set_option autoImplicit false

/-!
# What a database file holds

The records of a database and where they stand, the tables over them, and what a
reader finds when its system calls do not fail.
-/
namespace Perp.HashImage
open Pkt ByteImage HashFile OpenTable
open IoqGet (ReadAns readOnce readOnce_spec)

/-- A key and its data -/
abbrev Rec : Type := List UInt8 × List UInt8

theorem unpack32_at {f : List UInt8} {off n : ℕ} (h : At f off (pack32 n)) (hn : n < 2 ^ 32) :
    unpack32 (f.drop off) = n := by
  obtain ⟨rest, hrest⟩ := h
  rw [← hrest, unpack32_pack n hn]

section format
variable (F : Format)

/-- The two lengths of a record -/
def header (r : Rec) : List UInt8 := F.pack r.1.length ++ F.pack r.2.length

def record (r : Rec) : List UInt8 := header F r ++ r.1 ++ r.2

def size (r : Rec) : ℕ := F.hdr + r.1.length + r.2.length

/-- The records with their offsets, the first at `pos` -/
def layout : ℕ → List Rec → List (ℕ × Rec)
  | _, [] => []
  | pos, r :: recs => (pos, r) :: layout (pos + size F r) recs

/-- The offset after the records -/
def eod (pos : ℕ) (recs : List Rec) : ℕ := pos + (recs.map (size F)).sum

def hashOf (p : ℕ × Rec) : UInt32 := F.hash p.2.1

def entry (p : ℕ × Rec) : Hashoff := ⟨hashOf F p, p.1⟩

/-- The records of the subtable `i` -/
def table (pos : ℕ) (recs : List Rec) (i : ℕ) : List (ℕ × Rec) :=
  (layout F pos recs).filter fun p => F.ntab (hashOf F p) = i

/-- The 8 bytes of a slot -/
def cell : Option (ℕ × Rec) → List UInt8
  | none => List.replicate 8 0
  | some p => upak32Pack (hashOf F p) ++ pack32 p.1

/-- `tslots` of the subtable `i` -/
def tslotsOf (pos : ℕ) (recs : List Rec) (i : ℕ) : ℕ := 2 * (table F pos recs i).length

/-- The home of a record in a subtable of `n` slots -/
def home (n : ℕ) (p : ℕ × Rec) : ℕ := F.slot (hashOf F p) n

/-- The file holds the records from `rbase` on, and for each subtable the slots
of a table loaded with its records. -/
structure Image (file : List UInt8) (rbase : ℕ) (recs : List Rec) (tbase : ℕ → ℕ)
    (tbl : ℕ → ℕ → Option (ℕ × Rec)) : Prop where
  lengths : ∀ r ∈ recs, r.1.length ≤ F.lmax ∧ r.2.length ≤ F.lmax
  rbase_pos : 0 < rbase
  eod_lt : eod F rbase recs < 2 ^ 32
  records : At file rbase (recs.flatMap (record F))
  loaded : ∀ i, i < F.ntabs →
    Loaded (tslotsOf F rbase recs i) (home F (tslotsOf F rbase recs i)) (tbl i)
      (table F rbase recs i)
  slots : ∀ i, i < F.ntabs → ∀ s, s < tslotsOf F rbase recs i →
    At file (tbase i + 8 * s) (cell F (tbl i s))
  tend_lt : ∀ i, i < F.ntabs → tbase i + 8 * tslotsOf F rbase recs i < 2 ^ 32

variable {F} {pos : ℕ} {recs : List Rec} {r : Rec} {p : ℕ × Rec}

theorem header_length (r : Rec) : (header F r).length = F.hdr := by
  simp only [header, Format.hdr, List.length_append, F.pack_length]
  omega

theorem header_klen (h : r.1.length ≤ F.lmax) : F.unpack (header F r) = r.1.length :=
  F.unpack_pack _ h _

theorem header_dlen (h : r.2.length ≤ F.lmax) :
    F.unpack ((header F r).drop F.width) = r.2.length := by
  have hunpack := F.unpack_pack _ h []
  rw [List.append_nil] at hunpack
  rwa [header, List.drop_left' (F.pack_length _)]

theorem record_length (r : Rec) : (record F r).length = size F r := by
  simp only [record, size, List.length_append, header_length]

/-- Where the parts of a record stand -/
theorem record_at {file : List UInt8} {off : ℕ} (h : At file off (record F r)) :
    At file off (header F r) ∧ At file (off + F.hdr) r.1 ∧
      At file (off + F.hdr + r.1.length) r.2 := by
  rw [record, List.append_assoc] at h
  obtain ⟨hheader, hrest⟩ := at_append.mp h
  rw [header_length] at hrest
  exact ⟨hheader, at_append.mp hrest⟩

theorem records_length (recs : List Rec) :
    (recs.flatMap (record F)).length = (recs.map (size F)).sum := by
  rw [List.length_flatMap]
  congr 1
  exact List.map_congr_left fun r _ => record_length r

theorem eod_cons : eod F pos (r :: recs) = eod F (pos + size F r) recs := by
  simp only [eod, List.map_cons, List.sum_cons]
  omega

theorem hdr_pos : 0 < F.hdr := by
  have := F.width_pos
  unfold Format.hdr
  omega

theorem size_pos (r : Rec) : 0 < size F r := by
  have := @hdr_pos F
  unfold size
  omega

theorem layout_append (pos : ℕ) (a b : List Rec) :
    layout F pos (a ++ b) = layout F pos a ++ layout F (eod F pos a) b := by
  induction a generalizing pos with
  | nil => simp [layout, eod]
  | cons r a ih =>
    rw [List.cons_append, layout, ih, eod_cons]
    rfl

/-- A record lies between the base and the end of the data. -/
theorem layout_bounds (h : p ∈ layout F pos recs) :
    pos ≤ p.1 ∧ p.1 + size F p.2 ≤ eod F pos recs := by
  induction recs generalizing pos with
  | nil => simp [layout] at h
  | cons r recs ih =>
    rw [eod_cons]
    rcases List.mem_cons.mp h with rfl | h
    · exact ⟨Nat.le_refl _, Nat.le_add_right _ _⟩
    · have := ih h
      omega

/-- No two records have one offset. -/
theorem layout_inj {p' : ℕ × Rec} (h : p ∈ layout F pos recs) (h' : p' ∈ layout F pos recs)
    (heq : p.1 = p'.1) : p = p' := by
  induction recs generalizing pos with
  | nil => simp [layout] at h
  | cons r recs ih =>
    have hpos := @size_pos F r
    rcases List.mem_cons.mp h with rfl | h
    · rcases List.mem_cons.mp h' with rfl | h'
      · rfl
      · have := (layout_bounds h').1
        simp only at heq
        omega
    · rcases List.mem_cons.mp h' with rfl | h'
      · have := (layout_bounds h).1
        simp only at heq
        omega
      · exact ih h h'

theorem layout_mem (h : p ∈ layout F pos recs) : p.2 ∈ recs := by
  induction recs generalizing pos with
  | nil => simp [layout] at h
  | cons r recs ih =>
    rcases List.mem_cons.mp h with rfl | h
    · exact List.mem_cons_self
    · exact List.mem_cons_of_mem _ (ih h)

theorem layout_length (pos : ℕ) (recs : List Rec) : (layout F pos recs).length = recs.length := by
  induction recs generalizing pos with
  | nil => rfl
  | cons r recs ih => simp [layout, ih]

theorem table_length_le (pos : ℕ) (recs : List Rec) (i : ℕ) :
    (table F pos recs i).length ≤ recs.length := by
  rw [← @layout_length F pos recs]
  exact List.length_filter_le _ _

theorem layout_map_snd (F : Format) (pos : ℕ) (recs : List Rec) :
    (layout F pos recs).map Prod.snd = recs := by
  induction recs generalizing pos with
  | nil => rfl
  | cons r recs ih => simp [layout, ih]

theorem layout_at {file : List UInt8} (hat : At file pos (recs.flatMap (record F)))
    (h : p ∈ layout F pos recs) : At file p.1 (record F p.2) := by
  induction recs generalizing pos with
  | nil => simp [layout] at h
  | cons r recs ih =>
    rw [List.flatMap_cons, at_append, record_length] at hat
    rcases List.mem_cons.mp h with rfl | h
    · exact hat.1
    · exact ih hat.2 h

theorem cell_length (F : Format) (x : Option (ℕ × Rec)) : (cell F x).length = 8 := by
  cases x <;> rfl

theorem cell_none_rpos : unpack32 ((cell F none).drop 4) = 0 := by
  simp only [cell]
  decide

theorem cell_some_rpos (h : p.1 < 2 ^ 32) : unpack32 ((cell F (some p)).drop 4) = p.1 := by
  have hdrop : (cell F (some p)).drop 4 = pack32 p.1 := List.drop_left' rfl
  have hunpack := unpack32_pack p.1 h []
  rw [List.append_nil] at hunpack
  rw [hdrop, hunpack]

theorem cell_some_hash (p : ℕ × Rec) : upak32Unpack (cell F (some p)) = hashOf F p :=
  upak32Unpack_pack _ _

section image
variable {file : List UInt8} {rbase : ℕ} {tbase : ℕ → ℕ} {tbl : ℕ → ℕ → Option (ℕ × Rec)}

theorem Image.layout_lt (him : Image F file rbase recs tbase tbl)
    (hp : p ∈ layout F rbase recs) : p.1 + size F p.2 < 2 ^ 32 :=
  Nat.lt_of_le_of_lt (layout_bounds hp).2 him.eod_lt

theorem Image.layout_pos (him : Image F file rbase recs tbase tbl)
    (hp : p ∈ layout F rbase recs) : 0 < p.1 :=
  Nat.lt_of_lt_of_le him.rbase_pos (layout_bounds hp).1

end image

end format

/-! ## Reading -/

/-- No system call fails. -/
structure Fine (c : Calls) : Prop where
  seeks : true ∉ c.seeks
  reads : ReadAns.error ∉ c.reads

section read
variable {db : Db} {c : Calls} {bytes rest : List UInt8} {off len fuel : ℕ}

/-- The loop of `cdb_read()` gets all the bytes, or comes to the end of the file. -/
theorem readLoop_value (hc : Fine c) (hfuel : len ≤ fuel) :
    ∃ d, readLoop fuel rest len c =
        (if len ≤ rest.length then some (rest.take len) else none, d) ∧ Fine d ∧
      d.errno = if len ≤ rest.length then c.errno else .eproto := by
  induction fuel generalizing rest len c with
  | zero =>
    obtain rfl : len = 0 := Nat.le_zero.mp hfuel
    exact ⟨c, by simp [readLoop], hc, by simp⟩
  | succ fuel ih =>
    unfold readLoop
    by_cases h0 : len = 0
    · subst h0
      exact ⟨c, by simp, hc, by simp⟩
    · rw [if_neg h0]
      obtain ⟨m, hm0, hmw, hdata, hrest, hans⟩ :=
        @readOnce_spec rest len c.reads (Nat.pos_of_ne_zero h0) hc.reads
      generalize readOnce rest len c.reads = res at hdata hrest hans
      obtain ⟨data, i⟩ := res
      simp only at hdata hrest hans
      subst hdata
      have hfine : Fine { c with reads := i.answers } := ⟨hc.seeks, hans⟩
      by_cases hnil : rest.take m = []
      · have hend : rest = [] := (List.take_eq_nil_iff.mp hnil).resolve_left (by omega)
        have hshort : ¬ len ≤ rest.length := by
          rw [hend, List.length_nil]
          omega
        refine ⟨{ c with reads := i.answers, errno := .eproto }, ?_, ⟨hc.seeks, hans⟩, ?_⟩
        · simp only [hnil, if_true, if_neg hshort]
        · rw [if_neg hshort]
      · have hpos : 0 < rest.length := by
          by_contra hz
          exact hnil (by rw [List.length_eq_zero_iff.mp (by omega : rest.length = 0), List.take_nil])
        have hm : (rest.take m).length = min m rest.length := List.length_take
        obtain ⟨d, heq, hd, herr⟩ :=
          @ih { c with reads := i.answers } (rest.drop m) (len - (rest.take m).length) hfine
            (by rw [hm]; omega)
        have hiff : len - (rest.take m).length ≤ (rest.drop m).length ↔ len ≤ rest.length := by
          rw [hm, List.length_drop]
          omega
        refine ⟨d, ?_, hd, ?_⟩
        · simp only [if_neg hnil, hrest, heq]
          by_cases hle : len ≤ rest.length
          · have hall : (rest.take m).length = m := by omega
            have hsum : m + (len - m) = len := by omega
            rw [if_pos (hiff.mpr hle), if_pos hle, Option.map_some, hall, ← List.take_add, hsum]
          · rw [if_neg (mt hiff.mp hle), if_neg hle, Option.map_none]
        · rw [herr]
          simp only [hiff]

/-- A read of some bytes, in either mode: they are there, or it fails. -/
theorem dbRead_value (hc : Fine c ∨ db.mapped = true) (hpos : 0 < len) :
    ∃ d, dbRead db c len off =
        (if off + len ≤ db.file.length then some (slice db.file off len) else none, d) ∧
      (Fine c → Fine d) ∧ d.errno = if off + len ≤ db.file.length then c.errno else .eproto := by
  unfold dbRead
  by_cases hmap : db.mapped = true
  · rw [if_pos hmap]
    by_cases hin : off + len ≤ db.file.length
    · refine ⟨c, ?_, id, (if_pos hin).symm⟩
      rw [if_neg (by omega), if_pos hin]
    · refine ⟨{ c with errno := .eproto }, ?_, fun h => ⟨h.seeks, h.reads⟩, (if_neg hin).symm⟩
      rw [if_pos (by omega), if_neg hin]
  · have hfine := hc.resolve_right hmap
    have hseek : c.seeks.head? ≠ some true := fun h => hfine.seeks (List.mem_of_head? h)
    rw [if_neg hmap, if_neg hseek]
    obtain ⟨d, heq, hd, herr⟩ :=
      @readLoop_value { c with seeks := c.seeks.tail } (db.file.drop off) len len
        ⟨fun h => hfine.seeks (List.mem_of_mem_tail h), hfine.reads⟩ (Nat.le_refl _)
    have hiff : len ≤ (db.file.drop off).length ↔ off + len ≤ db.file.length := by
      rw [List.length_drop]
      omega
    refine ⟨d, ?_, fun _ => hd, ?_⟩
    · rw [heq]
      simp only [hiff, slice]
    · rw [herr]
      simp only [hiff]

/-- A read of bytes that are there. -/
theorem dbRead_spec (hc : Fine c) (hat : At db.file off bytes) (hlen : bytes.length = len)
    (hpos : 0 < len) : ∃ c', dbRead db c len off = (some bytes, c') ∧ Fine c' := by
  have hend := hat.end_le (hlen ▸ hpos)
  have hslice := hat.slice_eq
  rw [hlen] at hend hslice
  obtain ⟨d, heq, hd, -⟩ := @dbRead_value db c off len (.inl hc) hpos
  rw [if_pos hend, hslice] at heq
  exact ⟨d, heq, hd hc⟩

end read

theorem fine_nil : Fine ⟨[], [], .none⟩ := ⟨by simp, by simp⟩

/-! ## Comparing keys -/

/-- The `n` bytes that repeat the first 80 bytes of `key` -/
def repeated (key : List UInt8) (n : ℕ) : List UInt8 :=
  (List.range n).map fun i => byteAt key (i % keybufSize)

section keys
variable {key rkey : List UInt8} {n klen kpos fuel : ℕ} {db : Db} {c : Calls}

theorem repeated_length (key : List UInt8) (n : ℕ) : (repeated key n).length = n := by
  simp [repeated]

theorem repeated_take (hn : n ≤ keybufSize) (hkey : n ≤ key.length) :
    repeated key n = key.take n := by
  apply List.ext_getElem
  · rw [repeated_length, List.length_take]
    omega
  · intro i hi hi'
    rw [repeated_length] at hi
    have hlt : i < key.length := by omega
    simp only [repeated, List.getElem_map, List.getElem_range, List.getElem_take]
    rw [Nat.mod_eq_of_lt (by omega), byteAt, List.getD_eq_getElem?_getD,
      List.getElem?_eq_getElem hlt, Option.getD_some]

theorem repeated_self (h : key.length ≤ keybufSize) : repeated key key.length = key := by
  rw [repeated_take h (Nat.le_refl _), List.take_length]

/-- One pass of `cdb_key_match()` compares one more repetition. -/
theorem repeated_split (hkey : klen ≤ key.length) :
    repeated key klen =
      key.take (min keybufSize klen) ++ repeated key (klen - min keybufSize klen) := by
  generalize hn : min keybufSize klen = n
  have hle : n ≤ klen := by omega
  rw [← repeated_take (by omega) (by omega)]
  obtain ⟨m, rfl⟩ := Nat.exists_eq_add_of_le hle
  rw [Nat.add_sub_cancel_left]
  unfold repeated
  rw [List.range_add, List.map_append, List.map_map]
  congr 1
  apply List.map_congr_left
  intro i hi
  have hi := List.mem_range.mp hi
  have h80 : n = keybufSize := by omega
  simp only [Function.comp, h80, Nat.add_mod_left]

theorem keyMatch_spec (hc : Fine c) (hat : At db.file kpos rkey) (hlen : rkey.length = klen)
    (hfuel : klen ≤ fuel) (hkey : klen ≤ key.length) (hend : kpos + klen < 2 ^ 32) :
    ∃ c', keyMatch db key fuel klen kpos c = (if rkey = repeated key klen then 1 else 0, c') ∧
      Fine c' := by
  induction fuel generalizing rkey klen kpos c with
  | zero =>
    obtain rfl : klen = 0 := Nat.le_zero.mp hfuel
    obtain rfl : rkey = [] := List.length_eq_zero_iff.mp hlen
    exact ⟨c, rfl, hc⟩
  | succ fuel ih =>
    unfold keyMatch
    by_cases h0 : klen = 0
    · subst h0
      obtain rfl : rkey = [] := List.length_eq_zero_iff.mp hlen
      exact ⟨c, rfl, hc⟩
    · rw [if_neg h0]
      have hsplit := @repeated_split key klen hkey
      have h80 : 0 < keybufSize := by decide
      generalize hn : min keybufSize klen = n at hsplit
      have hnlen : (rkey.take n).length = n := by
        rw [List.length_take]
        omega
      rw [← List.take_append_drop n rkey, at_append, hnlen] at hat
      obtain ⟨c1, hread, hc1⟩ := dbRead_spec hc hat.1 hnlen (by omega)
      simp only [hread]
      by_cases heq : key.take n = rkey.take n
      · obtain ⟨c', hrest, hc'⟩ := ih hc1 hat.2 (by rw [List.length_drop, hlen]) (by omega)
          (by omega) (by omega)
        have hiff : rkey = repeated key klen ↔ rkey.drop n = repeated key (klen - n) := by
          rw [hsplit, heq]
          constructor
          · intro h
            have hdrop := congrArg (List.drop n) h
            rwa [List.drop_left' hnlen] at hdrop
          · intro h
            rw [← h, List.take_append_drop]
        refine ⟨c', ?_, hc'⟩
        rw [if_neg (not_not.mpr heq), Nat.mod_eq_of_lt (by omega), hrest]
        simp only [hiff]
      · refine ⟨c1, ?_, hc1⟩
        rw [if_pos heq, if_neg]
        intro hall
        rw [hall, hsplit, List.take_left' (by rw [List.length_take]; omega)] at heq
        exact heq rfl

end keys

end Perp.HashImage
