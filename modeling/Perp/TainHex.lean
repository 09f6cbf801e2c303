import Perp.ByteOrder
import Perp.Pkt
import Perp.Tain

set_option autoImplicit false

/-!
# Timestamps in hexadecimal

`tain_packhex()` and `tain_unpackhex()`, which takes its digits from other places than they
were put to.
-/
namespace Perp.TainHex
open ByteOrder
open Pkt (byteAt)

/-! ## The functions -/

def hex : List UInt8 := [48, 49, 50, 51, 52, 53, 54, 55, 56, 57, 97, 98, 99, 100, 101, 102]

/-- The two digits of a byte: `hex[(b >> 4) & 15]` and `hex[b & 15]` -/
def digits (b : UInt8) : List UInt8 :=
  [byteAt hex ((b >>> 4) &&& 15).toNat, byteAt hex (b &&& 15).toNat]

/-- The string of 24 digits and its NUL -/
def tainPackhex (t : Tain) : List UInt8 := t.pack.flatMap digits ++ [0]

/-- The value of a digit, in a `uchar_t` -/
def digit (c : UInt8) : UInt8 := if c ≥ 65 then ((c &&& 0xdf) - 65) + 10 else c - 48

/-- The bytes are made of `s[i]` and `s[i + 1]`. -/
def tainUnpackhex (s : List UInt8) : Tain :=
  Tain.unpack ((List.range 12).map fun i => (digit (byteAt s i) <<< 4) + digit (byteAt s (i + 1)))

/-! ## What they are for -/

/-- `isxdigit()` -/
def isxdigit (c : UInt8) : Bool := 48 ≤ c && c ≤ 57 || 65 ≤ c && c ≤ 70 || 97 ≤ c && c ≤ 102

/-- `tolower()` of the C locale -/
def tolower (c : UInt8) : UInt8 := if 65 ≤ c ∧ c ≤ 90 then c + 32 else c

/-- A string of 24 hexadecimal digits -/
structure HexLabel where
  bytes : List UInt8
  length : bytes.length = 24
  all : bytes.all isxdigit = true

def RestoresStamp (t : Tain) : Prop := tainUnpackhex (tainPackhex t) = t

def RestoresLabel (s : HexLabel) : Prop :=
  tainPackhex (tainUnpackhex (s.bytes ++ [0])) = s.bytes.map tolower ++ [0]

/-- The stamp of which the first hexadecimal digit is `h` and all the others are `d` -/
def stamp (h d : ℕ) : Tain :=
  ⟨UInt64.ofNat (h * 2 ^ 60 + d * 0x111111111111111), UInt32.ofNat (d * 0x11111111)⟩

/-! ## Digits -/

theorem digit_bytes : ∀ n < 256, isxdigit (UInt8.ofNat n) = true →
    (digit (UInt8.ofNat n)).toNat < 16 ∧
      byteAt hex (digit (UInt8.ofNat n)).toNat = tolower (UInt8.ofNat n) := by
  decide +kernel

theorem digit_hex (c : UInt8) (h : isxdigit c = true) :
    (digit c).toNat < 16 ∧ byteAt hex (digit c).toNat = tolower c := by
  have hall := digit_bytes c.toNat c.toNat_lt
  rw [UInt8.ofNat_toNat] at hall
  exact hall h

theorem nibble_values : ∀ x < 16, ∀ y < 16,
    digits ((UInt8.ofNat x <<< 4) + UInt8.ofNat y) = [byteAt hex x, byteAt hex y] := by
  decide +kernel

/-- The byte of two digits has these digits. -/
theorem digits_join {c d : UInt8} (hc : isxdigit c = true) (hd : isxdigit d = true) :
    digits ((digit c <<< 4) + digit d) = [tolower c, tolower d] := by
  have h := nibble_values (digit c).toNat (digit_hex c hc).1 (digit d).toNat (digit_hex d hd).1
  rwa [UInt8.ofNat_toNat, UInt8.ofNat_toNat, (digit_hex c hc).2, (digit_hex d hd).2] at h

/-! ## Labels of twelve bytes -/

theorem pack_eq (t : Tain) :
    t.pack = (toBytes 8 t.sec.toNat).reverse ++ (toBytes 4 t.nsec.toNat).reverse := by
  simp only [Tain.pack, toBytes, List.map_cons, List.map_nil, List.reverse_cons, List.reverse_nil,
    List.nil_append, List.cons_append, Nat.div_div_eq_div_mul]
  congr 12 <;> apply UInt8.toNat_inj.mp <;> simp [Nat.shiftRight_eq_div_pow]

/-- Twelve bytes are the label of the stamp that they are unpacked to. -/
theorem pack_unpack {bs : List UInt8} (h : bs.length = 12) : (Tain.unpack bs).pack = bs := by
  have htake : (bs.take 8).length = 8 := List.length_take_of_le (by omega)
  have hdrop : (bs.drop 8).length = 4 := by rw [List.length_drop, h]
  have hsec : (Tain.unpack bs).sec.toNat = ofBytes (bs.take 8).reverse := by
    have hfold := foldl_shift64 (bs.take 8) 0
    have hmap := map_getD bs 0 8 (by omega)
    have hlt := ofBytes_lt (bs.take 8).reverse
    rw [List.length_reverse, htake] at hlt
    rw [List.drop_zero] at hmap
    rw [← hmap, List.foldl_map, hmap] at hfold
    refine hfold.trans ?_
    rw [UInt64.toNat_zero, Nat.zero_mul, Nat.zero_add]
    exact Nat.mod_eq_of_lt hlt
  have hnsec : (Tain.unpack bs).nsec.toNat = ofBytes (bs.drop 8).reverse := by
    have hfold := foldl_shift32 (bs.drop 8) 0
    have hmap := map_getD bs 8 4 (by omega)
    have hlt := ofBytes_lt (bs.drop 8).reverse
    rw [List.length_reverse, hdrop] at hlt
    rw [List.take_of_length_le (by omega)] at hmap
    rw [← hmap, List.foldl_map, hmap] at hfold
    refine hfold.trans ?_
    rw [UInt32.toNat_zero, Nat.zero_mul, Nat.zero_add]
    exact Nat.mod_eq_of_lt hlt
  have hhigh := toBytes_ofBytes (bs.take 8).reverse
  have hlow := toBytes_ofBytes (bs.drop 8).reverse
  rw [List.length_reverse, htake] at hhigh
  rw [List.length_reverse, hdrop] at hlow
  rw [pack_eq, hsec, hnsec, hhigh, hlow, List.reverse_reverse, List.reverse_reverse,
    List.take_append_drop]

theorem pack_inj {t u : Tain} (h : t.pack = u.pack) : t = u := by
  have ht := Tain.unpack_pack t []
  have hu := Tain.unpack_pack u []
  rw [h] at ht
  exact ht.symm.trans hu

/-! ## Places -/

section
variable {α : Type} {f g f' g' d : ℕ → α}

theorem flatMap_pairs_inj {n : ℕ} (h : (List.range n).flatMap (fun i => [f i, g i]) =
    (List.range n).flatMap (fun i => [f' i, g' i])) : ∀ i < n, f i = f' i ∧ g i = g' i := by
  induction n with
  | zero => exact fun i hi => absurd hi (Nat.not_lt_zero i)
  | succ n ih =>
    rw [List.range_succ, List.flatMap_append, List.flatMap_append] at h
    obtain ⟨hfirst, hlast⟩ := List.append_inj' h rfl
    intro i hi
    rcases Nat.lt_succ_iff_lt_or_eq.mp hi with hlt | rfl
    · exact ih hfirst i hlt
    · simpa using hlast

theorem flatMap_double (f : ℕ → α) (n : ℕ) :
    (List.range n).flatMap (fun i => [f (2 * i), f (2 * i + 1)]) = (List.range (2 * n)).map f := by
  induction n with
  | zero => rfl
  | succ n ih =>
    rw [List.range_succ, List.flatMap_append, ih, Nat.mul_succ, List.range_succ, List.range_succ]
    simp

/-- The places `i` and `i + 1` agree with `2 * i` and `2 * i + 1` where all places but the
first agree. -/
theorem agree_iff : (∀ i < 12, d i = d (2 * i) ∧ d (i + 1) = d (2 * i + 1)) ↔
    ∀ j < 24, 1 ≤ j → d j = d 1 := by
  constructor
  · intro h j
    induction j using Nat.strong_induction_on with
    | _ j ih =>
      intro hj hpos
      rcases Nat.even_or_odd' j with ⟨i, rfl | rfl⟩
      · rw [← (h i (by omega)).1]
        exact ih i (by omega) (by omega) (by omega)
      · rw [← (h i (by omega)).2]
        by_cases hi : i = 0
        · rw [hi]
        · exact ih (i + 1) (by omega) (by omega) (by omega)
  · intro h i hi
    by_cases hzero : i = 0
    · rw [hzero]
      exact ⟨rfl, rfl⟩
    · rw [h i (by omega) (by omega), h (2 * i) (by omega) (by omega), h (i + 1) (by omega) (by omega),
        h (2 * i + 1) (by omega) (by omega)]
      exact ⟨rfl, rfl⟩

end

/-- The digit at a place of the label, in lower case -/
def digitAt (s : HexLabel) (i : ℕ) : UInt8 := tolower (byteAt s.bytes i)

theorem map_tolower (s : HexLabel) :
    s.bytes.map tolower = (List.range 12).flatMap fun i => [digitAt s (2 * i), digitAt s (2 * i + 1)] := by
  have hmap := map_getD s.bytes 0 24 (by rw [s.length])
  rw [List.drop_zero, ← s.length, List.take_length, s.length] at hmap
  rw [flatMap_double, ← hmap, List.map_map]
  rfl

theorem digits_unpackhex (s : HexLabel) :
    tainPackhex (tainUnpackhex (s.bytes ++ [0])) =
      (List.range 12).flatMap (fun i => [digitAt s i, digitAt s (i + 1)]) ++ [0] := by
  have hdigit (i : ℕ) (hi : i < 24) :
      byteAt (s.bytes ++ [0]) i = byteAt s.bytes i ∧ isxdigit (byteAt s.bytes i) = true := by
    have hlt : i < s.bytes.length := by rw [s.length]; exact hi
    rw [byteAt, byteAt, List.getD_eq_getElem?_getD, List.getD_eq_getElem?_getD,
      List.getElem?_append_left hlt, List.getElem?_eq_getElem hlt, Option.getD_some]
    exact ⟨rfl, List.all_eq_true.mp s.all _ (List.getElem_mem hlt)⟩
  rw [tainPackhex, tainUnpackhex, pack_unpack (by rw [List.length_map, List.length_range]),
    List.flatMap_map]
  congr 1
  apply List.flatMap_congr
  intro i hi
  rw [List.mem_range] at hi
  have h1 := hdigit i (by omega)
  have h2 := hdigit (i + 1) (by omega)
  rw [h1.1, h2.1]
  exact digits_join h1.2 h2.2

/-- A label is restored where its digits from the second on are the same. -/
theorem restoresLabel_iff (s : HexLabel) :
    RestoresLabel s ↔ ∀ j < 24, 1 ≤ j → digitAt s j = digitAt s 1 := by
  rw [RestoresLabel, digits_unpackhex, map_tolower, ← agree_iff]
  constructor
  · intro h i hi
    have hpair := flatMap_pairs_inj (List.append_inj_left' h rfl) i hi
    exact ⟨hpair.1, hpair.2⟩
  · intro h
    congr 1
    apply List.flatMap_congr
    intro i hi
    have hpair := h i (List.mem_range.mp hi)
    rw [← hpair.1, ← hpair.2]

/-! ## Stamps -/

theorem hexLabel_digits : ∀ n < 256, (digits (UInt8.ofNat n)).all isxdigit = true ∧
    (digits (UInt8.ofNat n)).map tolower = digits (UInt8.ofNat n) := by
  decide +kernel

/-- The label that a stamp is packed to -/
def label (t : Tain) : HexLabel where
  bytes := t.pack.flatMap digits
  length := rfl
  all := by
    rw [List.all_flatMap, List.all_eq_true]
    intro b _
    have hb := hexLabel_digits b.toNat b.toNat_lt
    rw [UInt8.ofNat_toNat] at hb
    exact hb.1

theorem label_tolower (t : Tain) : (label t).bytes.map tolower = (label t).bytes := by
  rw [label, List.map_flatMap]
  apply List.flatMap_congr
  intro b _
  have hb := hexLabel_digits b.toNat b.toNat_lt
  rw [UInt8.ofNat_toNat] at hb
  exact hb.2

/-- The byte of two digits -/
def join : List UInt8 → UInt8
  | [x, y] => (digit x <<< 4) + digit y
  | _ => 0

theorem join_bytes : ∀ n < 256, join (digits (UInt8.ofNat n)) = UInt8.ofNat n := by
  decide +kernel

theorem join_digits (b : UInt8) : join (digits b) = b := by
  have hb := join_bytes b.toNat b.toNat_lt
  rwa [UInt8.ofNat_toNat] at hb

theorem flatMap_digits_inj {bs cs : List UInt8} (h : bs.flatMap digits = cs.flatMap digits) : bs = cs := by
  induction bs generalizing cs with
  | nil =>
    cases cs with
    | nil => rfl
    | cons c cs => cases h
  | cons b bs ih =>
    cases cs with
    | nil => cases h
    | cons c cs =>
      rw [List.flatMap_cons, List.flatMap_cons] at h
      obtain ⟨hdigits, hrest⟩ := List.append_inj h rfl
      rw [← join_digits b, ← join_digits c, hdigits, ih hrest]

theorem label_inj {t u : Tain} (h : (label t).bytes = (label u).bytes) : t = u :=
  pack_inj (flatMap_digits_inj h)

theorem restoresStamp_iff (t : Tain) : RestoresStamp t ↔ RestoresLabel (label t) := by
  rw [RestoresLabel, label_tolower]
  constructor
  · intro h
    exact congrArg tainPackhex h
  · intro h
    exact label_inj (List.append_inj_left' h rfl)

theorem label_digit {t : Tain} {c : UInt8} (h : c ∈ (label t).bytes) : ∃ n < 16, c = byteAt hex n := by
  rw [label, List.mem_flatMap] at h
  obtain ⟨b, _, hb⟩ := h
  have hnibble (x : UInt8) : (x &&& 15).toNat < 16 := by
    rw [UInt8.toNat_and]
    exact Nat.lt_of_le_of_lt Nat.and_le_right (by decide)
  rw [digits, List.mem_cons, List.mem_singleton] at hb
  rcases hb with hb | hb
  · exact ⟨_, hnibble (b >>> 4), hb⟩
  · exact ⟨_, hnibble b, hb⟩

theorem stamp_pack : ∀ h < 16, ∀ d < 16, (stamp h d).pack =
    UInt8.ofNat (h * 16 + d) :: List.replicate 11 (UInt8.ofNat (d * 16 + d)) := by
  decide +kernel

theorem digits_pair : ∀ h < 16, ∀ d < 16,
    digits (UInt8.ofNat (h * 16 + d)) = [byteAt hex h, byteAt hex d] := by
  decide +kernel

theorem stamp_labels (h : ℕ) (hh : h < 16) (d : ℕ) (hd : d < 16) :
    (label (stamp h d)).bytes = byteAt hex h :: List.replicate 23 (byteAt hex d) := by
  change (stamp h d).pack.flatMap digits = _
  rw [stamp_pack h hh d hd, List.flatMap_cons, digits_pair h hh d hd, List.flatMap_replicate,
    digits_pair d hd d hd]
  rfl

theorem digitAt_label (t : Tain) {i : ℕ} (hi : i < (label t).bytes.length) :
    digitAt (label t) i = (label t).bytes[i] := by
  have hget := congrArg (·[i]?) (label_tolower t)
  simp only [List.getElem?_map, List.getElem?_eq_getElem hi, Option.map_some, Option.some.injEq] at hget
  rw [digitAt, byteAt, List.getD_eq_getElem?_getD, List.getElem?_eq_getElem hi, Option.getD_some, hget]

theorem repeats_iff (t : Tain) : (∀ j < 24, 1 ≤ j → digitAt (label t) j = digitAt (label t) 1) ↔
    ∃ h < 16, ∃ d < 16, t = stamp h d := by
  have hlen := (label t).length
  constructor
  · intro hall
    have h0 : 0 < (label t).bytes.length := by omega
    have h1 : 1 < (label t).bytes.length := by omega
    obtain ⟨h, hh, heq⟩ := label_digit (List.getElem_mem h0)
    obtain ⟨d, hd, hdeq⟩ := label_digit (List.getElem_mem h1)
    refine ⟨h, hh, d, hd, ?_⟩
    apply label_inj
    rw [stamp_labels h hh d hd]
    apply List.ext_getElem
    · rw [hlen, List.length_cons, List.length_replicate]
    · intro i hi hi'
      cases i with
      | zero => exact heq
      | succ i =>
        have hsame := hall (i + 1) (by omega) (Nat.succ_pos i)
        rw [digitAt_label t hi, digitAt_label t h1, hdeq] at hsame
        rw [hsame, List.getElem_cons_succ, List.getElem_replicate]
  · rintro ⟨h, hh, d, hd, rfl⟩
    have hlabel := stamp_labels h hh d hd
    have hdigit (j : ℕ) (hj : j < 23) : digitAt (label (stamp h d)) (j + 1) = byteAt hex d := by
      rw [digitAt_label _ (by omega)]
      simp only [hlabel, List.getElem_cons_succ, List.getElem_replicate]
    intro j hj hpos
    obtain ⟨i, rfl⟩ := Nat.exists_eq_add_of_le' hpos
    rw [hdigit i (by omega), hdigit 0 (by decide)]

/-- A label or stamp is restored where all its digits but the first are the same. -/
theorem tain_hex_iff (t : Tain) (s : HexLabel) :
    (RestoresStamp t ↔ ∃ h < 16, ∃ d < 16, t = stamp h d) ∧
      (RestoresLabel s ↔ ∀ j < 24, 1 ≤ j → digitAt s j = digitAt s 1) := by
  constructor
  · rw [restoresStamp_iff, restoresLabel_iff, repeats_iff]
  · exact restoresLabel_iff s

/-- The start of the epoch of UTC -/
theorem tain_hex_loses_second : ¬ RestoresStamp ⟨4611686018427387914, 0⟩ := by
  intro h
  have hsec := congrArg Tain.sec h
  revert hsec
  decide +kernel

end Perp.TainHex
