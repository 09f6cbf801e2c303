import Mathlib.Algebra.Order.Ring.Nat
import Mathlib.Data.UInt
import Mathlib.Tactic.Common

set_option autoImplicit false

/-!
# Base-64 encoding

`tx64_encode()`, over any encoding vector.
-/
namespace Perp.Tx64

/-- An encoding vector; its last character is the padding. -/
structure Vec where
  chars : List UInt8
  length : chars.length = 65
  nodup : chars.Nodup

/-- A string of bytes, of which the encoding has a size -/
structure Source where
  bytes : List UInt8
  fits : (bytes.length + 2) / 3 * 4 < 2 ^ 64

def Vec.at (vec : Vec) (i : ℕ) : UInt8 := vec.chars.getD i 0

/-! ## The function -/

/-- `flags & TX64_NOPAD`, with `dest` NULL -/
def encodeSize (nopad : Bool) (len : UInt64) : UInt64 :=
  if nopad then ((len / 3) * 4) + ((((len % 3) * 4) + 2) / 3) else ((len + 2) / 3) * 4

/-- `while(bits > 6)`: the bits that are left, and `dest` -/
def drain (vec : Vec) (temp : UInt32) : ℕ → List UInt8 → ℕ × List UInt8
  | bits, dest =>
    if bits > 6 then
      drain vec temp (bits - 6) (dest ++ [vec.at ((temp >>> UInt32.ofNat (bits - 6)) &&& 63).toNat])
    else (bits, dest)

/-- `bits`, `temp`, and what is written to `dest` so far -/
structure State where
  bits : ℕ
  temp : UInt32
  dest : List UInt8

/-- A pass of the loop over `src` -/
def encodeByte (vec : Vec) (s : State) (c : UInt8) : State :=
  let temp := (s.temp <<< 8) + c.toUInt32
  let out := drain vec temp (s.bits + 8) s.dest
  ⟨out.1, temp, out.2⟩

/-- `while(w % 4)` -/
def padTo4 (vec : Vec) (dest : List UInt8) : List UInt8 :=
  if dest.length % 4 ≠ 0 then padTo4 vec (dest ++ [vec.at 64]) else dest
termination_by (4 - dest.length % 4) % 4
decreasing_by
  rw [List.length_append, List.length_singleton]
  omega

/-- What is behind the loop -/
def finish (vec : Vec) (nopad : Bool) (s : State) : List UInt8 :=
  let dest :=
    if s.bits ≠ 0 then s.dest ++ [vec.at ((s.temp <<< UInt32.ofNat (6 - s.bits)) &&& 63).toNat]
    else s.dest
  if nopad then dest else padTo4 vec dest

/-- `tx64_encode()`: what is written to `dest`, of which the length is returned -/
def tx64Encode (src : List UInt8) (vec : Vec) (nopad : Bool) : List UInt8 :=
  finish vec nopad (src.foldl (encodeByte vec) ⟨0, 0, []⟩)

/-! ## RFC 4648 -/

/-- The groups of 24 bits as four numbers each; the last group may be of one or two bytes. -/
def sextets : List UInt8 → List ℕ
  | [] => []
  | [a] => [a.toNat / 4, a.toNat % 4 * 16]
  | [a, b] => [a.toNat / 4, a.toNat % 4 * 16 + b.toNat / 16, b.toNat % 16 * 4]
  | a :: b :: c :: src =>
    a.toNat / 4 :: (a.toNat % 4 * 16 + b.toNat / 16) :: (b.toNat % 16 * 4 + c.toNat / 64) ::
      c.toNat % 64 :: sextets src

/-- How many characters are missing in the last group -/
def padding (len : ℕ) : ℕ := (3 - len % 3) % 3

def base64 (vec : Vec) (nopad : Bool) (src : List UInt8) : List UInt8 :=
  (sextets src).map vec.at ++ if nopad then [] else List.replicate (padding src.length) (vec.at 64)

/-- The bytes of the groups -/
def fromSextets : List ℕ → List UInt8
  | w :: x :: y :: z :: rest =>
    UInt8.ofNat (w * 4 + x / 16) :: UInt8.ofNat (x * 16 + y / 4) :: UInt8.ofNat (y * 64 + z) ::
      fromSextets rest
  | [w, x, y] => [UInt8.ofNat (w * 4 + x / 16), UInt8.ofNat (x * 16 + y / 4)]
  | [w, x] => [UInt8.ofNat (w * 4 + x / 16)]
  | _ => []

def decode (vec : Vec) (text : List UInt8) : List UInt8 :=
  fromSextets ((text.takeWhile (· ≠ vec.at 64)).map (vec.chars.idxOf ·))

/-- The encoding is as RFC 4648 has it, of the size that is reported, and decodes to the source. -/
structure Encodes (vec : Vec) (nopad : Bool) (src : Source) : Prop where
  encoding : tx64Encode src.bytes vec nopad = base64 vec nopad src.bytes
  size : (encodeSize nopad (UInt64.ofNat src.bytes.length)).toNat =
    (tx64Encode src.bytes vec nopad).length
  decodes : decode vec (tx64Encode src.bytes vec nopad) = src.bytes

variable {vec : Vec} {s : State} {src : List UInt8} {c : UInt8}

/-! ## The loop -/

theorem shiftIn_toNat (temp : UInt32) (c : UInt8) :
    ((temp <<< 8) + c.toUInt32).toNat = (temp.toNat * 256 + c.toNat) % 2 ^ 32 := by
  simp [Nat.shiftLeft_eq]

theorem sextet_right (temp : UInt32) {k : ℕ} (hk : k < 32) :
    ((temp >>> UInt32.ofNat k) &&& 63).toNat = temp.toNat / 2 ^ k % 64 := by
  have hshift : (UInt32.ofNat k).toNat % 32 = k := by
    rw [UInt32.toNat_ofNat']
    omega
  rw [UInt32.toNat_and, UInt32.toNat_shiftRight, hshift, Nat.shiftRight_eq_div_pow]
  exact Nat.and_two_pow_sub_one_eq_mod _ 6

theorem sextet_left (temp : UInt32) {k : ℕ} (hk : k < 32) :
    ((temp <<< UInt32.ofNat k) &&& 63).toNat = temp.toNat * 2 ^ k % 64 := by
  have hshift : (UInt32.ofNat k).toNat % 32 = k := by
    rw [UInt32.toNat_ofNat']
    omega
  rw [UInt32.toNat_and, UInt32.toNat_shiftLeft, hshift, Nat.shiftLeft_eq]
  refine (Nat.and_two_pow_sub_one_eq_mod _ 6).trans ?_
  exact Nat.mod_mod_of_dvd _ (by decide)

theorem drain_done (temp : UInt32) {bits : ℕ} (h : bits ≤ 6) (dest : List UInt8) :
    drain vec temp bits dest = (bits, dest) := by
  rw [drain, if_neg (Nat.not_lt.mpr h)]

theorem drain_once (temp : UInt32) {bits : ℕ} (h : 6 < bits) (hle : bits ≤ 12) (dest : List UInt8) :
    drain vec temp bits dest = (bits - 6, dest ++ [vec.at (temp.toNat / 2 ^ (bits - 6) % 64)]) := by
  rw [drain, if_pos h, sextet_right temp (by omega), drain_done temp (by omega)]

theorem drain_twice (temp : UInt32) {bits : ℕ} (h : 12 < bits) (hle : bits ≤ 18) (dest : List UInt8) :
    drain vec temp bits dest = (bits - 12, dest ++ [vec.at (temp.toNat / 2 ^ (bits - 6) % 64)] ++
      [vec.at (temp.toNat / 2 ^ (bits - 12) % 64)]) := by
  rw [drain, if_pos (by omega), sextet_right temp (by omega), drain_once temp (by omega) (by omega),
    Nat.sub_sub]

/-- The first byte of a group, which finds nothing left -/
theorem encodeByte_zero (temp : UInt32) (dest : List UInt8) (c : UInt8) :
    ∃ temp', temp'.toNat % 4 = c.toNat % 4 ∧
      encodeByte vec ⟨0, temp, dest⟩ c = ⟨2, temp', dest ++ [vec.at (c.toNat / 4)]⟩ := by
  have hc := c.toNat_lt
  have hshift := shiftIn_toNat temp c
  generalize htemp : (temp <<< 8) + c.toUInt32 = temp' at hshift
  have hsextet : temp'.toNat / 2 ^ 2 % 64 = c.toNat / 4 := by omega
  have hdrain : drain vec temp' 8 dest = (2, dest ++ [vec.at (c.toNat / 4)]) := by
    rw [drain_once temp' (by decide) (by decide), hsextet]
  use temp'
  constructor
  · omega
  · simp only [encodeByte, htemp, hdrain]

/-- The first byte of a group, which finds the last number of the group before -/
theorem encodeByte_six (temp : UInt32) (dest : List UInt8) (c : UInt8) :
    ∃ temp', temp'.toNat % 4 = c.toNat % 4 ∧
      encodeByte vec ⟨6, temp, dest⟩ c =
        ⟨2, temp', dest ++ [vec.at (temp.toNat % 64)] ++ [vec.at (c.toNat / 4)]⟩ := by
  have hc := c.toNat_lt
  have hshift := shiftIn_toNat temp c
  generalize htemp : (temp <<< 8) + c.toUInt32 = temp' at hshift
  have hfirst : temp'.toNat / 2 ^ 8 % 64 = temp.toNat % 64 := by omega
  have hsecond : temp'.toNat / 2 ^ 2 % 64 = c.toNat / 4 := by omega
  have hdrain : drain vec temp' 14 dest =
      (2, dest ++ [vec.at (temp.toNat % 64)] ++ [vec.at (c.toNat / 4)]) := by
    rw [drain_twice temp' (by decide) (by decide), hfirst, hsecond]
  use temp'
  constructor
  · omega
  · simp only [encodeByte, htemp, hdrain]

theorem encodeByte_two (temp : UInt32) (dest : List UInt8) (c : UInt8) :
    ∃ temp', temp'.toNat % 16 = c.toNat % 16 ∧
      encodeByte vec ⟨2, temp, dest⟩ c =
        ⟨4, temp', dest ++ [vec.at (temp.toNat % 4 * 16 + c.toNat / 16)]⟩ := by
  have hc := c.toNat_lt
  have hshift := shiftIn_toNat temp c
  generalize htemp : (temp <<< 8) + c.toUInt32 = temp' at hshift
  have hsextet : temp'.toNat / 2 ^ 4 % 64 = temp.toNat % 4 * 16 + c.toNat / 16 := by omega
  have hdrain : drain vec temp' 10 dest =
      (4, dest ++ [vec.at (temp.toNat % 4 * 16 + c.toNat / 16)]) := by
    rw [drain_once temp' (by decide) (by decide), hsextet]
  use temp'
  constructor
  · omega
  · simp only [encodeByte, htemp, hdrain]

theorem encodeByte_four (temp : UInt32) (dest : List UInt8) (c : UInt8) :
    ∃ temp', temp'.toNat % 64 = c.toNat % 64 ∧
      encodeByte vec ⟨4, temp, dest⟩ c =
        ⟨6, temp', dest ++ [vec.at (temp.toNat % 16 * 4 + c.toNat / 64)]⟩ := by
  have hc := c.toNat_lt
  have hshift := shiftIn_toNat temp c
  generalize htemp : (temp <<< 8) + c.toUInt32 = temp' at hshift
  have hsextet : temp'.toNat / 2 ^ 6 % 64 = temp.toNat % 16 * 4 + c.toNat / 64 := by omega
  have hdrain : drain vec temp' 12 dest =
      (6, dest ++ [vec.at (temp.toNat % 16 * 4 + c.toNat / 64)]) := by
    rw [drain_once temp' (by decide) (by decide), hsextet]
  use temp'
  constructor
  · omega
  · simp only [encodeByte, htemp, hdrain]

theorem finish_left (temp : UInt32) (dest : List UInt8) {bits : ℕ} (h : bits ≠ 0) :
    finish vec true ⟨bits, temp, dest⟩ = dest ++ [vec.at (temp.toNat * 2 ^ (6 - bits) % 64)] := by
  have hsextet := sextet_left temp (Nat.lt_of_le_of_lt (Nat.sub_le 6 bits) (by decide))
  rw [← hsextet, finish, if_pos h]
  rfl

/-- The number that a group leaves in the register -/
def pending (s : State) : List ℕ := if s.bits = 6 then [s.temp.toNat % 64] else []

theorem pending_zero (temp : UInt32) (dest : List UInt8) : pending ⟨0, temp, dest⟩ = [] := rfl

theorem pending_six (temp : UInt32) (dest : List UInt8) :
    pending ⟨6, temp, dest⟩ = [temp.toNat % 64] := rfl

theorem encodeByte_first (h : s.bits = 0 ∨ s.bits = 6) (c : UInt8) :
    ∃ temp', temp'.toNat % 4 = c.toNat % 4 ∧
      encodeByte vec s c =
        ⟨2, temp', s.dest ++ (pending s).map vec.at ++ [vec.at (c.toNat / 4)]⟩ := by
  obtain ⟨bits, temp, dest⟩ := s
  rcases h with h | h
  · obtain rfl : bits = 0 := h
    obtain ⟨temp', htemp, hbyte⟩ := encodeByte_zero temp dest c
    refine ⟨temp', htemp, ?_⟩
    rw [hbyte, pending_zero, List.map_nil, List.append_nil]
  · obtain rfl : bits = 6 := h
    exact encodeByte_six temp dest c

/-- The groups of the source, from the start of a group on -/
theorem foldl_groups (h : s.bits = 0 ∨ s.bits = 6) (src : List UInt8) :
    finish vec true (src.foldl (encodeByte vec) s) =
      s.dest ++ (pending s).map vec.at ++ (sextets src).map vec.at := by
  induction src using sextets.induct generalizing s with
  | case1 =>
    obtain ⟨bits, temp, dest⟩ := s
    rw [sextets, List.map_nil, List.append_nil, List.foldl_nil]
    rcases h with h | h
    · obtain rfl : bits = 0 := h
      rw [pending_zero, List.map_nil, List.append_nil]
      rfl
    · obtain rfl : bits = 6 := h
      rw [finish_left temp dest (by decide), Nat.sub_self, Nat.pow_zero, Nat.mul_one]
      rfl
  | case2 a =>
    obtain ⟨temp₁, h₁, ha⟩ := @encodeByte_first vec s h a
    have hlast : temp₁.toNat * 2 ^ (6 - 2) % 64 = a.toNat % 4 * 16 := by omega
    rw [List.foldl_cons, ha, List.foldl_nil, finish_left _ _ (by decide), hlast, List.append_assoc]
    rfl
  | case3 a b =>
    obtain ⟨temp₁, h₁, ha⟩ := @encodeByte_first vec s h a
    obtain ⟨temp₂, h₂, hb⟩ := @encodeByte_two vec temp₁ (s.dest ++ (pending s).map vec.at ++
      [vec.at (a.toNat / 4)]) b
    have hlast : temp₂.toNat * 2 ^ (6 - 4) % 64 = b.toNat % 16 * 4 := by omega
    rw [List.foldl_cons, ha, List.foldl_cons, hb, List.foldl_nil, finish_left _ _ (by decide), hlast, h₁,
      List.append_assoc, List.append_assoc]
    rfl
  | case4 a b c src ih =>
    obtain ⟨temp₁, h₁, ha⟩ := @encodeByte_first vec s h a
    obtain ⟨temp₂, h₂, hb⟩ := @encodeByte_two vec temp₁ (s.dest ++ (pending s).map vec.at ++
      [vec.at (a.toNat / 4)]) b
    obtain ⟨temp₃, h₃, hc⟩ := @encodeByte_four vec temp₂ (s.dest ++ (pending s).map vec.at ++
      [vec.at (a.toNat / 4)] ++ [vec.at (temp₁.toNat % 4 * 16 + b.toNat / 16)]) c
    rw [List.foldl_cons, ha, List.foldl_cons, hb, List.foldl_cons, hc, ih (.inr rfl), pending_six,
      h₁, h₂, h₃, sextets]
    simp

/-! ## Sizes and padding -/

theorem third (n : ℕ) : n % 3 = 0 ∨ n % 3 = 1 ∨ n % 3 = 2 := by omega

theorem sextets_length (src : List UInt8) : (sextets src).length = (src.length * 4 + 2) / 3 := by
  induction src using sextets.induct with
  | case1 => rfl
  | case2 a => simp [sextets]
  | case3 a b => simp [sextets]
  | case4 a b c src ih =>
    simp only [sextets, List.length_cons, ih]
    omega

theorem padTo4_eq (vec : Vec) (dest : List UInt8) :
    padTo4 vec dest = dest ++ List.replicate ((4 - dest.length % 4) % 4) (vec.at 64) := by
  induction dest using padTo4.induct vec with
  | case1 dest h ih =>
    have hcount : (4 - dest.length % 4) % 4 = (4 - (dest.length + 1) % 4) % 4 + 1 := by omega
    rw [padTo4, if_pos h, ih, List.length_append, List.length_singleton, hcount, List.replicate_succ,
      List.append_assoc, List.singleton_append]
  | case2 dest h =>
    have hcount : (4 - dest.length % 4) % 4 = 0 := by omega
    rw [padTo4, if_neg h, hcount, List.replicate_zero, List.append_nil]

theorem tx64Encode_eq (vec : Vec) (nopad : Bool) (src : List UInt8) :
    tx64Encode src vec nopad = base64 vec nopad src := by
  have hgroups := @foldl_groups vec ⟨0, 0, []⟩ (.inl rfl) src
  rw [pending_zero, List.map_nil, List.nil_append, List.nil_append] at hgroups
  cases nopad with
  | true => rw [tx64Encode, hgroups, base64, if_pos rfl, List.append_nil]
  | false =>
    have hpad : tx64Encode src vec false = padTo4 vec (tx64Encode src vec true) := rfl
    have hcount : (4 - ((sextets src).map vec.at).length % 4) % 4 = padding src.length := by
      rw [List.length_map, sextets_length, padding]
      rcases third src.length with h | h | h <;> omega
    rw [hpad, tx64Encode, hgroups, padTo4_eq, hcount, base64]
    rfl

theorem base64_length (vec : Vec) (nopad : Bool) (src : List UInt8) :
    (base64 vec nopad src).length =
      if nopad then (src.length * 4 + 2) / 3 else (src.length + 2) / 3 * 4 := by
  rw [base64, List.length_append, List.length_map, sextets_length]
  cases nopad with
  | true => rfl
  | false =>
    change _ + (List.replicate (padding src.length) (vec.at 64)).length = (src.length + 2) / 3 * 4
    rw [List.length_replicate, padding]
    rcases third src.length with h | h | h <;> omega

theorem encodeSize_eq (nopad : Bool) (src : Source) :
    (encodeSize nopad (UInt64.ofNat src.bytes.length)).toNat =
      if nopad then (src.bytes.length * 4 + 2) / 3 else (src.bytes.length + 2) / 3 * 4 := by
  have hfits := src.fits
  have hlen : (UInt64.ofNat src.bytes.length).toNat = src.bytes.length := by
    rw [UInt64.toNat_ofNat']
    omega
  generalize UInt64.ofNat src.bytes.length = len at hlen
  rw [encodeSize, ← hlen]
  rw [← hlen] at hfits
  cases nopad with
  | true =>
    change (len / 3 * 4 + (len % 3 * 4 + 2) / 3).toNat = (len.toNat * 4 + 2) / 3
    simp only [UInt64.toNat_add, UInt64.toNat_mul, UInt64.toNat_div, UInt64.toNat_mod, UInt64.reduceToNat]
    have hthirds : len.toNat / 3 * 4 % 2 ^ 64 = len.toNat / 3 * 4 := Nat.mod_eq_of_lt (by omega)
    rw [hthirds]
    rcases third len.toNat with h | h | h <;> rw [h] <;> omega
  | false =>
    change ((len + 2) / 3 * 4).toNat = (len.toNat + 2) / 3 * 4
    simp only [UInt64.toNat_add, UInt64.toNat_mul, UInt64.toNat_div, UInt64.reduceToNat]
    have hsum : (len.toNat + 2) % 2 ^ 64 = len.toNat + 2 := Nat.mod_eq_of_lt (by omega)
    rw [hsum, Nat.mod_eq_of_lt hfits]

/-! ## Decoding -/

theorem sextets_lt (src : List UInt8) : ∀ i ∈ sextets src, i < 64 := by
  induction src using sextets.induct with
  | case1 => exact fun i hi => absurd hi List.not_mem_nil
  | case2 a =>
    have ha := a.toNat_lt
    simp [sextets]
    omega
  | case3 a b =>
    have ha := a.toNat_lt
    have hb := b.toNat_lt
    simp [sextets]
    omega
  | case4 a b c src ih =>
    have ha := a.toNat_lt
    have hb := b.toNat_lt
    have hc := c.toNat_lt
    simp only [sextets, List.forall_mem_cons]
    refine ⟨?_, ?_, ?_, ?_, ih⟩ <;> omega

theorem byte_join (a : UInt8) {n : ℕ} (h : n % 256 = a.toNat) : UInt8.ofNat n = a := by
  apply UInt8.toNat_inj.mp
  rw [UInt8.toNat_ofNat']
  exact h

theorem fromSextets_sextets (src : List UInt8) : fromSextets (sextets src) = src := by
  induction src using sextets.induct with
  | case1 => rfl
  | case2 a =>
    have ha := a.toNat_lt
    rw [sextets, fromSextets, byte_join a (by omega)]
  | case3 a b =>
    have ha := a.toNat_lt
    have hb := b.toNat_lt
    rw [sextets, fromSextets, byte_join a (by omega), byte_join b (by omega)]
  | case4 a b c src ih =>
    have ha := a.toNat_lt
    have hb := b.toNat_lt
    have hc := c.toNat_lt
    rw [sextets, fromSextets, ih, byte_join a (by omega), byte_join b (by omega), byte_join c (by omega)]

theorem idxOf_at (vec : Vec) {i : ℕ} (h : i < 65) : vec.chars.idxOf (vec.at i) = i := by
  have hi : i < vec.chars.length := by rw [vec.length]; exact h
  rw [Vec.at, List.getD_eq_getElem?_getD, List.getElem?_eq_getElem hi, Option.getD_some]
  exact vec.nodup.idxOf_getElem i hi

theorem at_ne_pad (vec : Vec) {i : ℕ} (h : i < 64) : vec.at i ≠ vec.at 64 := by
  intro heq
  have hi := idxOf_at vec (Nat.lt_succ_of_lt h)
  rw [heq, idxOf_at vec (by decide)] at hi
  omega

theorem decode_base64 (vec : Vec) (nopad : Bool) (src : List UInt8) :
    decode vec (base64 vec nopad src) = src := by
  have hlt := sextets_lt src
  have hnone : ∀ c ∈ (sextets src).map vec.at, decide (c ≠ vec.at 64) = true := by
    intro c hc
    obtain ⟨i, hi, rfl⟩ := List.mem_map.mp hc
    exact decide_eq_true (at_ne_pad vec (hlt i hi))
  have hstop (n : ℕ) : (List.replicate n (vec.at 64)).takeWhile (fun c => decide (c ≠ vec.at 64)) = [] := by
    cases n <;> simp [List.replicate_succ]
  have htext : (base64 vec nopad src).takeWhile (fun c => decide (c ≠ vec.at 64)) =
      (sextets src).map vec.at := by
    rw [base64, List.takeWhile_append_of_pos hnone]
    cases nopad with
    | true => rw [if_pos rfl, List.takeWhile_nil, List.append_nil]
    | false => exact (congrArg _ (hstop _)).trans (List.append_nil _)
  have hback : ((sextets src).map vec.at).map (vec.chars.idxOf ·) = sextets src := by
    rw [List.map_map]
    calc (sextets src).map ((vec.chars.idxOf ·) ∘ vec.at) = (sextets src).map id := by
          apply List.map_congr_left
          intro i hi
          exact idxOf_at vec (Nat.lt_succ_of_lt (hlt i hi))
      _ = sextets src := List.map_id _
  rw [decode, htext, hback, fromSextets_sextets]

/-- Every source is encoded right, with and without padding. -/
theorem tx64_encode_right (vec : Vec) (nopad : Bool) (src : Source) : Encodes vec nopad src where
  encoding := tx64Encode_eq vec nopad src.bytes
  size := by rw [encodeSize_eq, tx64Encode_eq, base64_length]
  decodes := by rw [tx64Encode_eq, decode_base64]

end Perp.Tx64
