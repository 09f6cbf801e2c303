import Perp.ByteOrder
import Perp.HdbFormat
import Perp.Inplace
import Perp.PerpdClient

set_option autoImplicit false

/-!
# Packed integers

`lasagna/upak`: the functions and macros of fixed widths, and `upak_pack()` and
`upak_unpack()`, which take a format.
-/
namespace Perp.Upak
open ByteOrder Inplace
open Pkt (byteAt)

/-! ## Fixed widths -/

def upak16Pack (u : UInt16) : List UInt8 := [(u &&& 255).toUInt8, (u >>> 8).toUInt8]

def upak24Pack (u : UInt32) : List UInt8 :=
  let b0 := u &&& 255
  let u := u >>> 8
  let b1 := u &&& 255
  let u := u >>> 8
  let b2 := u &&& 255
  [b0.toUInt8, b1.toUInt8, b2.toUInt8]

def upak32Pack (u : UInt32) : List UInt8 :=
  let b0 := u &&& 255
  let u := u >>> 8
  let b1 := u &&& 255
  let u := u >>> 8
  let b2 := u &&& 255
  let b3 := u >>> 8
  [b0.toUInt8, b1.toUInt8, b2.toUInt8, b3.toUInt8]

def upak64Pack (u : UInt64) : List UInt8 :=
  let b0 := u &&& 255
  let u := u >>> 8
  let b1 := u &&& 255
  let u := u >>> 8
  let b2 := u &&& 255
  let u := u >>> 8
  let b3 := u &&& 255
  let u := u >>> 8
  let b4 := u &&& 255
  let u := u >>> 8
  let b5 := u &&& 255
  let u := u >>> 8
  let b6 := u &&& 255
  let b7 := u >>> 8
  [b0.toUInt8, b1.toUInt8, b2.toUInt8, b3.toUInt8, b4.toUInt8, b5.toUInt8, b6.toUInt8, b7.toUInt8]

def upak16Unpack (b : List UInt8) : UInt16 :=
  let u := (byteAt b 1).toUInt16
  let u := u <<< 8
  u + (byteAt b 0).toUInt16

/-- `u <<= 8; u += c;` -/
def shiftIn32 (u : UInt32) (c : UInt8) : UInt32 := (u <<< 8) + c.toUInt32

def shiftIn64 (u : UInt64) (c : UInt8) : UInt64 := (u <<< 8) + c.toUInt64

def upak24Unpack (b : List UInt8) : UInt32 :=
  let u := (byteAt b 2).toUInt32
  let u := shiftIn32 u (byteAt b 1)
  shiftIn32 u (byteAt b 0)

def upak32Unpack (b : List UInt8) : UInt32 :=
  let u := (byteAt b 3).toUInt32
  let u := shiftIn32 u (byteAt b 2)
  let u := shiftIn32 u (byteAt b 1)
  shiftIn32 u (byteAt b 0)

def upak64Unpack (b : List UInt8) : UInt64 :=
  let u := (byteAt b 7).toUInt64
  let u := shiftIn64 u (byteAt b 6)
  let u := shiftIn64 u (byteAt b 5)
  let u := shiftIn64 u (byteAt b 4)
  let u := shiftIn64 u (byteAt b 3)
  let u := shiftIn64 u (byteAt b 2)
  let u := shiftIn64 u (byteAt b 1)
  shiftIn64 u (byteAt b 0)

/-- The macro `upak16_UNPACK()`, with the 32 bits of the `int` that its operands become -/
def upak16UNPACK (b : List UInt8) : UInt32 :=
  ((byteAt b 1).toUInt16.toUInt32 <<< 8) + (byteAt b 0).toUInt16.toUInt32

def upak24UNPACK (b : List UInt8) : UInt32 :=
  ((byteAt b 2).toUInt32 <<< 16) + ((byteAt b 1).toUInt32 <<< 8) + (byteAt b 0).toUInt32

def upak32UNPACK (b : List UInt8) : UInt32 :=
  ((byteAt b 3).toUInt32 <<< 24) + ((byteAt b 2).toUInt32 <<< 16) + ((byteAt b 1).toUInt32 <<< 8) +
    (byteAt b 0).toUInt32

def upak64UNPACK (b : List UInt8) : UInt64 :=
  ((byteAt b 7).toUInt64 <<< 56) + ((byteAt b 6).toUInt64 <<< 48) + ((byteAt b 5).toUInt64 <<< 40) +
    ((byteAt b 4).toUInt64 <<< 32) + ((byteAt b 3).toUInt64 <<< 24) +
    ((byteAt b 2).toUInt64 <<< 16) + ((byteAt b 1).toUInt64 <<< 8) + (byteAt b 0).toUInt64

/-! ## Formats -/

/-- What a `va_arg()` of `upak_pack()` can take -/
inductive Arg where
  | int (i : Int32)
  | u32 (u : UInt32)
  | u64 (u : UInt64)
  deriving DecidableEq, Repr

/-- A destination of `upak_unpack()`: NULL, or a variable with its value -/
inductive Dest where
  | u8 (p : Option UInt8)
  | u16 (p : Option UInt16)
  | u32 (p : Option UInt32)
  | u64 (p : Option UInt64)
  deriving DecidableEq, Repr

/-- The cases of the two switches -/
inductive Width where
  | char
  | short
  | long
  | longLong
  deriving DecidableEq, Repr

/-- The case of a format character; none is the default. -/
def widthOf (p : UInt8) : Option Width :=
  if p = 98 ∨ p = 99 then some .char
  else if p = 115 then some .short
  else if p = 100 then some .long
  else if p = 76 then some .longLong
  else none

def Width.size : Width → ℕ
  | .char => 1
  | .short => 2
  | .long => 4
  | .longLong => 8

/-- What a case of `upak_pack()` stores; none is an argument of another type. -/
def stored : Width → Arg → Option (List UInt8)
  | .char, .int i => some [i.toUInt32.toUInt8]
  | .short, .int i =>
    let u16 := i.toUInt32.toUInt16
    some [(u16 &&& 255).toUInt8, (u16 >>> 8).toUInt8]
  | .long, .u32 u =>
    let b0 := u &&& 255
    let u := u >>> 8
    let b1 := u &&& 255
    let u := u >>> 8
    let b2 := u &&& 255
    let u := u >>> 8
    some [b0.toUInt8, b1.toUInt8, b2.toUInt8, u.toUInt8]
  | .longLong, .u64 u =>
    let b0 := u &&& 255
    let u := u >>> 8
    let b1 := u &&& 255
    let u := u >>> 8
    let b2 := u &&& 255
    let u := u >>> 8
    let b3 := u &&& 255
    let u := u >>> 8
    let b4 := u &&& 255
    let u := u >>> 8
    let b5 := u &&& 255
    let u := u >>> 8
    let b6 := u &&& 255
    let u := u >>> 8
    some [b0.toUInt8, b1.toUInt8, b2.toUInt8, b3.toUInt8, b4.toUInt8, b5.toUInt8, b6.toUInt8, u.toUInt8]
  | _, _ => none

/-- The loop of `upak_pack()`; none is also a store outside the buffer. -/
def packLoop : List UInt8 → List Arg → List UInt8 → ℕ → Option (ℤ × List UInt8)
  | [], _, buf, b => some (b, buf)
  | p :: fmt, args, buf, b =>
    match widthOf p with
    | none => some (-1, buf)
    | some w => do
      let bytes ← stored w (← args.head?)
      let buf ← storeAll buf b bytes
      packLoop fmt args.tail buf (b + bytes.length)

def upakPack (buf fmt : List UInt8) (args : List Arg) : Option (ℤ × List UInt8) :=
  packLoop fmt args buf 0

/-- What a case of `upak_unpack()` makes of its destination, from the buffer at `b`. The
statements are those of `upakNN_unpack()`. -/
def loaded : Width → Dest → List UInt8 → Option Dest
  | .char, .u8 p, b =>
    if p = none then some (.u8 none) else if 1 ≤ b.length then some (.u8 (some (byteAt b 0))) else none
  | .short, .u16 p, b =>
    if p = none then some (.u16 none)
    else if 2 ≤ b.length then some (.u16 (some (upak16Unpack b))) else none
  | .long, .u32 p, b =>
    if p = none then some (.u32 none)
    else if 4 ≤ b.length then some (.u32 (some (upak32Unpack b))) else none
  | .longLong, .u64 p, b =>
    if p = none then some (.u64 none)
    else if 8 ≤ b.length then some (.u64 (some (upak64Unpack b))) else none
  | _, _, _ => none

/-- The loop of `upak_unpack()`, with the destinations as it leaves them -/
def unpackLoop (buf : List UInt8) : List UInt8 → List Dest → ℕ → Option (ℤ × List Dest)
  | [], dests, b => some (b, dests)
  | p :: fmt, dests, b =>
    match widthOf p with
    | none => some (-1, dests)
    | some w => do
      let d ← loaded w (← dests.head?) (buf.drop b)
      let out ← unpackLoop buf fmt dests.tail (b + w.size)
      return (out.1, d :: out.2)

def upakUnpack (buf fmt : List UInt8) (dests : List Dest) : Option (ℤ × List Dest) :=
  unpackLoop buf fmt dests 0

/-! ## What they are for -/

/-- A format character with its value -/
inductive Field where
  | b (v : UInt8)
  | c (v : UInt8)
  | s (v : UInt16)
  | d (v : UInt32)
  | L (v : UInt64)
  deriving DecidableEq, Repr

def Field.letter : Field → UInt8
  | .b _ => 98
  | .c _ => 99
  | .s _ => 115
  | .d _ => 100
  | .L _ => 76

/-- The argument, of which a small one is promoted to `int` -/
def Field.arg : Field → Arg
  | .b v | .c v => .int v.toUInt32.toInt32
  | .s v => .int v.toUInt32.toInt32
  | .d v => .u32 v
  | .L v => .u64 v

/-- The bytes of the value, the lowest first -/
def Field.bytes : Field → List UInt8
  | .b v | .c v => toBytes 1 v.toNat
  | .s v => toBytes 2 v.toNat
  | .d v => toBytes 4 v.toNat
  | .L v => toBytes 8 v.toNat

/-- A destination for the value: a variable that holds `old`, or NULL -/
def Field.dest (f : Field) (old : Option UInt64) : Dest :=
  match f with
  | .b _ | .c _ => .u8 (old.map (·.toUInt8))
  | .s _ => .u16 (old.map (·.toUInt16))
  | .d _ => .u32 (old.map (·.toUInt32))
  | .L _ => .u64 old

/-- The destination with the value in it, unless it is NULL -/
def Field.recovered (f : Field) (old : Option UInt64) : Dest :=
  match f with
  | .b v | .c v => .u8 (old.map fun _ => v)
  | .s v => .u16 (old.map fun _ => v)
  | .d v => .u32 (old.map fun _ => v)
  | .L v => .u64 (old.map fun _ => v)

def format (fields : List Field) : List UInt8 := fields.map Field.letter

def packed (fields : List Field) : List UInt8 := fields.flatMap Field.bytes

/-- The values are stored one after the other, and nothing behind them. -/
def Packs (fields : List Field) : Prop :=
  ∀ buf, (packed fields).length ≤ buf.length →
    upakPack buf (format fields) (fields.map Field.arg) =
      some (((packed fields).length : ℤ), packed fields ++ buf.drop (packed fields).length)

/-- They are recovered where there is a destination for them. -/
def Unpacks (fields : List Field) : Prop :=
  ∀ (olds : List (Option UInt64)) (rest : List UInt8), olds.length = fields.length →
    upakUnpack (packed fields ++ rest) (format fields) (List.zipWith Field.dest fields olds) =
      some (((packed fields).length : ℤ), List.zipWith Field.recovered fields olds)

/-- Another format character, after these, is an error. -/
def Refuses (fields : List Field) : Prop :=
  ∀ p fmt, p ∉ [98, 99, 115, 100, 76] →
    (∀ buf args, (packed fields).length ≤ buf.length →
      ∃ buf', upakPack buf (format fields ++ p :: fmt) (fields.map Field.arg ++ args) =
        some (-1, buf')) ∧
    ∀ olds rest dests, olds.length = fields.length →
      ∃ dests', upakUnpack (packed fields ++ rest) (format fields ++ p :: fmt)
        (List.zipWith Field.dest fields olds ++ dests) = some (-1, dests')

/-- The functions and macros of fixed widths are the letters of a format. -/
structure FixedForms : Prop where
  pack16 : ∀ u, upak16Pack u = (Field.s u).bytes
  pack32 : ∀ u, upak32Pack u = (Field.d u).bytes
  pack64 : ∀ u, upak64Pack u = (Field.L u).bytes
  unpack16 : ∀ u rest, upak16Unpack ((Field.s u).bytes ++ rest) = u
  unpack32 : ∀ u rest, upak32Unpack ((Field.d u).bytes ++ rest) = u
  unpack64 : ∀ u rest, upak64Unpack ((Field.L u).bytes ++ rest) = u
  macro16 : ∀ b, upak16UNPACK b = (upak16Unpack b).toUInt32
  macro32 : ∀ b, upak32UNPACK b = upak32Unpack b
  macro64 : ∀ b, upak64UNPACK b = upak64Unpack b
  pack24 : ∀ u, upak24Pack u = toBytes 3 u.toNat
  unpack24 : ∀ (u : UInt32) rest, u.toNat < 2 ^ 24 → upak24Unpack (toBytes 3 u.toNat ++ rest) = u
  macro24 : ∀ b, upak24UNPACK b = upak24Unpack b

/-! ## The fixed forms -/

section
variable {b : List UInt8}

theorem low (n : ℕ) : UInt8.ofNat (n &&& 255) = UInt8.ofNat n := by
  apply UInt8.toNat_inj.mp
  rw [UInt8.toNat_ofNat', UInt8.toNat_ofNat', Nat.and_two_pow_sub_one_eq_mod n 8, Nat.mod_mod]

theorem next16 (u : UInt16) : (u >>> 8).toNat = u.toNat / 256 := by
  simp [Nat.shiftRight_eq_div_pow]

theorem next32 (u : UInt32) : (u >>> 8).toNat = u.toNat / 256 := by
  simp [Nat.shiftRight_eq_div_pow]

theorem next64 (u : UInt64) : (u >>> 8).toNat = u.toNat / 256 := by
  simp [Nat.shiftRight_eq_div_pow]

theorem cast16 (u : UInt16) : u.toUInt8 = UInt8.ofNat u.toNat := rfl

theorem cast32 (u : UInt32) : u.toUInt8 = UInt8.ofNat u.toNat := rfl

theorem cast64 (u : UInt64) : u.toUInt8 = UInt8.ofNat u.toNat := rfl

theorem pack16_bytes (u : UInt16) : upak16Pack u = toBytes 2 u.toNat := by
  simp only [upak16Pack, toBytes, cast16, UInt16.toNat_and, UInt16.reduceToNat, low, next16]

theorem pack24_bytes (u : UInt32) : upak24Pack u = toBytes 3 u.toNat := by
  simp only [upak24Pack, toBytes, cast32, UInt32.toNat_and, UInt32.reduceToNat, low, next32]

theorem pack32_bytes (u : UInt32) : upak32Pack u = toBytes 4 u.toNat := by
  simp only [upak32Pack, toBytes, cast32, UInt32.toNat_and, UInt32.reduceToNat, low, next32]

theorem pack64_bytes (u : UInt64) : upak64Pack u = toBytes 8 u.toNat := by
  simp only [upak64Pack, toBytes, cast64, UInt64.toNat_and, UInt64.reduceToNat, low, next64]

theorem unpack16_toNat (h : 2 ≤ b.length) : (upak16Unpack b).toNat = ofBytes (b.take 2) := by
  have htake : [byteAt b 0, byteAt b 1] = b.take 2 := map_getD b 0 2 (by omega)
  have h0 := (byteAt b 0).toNat_lt
  have h1 := (byteAt b 1).toNat_lt
  rw [← htake, upak16Unpack]
  generalize byteAt b 0 = b0 at *
  generalize byteAt b 1 = b1 at *
  simp [ofBytes, Nat.shiftLeft_eq]
  omega

theorem unpack24_toNat (h : 3 ≤ b.length) : (upak24Unpack b).toNat = ofBytes (b.take 3) := by
  have htake : [byteAt b 0, byteAt b 1, byteAt b 2] = b.take 3 := map_getD b 0 3 (by omega)
  have hfold := foldl_shift32 [byteAt b 1, byteAt b 0] (byteAt b 2).toUInt32
  have hlt := ofBytes_lt (b.take 3)
  rw [List.length_take_of_le h] at hlt
  rw [← htake] at hlt ⊢
  refine hfold.trans ?_
  simp [ofBytes] at hlt ⊢
  omega

theorem unpack32_toNat (h : 4 ≤ b.length) : (upak32Unpack b).toNat = ofBytes (b.take 4) := by
  have htake : [byteAt b 0, byteAt b 1, byteAt b 2, byteAt b 3] = b.take 4 :=
    map_getD b 0 4 (by omega)
  have hfold := foldl_shift32 [byteAt b 2, byteAt b 1, byteAt b 0] (byteAt b 3).toUInt32
  have hlt := ofBytes_lt (b.take 4)
  rw [List.length_take_of_le h] at hlt
  rw [← htake] at hlt ⊢
  refine hfold.trans ?_
  simp [ofBytes] at hlt ⊢
  omega

theorem unpack64_toNat (h : 8 ≤ b.length) : (upak64Unpack b).toNat = ofBytes (b.take 8) := by
  have htake : [byteAt b 0, byteAt b 1, byteAt b 2, byteAt b 3, byteAt b 4, byteAt b 5, byteAt b 6,
      byteAt b 7] = b.take 8 := map_getD b 0 8 (by omega)
  have hfold := foldl_shift64 [byteAt b 6, byteAt b 5, byteAt b 4, byteAt b 3, byteAt b 2, byteAt b 1,
    byteAt b 0] (byteAt b 7).toUInt64
  have hlt := ofBytes_lt (b.take 8)
  rw [List.length_take_of_le h] at hlt
  rw [← htake] at hlt ⊢
  refine hfold.trans ?_
  simp [ofBytes] at hlt ⊢
  omega

theorem macro16_eq (b : List UInt8) : upak16UNPACK b = (upak16Unpack b).toUInt32 := by
  have h0 := (byteAt b 0).toNat_lt
  have h1 := (byteAt b 1).toNat_lt
  apply UInt32.toNat_inj.mp
  simp [upak16UNPACK, upak16Unpack, Nat.shiftLeft_eq]
  omega

theorem macro24_eq (b : List UInt8) : upak24UNPACK b = upak24Unpack b := by
  apply UInt32.toNat_inj.mp
  simp [upak24UNPACK, upak24Unpack, shiftIn32, Nat.shiftLeft_eq]
  omega

theorem macro32_eq (b : List UInt8) : upak32UNPACK b = upak32Unpack b := by
  apply UInt32.toNat_inj.mp
  simp [upak32UNPACK, upak32Unpack, shiftIn32, Nat.shiftLeft_eq]
  omega

theorem macro64_eq (b : List UInt8) : upak64UNPACK b = upak64Unpack b := by
  apply UInt64.toNat_inj.mp
  simp [upak64UNPACK, upak64Unpack, shiftIn64, Nat.shiftLeft_eq]
  omega

theorem fixed_forms : FixedForms where
  pack16 := pack16_bytes
  pack32 := pack32_bytes
  pack64 := pack64_bytes
  unpack16 := by
    intro u rest
    apply UInt16.toNat_inj.mp
    rw [Field.bytes, unpack16_toNat (by rw [List.length_append, toBytes_length]; omega),
      List.take_left' (toBytes_length 2 _), ofBytes_toBytes]
    exact Nat.mod_eq_of_lt u.toNat_lt
  unpack32 := by
    intro u rest
    apply UInt32.toNat_inj.mp
    rw [Field.bytes, unpack32_toNat (by rw [List.length_append, toBytes_length]; omega),
      List.take_left' (toBytes_length 4 _), ofBytes_toBytes]
    exact Nat.mod_eq_of_lt u.toNat_lt
  unpack64 := by
    intro u rest
    apply UInt64.toNat_inj.mp
    rw [Field.bytes, unpack64_toNat (by rw [List.length_append, toBytes_length]; omega),
      List.take_left' (toBytes_length 8 _), ofBytes_toBytes]
    exact Nat.mod_eq_of_lt u.toNat_lt
  macro16 := macro16_eq
  macro32 := macro32_eq
  macro64 := macro64_eq
  pack24 := pack24_bytes
  unpack24 := by
    intro u rest hu
    apply UInt32.toNat_inj.mp
    rw [unpack24_toNat (by rw [List.length_append, toBytes_length]; omega),
      List.take_left' (toBytes_length 3 _), ofBytes_toBytes]
    exact Nat.mod_eq_of_lt hu
  macro24 := macro24_eq

end

/-! ## The loops -/

section
variable {fields : List Field} {buf rest : List UInt8}

theorem stored_field (f : Field) : ∃ w, widthOf f.letter = some w ∧ stored w f.arg = some f.bytes ∧
    w.size = f.bytes.length := by
  cases f with
  | b v => exact ⟨.char, rfl, by simp [stored, Field.arg, Field.bytes, toBytes], rfl⟩
  | c v => exact ⟨.char, rfl, by simp [stored, Field.arg, Field.bytes, toBytes], rfl⟩
  | s v =>
    refine ⟨.short, rfl, ?_, rfl⟩
    have hv : v.toUInt32.toInt32.toUInt32.toUInt16 = v := by simp
    rw [Field.arg, Field.bytes, ← pack16_bytes, stored, hv, upak16Pack]
  | d v =>
    refine ⟨.long, rfl, ?_, rfl⟩
    rw [Field.arg, Field.bytes, ← pack32_bytes, stored, upak32Pack]
  | L v =>
    refine ⟨.longLong, rfl, ?_, rfl⟩
    rw [Field.arg, Field.bytes, ← pack64_bytes, stored, upak64Pack]

theorem loaded_field (f : Field) (old : Option UInt64) (rest : List UInt8) :
    ∃ w, widthOf f.letter = some w ∧ loaded w (f.dest old) (f.bytes ++ rest) = some (f.recovered old) ∧
      w.size = f.bytes.length := by
  cases f with
  | b v =>
    refine ⟨.char, rfl, ?_, rfl⟩
    cases old with
    | none => rfl
    | some old => simp [loaded, Field.dest, Field.recovered, Field.bytes, toBytes, byteAt]
  | c v =>
    refine ⟨.char, rfl, ?_, rfl⟩
    cases old with
    | none => rfl
    | some old => simp [loaded, Field.dest, Field.recovered, Field.bytes, toBytes, byteAt]
  | s v =>
    refine ⟨.short, rfl, ?_, rfl⟩
    cases old with
    | none => rfl
    | some old =>
      have hv : upak16Unpack (toBytes 2 v.toNat ++ rest) = v := fixed_forms.unpack16 v rest
      simp [loaded, Field.dest, Field.recovered, hv, Field.bytes, toBytes_length]
  | d v =>
    refine ⟨.long, rfl, ?_, rfl⟩
    cases old with
    | none => rfl
    | some old =>
      have hv : upak32Unpack (toBytes 4 v.toNat ++ rest) = v := fixed_forms.unpack32 v rest
      simp [loaded, Field.dest, Field.recovered, hv, Field.bytes, toBytes_length]
  | L v =>
    refine ⟨.longLong, rfl, ?_, rfl⟩
    cases old with
    | none => rfl
    | some old =>
      have hv : upak64Unpack (toBytes 8 v.toNat ++ rest) = v := fixed_forms.unpack64 v rest
      simp [loaded, Field.dest, Field.recovered, hv, Field.bytes, toBytes_length]

/-- The fields are stored one after the other, whatever the format says behind them. -/
theorem packLoop_fields (fields : List Field) (fmt : List UInt8) (args : List Arg)
    (done old rest : List UInt8) (h : old.length = (packed fields).length) :
    packLoop (format fields ++ fmt) (fields.map Field.arg ++ args) (done ++ old ++ rest) done.length =
      packLoop fmt args (done ++ packed fields ++ rest) (done ++ packed fields).length := by
  induction fields generalizing done old with
  | nil =>
    obtain rfl : old = [] := List.eq_nil_of_length_eq_zero h
    simp [format, packed]
  | cons f fields ih =>
    obtain ⟨w, hw, hstored, _⟩ := stored_field f
    rw [packed, List.flatMap_cons, List.length_append] at h
    have htake : (old.take f.bytes.length).length = f.bytes.length :=
      List.length_take_of_le (by omega)
    have hdrop : (old.drop f.bytes.length).length = (packed fields).length := by
      rw [List.length_drop, packed]
      omega
    have hstore := storeAll_at done (old.take f.bytes.length) (old.drop f.bytes.length ++ rest) f.bytes htake
    rw [List.append_assoc, ← List.append_assoc (old.take _), List.take_append_drop,
      ← List.append_assoc] at hstore
    have hrest := ih (done ++ f.bytes) (old.drop f.bytes.length) hdrop
    rw [List.append_assoc _ _ rest, List.length_append] at hrest
    rw [format, List.map_cons, List.map_cons, List.cons_append, List.cons_append, packLoop, hw]
    simp only [List.head?_cons, Option.bind_eq_bind, Option.bind_some, hstored, hstore, List.tail_cons]
    rw [packed, List.flatMap_cons, ← List.append_assoc done]
    exact hrest

theorem unpackLoop_fields (fields : List Field) (fmt : List UInt8) (olds : List (Option UInt64))
    (dests : List Dest) (buf : List UInt8) (b : ℕ) (rest : List UInt8)
    (hbuf : buf.drop b = packed fields ++ rest)
    (h : olds.length = fields.length) :
    unpackLoop buf (format fields ++ fmt) (List.zipWith Field.dest fields olds ++ dests) b =
      (unpackLoop buf fmt dests (b + (packed fields).length)).map fun out =>
        (out.1, List.zipWith Field.recovered fields olds ++ out.2) := by
  induction fields generalizing olds b with
  | nil => simp [format, packed]
  | cons f fields ih =>
    cases olds with
    | nil => cases h
    | cons old olds =>
      rw [packed, List.flatMap_cons, List.append_assoc] at hbuf
      obtain ⟨w, hw, hloaded, hsize⟩ := loaded_field f old (packed fields ++ rest)
      have hnext : buf.drop (b + f.bytes.length) = packed fields ++ rest := by
        rw [← List.drop_drop, hbuf, List.drop_left, packed]
      have hrest := ih olds (b + f.bytes.length) hnext (Nat.succ.inj h)
      rw [format] at hrest
      rw [format, List.map_cons, List.cons_append, List.zipWith_cons_cons, List.cons_append, unpackLoop, hw]
      rw [packed] at hloaded
      simp only [List.head?_cons, Option.bind_eq_bind, Option.bind_some, hbuf, hloaded, List.tail_cons,
        hsize, hrest]
      rw [packed, packed, List.flatMap_cons, List.length_append, Nat.add_assoc]
      cases unpackLoop buf fmt dests (b + (f.bytes.length + (fields.flatMap Field.bytes).length)) with
      | none => rfl
      | some out => rfl

theorem widthOf_other {p : UInt8} (h : p ∉ [98, 99, 115, 100, 76]) : widthOf p = none := by
  simp only [List.mem_cons, List.not_mem_nil, or_false, not_or] at h
  obtain ⟨hb, hc, hs, hd, hL⟩ := h
  rw [widthOf, if_neg (not_or.mpr ⟨hb, hc⟩), if_neg hs, if_neg hd, if_neg hL]

end

/-! ## Packing and unpacking -/

theorem packs (fields : List Field) : Packs fields := by
  intro buf hroom
  have hold : (buf.take (packed fields).length).length = (packed fields).length :=
    List.length_take_of_le hroom
  have hloop := packLoop_fields fields [] [] [] (buf.take (packed fields).length)
    (buf.drop (packed fields).length) hold
  rw [List.nil_append, List.take_append_drop, List.append_nil, List.append_nil] at hloop
  exact hloop

theorem unpacks (fields : List Field) : Unpacks fields := by
  intro olds rest hlen
  have hloop := unpackLoop_fields fields [] olds [] (packed fields ++ rest) 0 rest List.drop_zero hlen
  rw [List.append_nil, List.append_nil, Nat.zero_add] at hloop
  rw [upakUnpack, hloop, unpackLoop, Option.map_some, List.append_nil]

theorem refuses (fields : List Field) : Refuses fields := by
  intro p fmt hp
  have hwidth := widthOf_other hp
  constructor
  · intro buf args hroom
    have hold : (buf.take (packed fields).length).length = (packed fields).length :=
      List.length_take_of_le hroom
    have hloop := packLoop_fields fields (p :: fmt) args [] (buf.take (packed fields).length)
      (buf.drop (packed fields).length) hold
    rw [List.nil_append, List.take_append_drop, packLoop, hwidth] at hloop
    exact ⟨_, hloop⟩
  · intro olds rest dests hlen
    have hloop := unpackLoop_fields fields (p :: fmt) olds dests (packed fields ++ rest) 0 rest
      List.drop_zero hlen
    rw [unpackLoop, hwidth] at hloop
    exact ⟨_, hloop⟩

/-! ## Where they are used -/

theorem pkt_upak32Pack (u : UInt32) : Pkt.upak32Pack u = upak32Pack u := by
  rw [pack32_bytes]
  simp only [Pkt.upak32Pack, List.map_cons, List.map_nil, toBytes, Nat.div_div_eq_div_mul]
  congr 4 <;> apply UInt8.toNat_inj.mp <;> simp [Nat.shiftRight_eq_div_pow]

theorem pkt_upak32Unpack (b : List UInt8) : Pkt.upak32Unpack b = upak32Unpack b := by
  simp [Pkt.upak32Unpack, upak32Unpack, shiftIn32]

theorem pkt_upak64Unpack (b : List UInt8) : Pkt.upak64Unpack b = upak64Unpack b := by
  simp [Pkt.upak64Unpack, upak64Unpack, shiftIn64]

theorem perpd_upak64Pack (u : UInt64) : PerpdClient.upak64Pack u = upak64Pack u := by
  rw [pack64_bytes]
  simp only [PerpdClient.upak64Pack, List.map_cons, List.map_nil, toBytes, Nat.div_div_eq_div_mul]
  congr 8 <;> apply UInt8.toNat_inj.mp <;> simp [Nat.shiftRight_eq_div_pow]

theorem hdb_upak24Pack (u : UInt32) : HdbFormat.upak24Pack u = upak24Pack u := by
  rw [pack24_bytes]
  simp only [HdbFormat.upak24Pack, List.map_cons, List.map_nil, toBytes, Nat.div_div_eq_div_mul]
  congr 3 <;> apply UInt8.toNat_inj.mp <;> simp [Nat.shiftRight_eq_div_pow]

theorem hdb_upak24Unpack (b : List UInt8) : HdbFormat.upak24Unpack b = upak24Unpack b := by
  simp [HdbFormat.upak24Unpack, upak24Unpack, shiftIn32]

/-- A record is packed to its bytes and recovered from them; every other format is an error. -/
theorem upak_round_trip (fields : List Field) :
    Packs fields ∧ Unpacks fields ∧ Refuses fields ∧ FixedForms :=
  ⟨packs fields, unpacks fields, refuses fields, fixed_forms⟩

end Perp.Upak
