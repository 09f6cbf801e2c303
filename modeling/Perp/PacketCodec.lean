import Mathlib.Algebra.Order.Ring.Nat
import Mathlib.Data.UInt
import Mathlib.Tactic.Common
import Perp.Inplace
import Perp.Pkt

set_option autoImplicit false

/-!
# The codec of `struct packet`

`new_packet_write()` and `new_packet_read()`, where the length is a byte of a `char` array.
-/
namespace Perp.PacketCodec
open Inplace
open Pkt (ReadRet WriteRet byteAt)

/-- `struct packet`, with the buffer of its payload -/
structure Packet where
  protoId : UInt8
  typeId : UInt8
  len : UInt8
  data : List UInt8
  deriving DecidableEq, Repr

/-! ## The functions -/

/-- The loop of `new_packet_write()`, with what is written so far. It has no result where the
script ends before the packet does. -/
def writeLoop (buf : List UInt8) : List WriteRet → ℕ → ℕ → List UInt8 → Option (ℤ × List UInt8)
  | [], _, len, out => if 0 < len then none else some (0, out)
  | r :: outs, b, len, out =>
    if 0 < len then
      match r with
      | .intr => writeLoop buf outs b len out
      | .again => some (-1, out)
      | .error => some (-1, out)
      | .wrote w =>
        let w := min w len
        writeLoop buf outs (b + w) (len - w) (out ++ (buf.drop b).take w)
    else some (0, out)

/-- None is also a read of the payload outside its buffer. -/
def newPacketWrite (outs : List WriteRet) (k : Packet) : Option (ℤ × List UInt8) :=
  if k.len.toNat ≤ k.data.length then
    let buf := k.protoId :: k.typeId :: k.len :: k.data.take k.len.toNat
    writeLoop buf outs 0 (k.len.toNat + 3) []
  else none

/-- `(size_t)buf[2]`, of a `char` that has a sign -/
def readLen (c : UInt8) : UInt64 := c.toInt8.toInt64.toUInt64

/-- A `read()` of `sizeof buf` bytes. None is the end of the script, or a store of the
payload outside its buffer. -/
def newPacketRead : List ReadRet → Packet → Option (ℤ × Packet)
  | [], _ => none
  | .intr :: outs, k => newPacketRead outs k
  | .again :: _, k => some (-1, k)
  | .error :: _, k => some (-1, k)
  | .data bytes :: _, k =>
    let buf := bytes.take 260
    let r : ℤ := buf.length
    if r < 3 then some (-1, k)
    else
      let len := readLen (byteAt buf 2)
      if r ≠ (len + 3).toInt64.toInt then some (-1, k)
      else
        (storeAll k.data 0 ((buf.drop 3).take len.toNat)).map fun data =>
          (0, ⟨byteAt buf 0, byteAt buf 1, len.toUInt8, data⟩)

/-! ## What they are for -/

def Packet.payload (k : Packet) : List UInt8 := k.data.take k.len.toNat

/-- The bytes that may go out by a script -/
def total : List WriteRet → ℕ
  | [] => 0
  | .wrote w :: outs => w + total outs
  | _ :: outs => total outs

/-- A packet, and partial writes and interruptions that let it out -/
structure Sending where
  k : Packet
  room : k.len.toNat ≤ k.data.length
  outs : List WriteRet
  smooth : .again ∉ outs ∧ .error ∉ outs
  enough : k.len.toNat + 3 ≤ total outs

/-- A packet that any payload can be read into -/
structure Receiver where
  k : Packet
  room : 255 ≤ k.data.length

/-- What is written and then delivered by a `read()`, maybe after interruptions, is the same
packet again. -/
def RoundTrips (s : Sending) (d : Receiver) : Prop :=
  ∃ out, newPacketWrite s.outs s.k = some (0, out) ∧
    ∀ intrs, ∃ k, newPacketRead (List.replicate intrs .intr ++ [.data out]) d.k = some (0, k) ∧
      k.protoId = s.k.protoId ∧ k.typeId = s.k.typeId ∧ k.len = s.k.len ∧ k.payload = s.k.payload

/-- What a delivered string must be to be accepted -/
def Checked (bytes : List UInt8) (d : Receiver) : Prop :=
  ∀ k, newPacketRead [.data bytes] d.k = some (0, k) →
    (bytes.take 260).length = (byteAt bytes 2).toNat + 3

section
variable {buf out bytes : List UInt8} {outs : List WriteRet} {b len : ℕ} {k : Packet}

theorem writeLoop_done (outs : List WriteRet) : writeLoop buf outs b 0 out = some (0, out) := by
  cases outs with
  | nil => rfl
  | cons r outs => cases r <;> rfl

theorem writeLoop_smooth (buf out : List UInt8) (b : ℕ) (hsmooth : .again ∉ outs ∧ .error ∉ outs)
    (henough : len ≤ total outs) :
    writeLoop buf outs b len out = some (0, out ++ (buf.drop b).take len) := by
  induction outs generalizing b len out with
  | nil =>
    obtain rfl : len = 0 := Nat.le_zero.mp henough
    rw [writeLoop_done, List.take_zero, List.append_nil]
  | cons r outs ih =>
    by_cases hpos : 0 < len
    · rw [List.mem_cons, List.mem_cons, not_or, not_or] at hsmooth
      have hrest : .again ∉ outs ∧ .error ∉ outs := ⟨hsmooth.1.2, hsmooth.2.2⟩
      cases r with
      | intr =>
        rw [writeLoop, if_pos hpos]
        exact ih out b hrest henough
      | again => exact absurd rfl hsmooth.1.1
      | error => exact absurd rfl hsmooth.2.1
      | wrote w =>
        have hleft : len - min w len ≤ total outs := by
          rw [total] at henough
          omega
        have hsplit : min w len + (len - min w len) = len := by omega
        have htake : (buf.drop b).take len =
            (buf.drop b).take (min w len) ++ (buf.drop (b + min w len)).take (len - min w len) := by
          rw [← List.drop_drop, ← List.take_add, hsplit]
        rw [writeLoop, if_pos hpos, htake, ← List.append_assoc]
        exact ih _ _ hrest hleft
    · obtain rfl : len = 0 := Nat.eq_zero_of_not_pos hpos
      rw [writeLoop_done, List.take_zero, List.append_nil]

theorem len_bytes : ∀ n < 256,
    (n < 128 ∧ (readLen (UInt8.ofNat n)).toNat = n ∧
      ((readLen (UInt8.ofNat n)) + 3).toInt64.toInt = n + 3) ∨
    128 ≤ n ∧ ((readLen (UInt8.ofNat n)) + 3).toInt64.toInt < 3 := by
  decide +kernel

/-- A length from 128 on becomes negative. -/
theorem len_cases (c : UInt8) :
    (c.toNat < 128 ∧ (readLen c).toNat = c.toNat ∧ (readLen c + 3).toInt64.toInt = c.toNat + 3) ∨
      128 ≤ c.toNat ∧ (readLen c + 3).toInt64.toInt < 3 := by
  have h := len_bytes c.toNat c.toNat_lt
  rwa [UInt8.ofNat_toNat] at h

/-- What a packet is on the wire -/
def wire (k : Packet) : List UInt8 := k.protoId :: k.typeId :: k.len :: k.payload

theorem newPacketWrite_eq (s : Sending) : newPacketWrite s.outs s.k = some (0, wire s.k) := by
  have hlen : (wire s.k).length = s.k.len.toNat + 3 := by
    rw [wire, List.length_cons, List.length_cons, List.length_cons, Packet.payload,
      List.length_take_of_le s.room]
  have hloop := writeLoop_smooth (wire s.k) [] 0 s.smooth s.enough
  rw [List.drop_zero, List.nil_append, ← hlen, List.take_length, hlen] at hloop
  rw [newPacketWrite, if_pos s.room]
  exact hloop

theorem newPacketRead_intrs (n : ℕ) (outs : List ReadRet) (k : Packet) :
    newPacketRead (List.replicate n .intr ++ outs) k = newPacketRead outs k := by
  induction n with
  | zero => rfl
  | succ n ih =>
    rw [List.replicate_succ, List.cons_append, newPacketRead]
    exact ih

theorem byteAt_take {i n : ℕ} (h : i < n) (bytes : List UInt8) :
    byteAt (bytes.take n) i = byteAt bytes i := by
  rw [byteAt, byteAt, List.getD_eq_getElem?_getD, List.getD_eq_getElem?_getD, List.getElem?_take_of_lt h]

theorem len_cast (c : UInt8) (h : c.toNat < 128) : (readLen c).toUInt8 = c := by
  have hnat := (len_cases c).resolve_right fun hge => Nat.not_le.mpr h hge.1
  apply UInt8.toNat_inj.mp
  rw [UInt64.toNat_toUInt8, hnat.2.1]
  exact Nat.mod_eq_of_lt c.toNat_lt

/-- A string is refused, or its length fits its third byte, which is below 128. -/
theorem newPacketRead_data (bytes : List UInt8) (k : Packet) :
    ((bytes.take 260).length = (byteAt bytes 2).toNat + 3 ∧ (byteAt bytes 2).toNat < 128 ∧
        newPacketRead [.data bytes] k =
          (storeAll k.data 0 (((bytes.take 260).drop 3).take (byteAt bytes 2).toNat)).map fun data =>
            (0, ⟨byteAt bytes 0, byteAt bytes 1, byteAt bytes 2, data⟩)) ∨
      ¬ ((bytes.take 260).length = (byteAt bytes 2).toNat + 3 ∧ (byteAt bytes 2).toNat < 128) ∧
        newPacketRead [.data bytes] k = some (-1, k) := by
  have h0 : byteAt (bytes.take 260) 0 = byteAt bytes 0 := byteAt_take (by decide) bytes
  have h1 : byteAt (bytes.take 260) 1 = byteAt bytes 1 := byteAt_take (by decide) bytes
  have h2 : byteAt (bytes.take 260) 2 = byteAt bytes 2 := byteAt_take (by decide) bytes
  have hcast := len_cast (byteAt bytes 2)
  have hcases := len_cases (byteAt bytes 2)
  rw [newPacketRead, h0, h1, h2]
  generalize (bytes.take 260) = buf at *
  generalize byteAt bytes 2 = c at *
  by_cases hshort : (buf.length : ℤ) < 3
  · rw [if_pos hshort]
    apply Or.inr
    refine ⟨?_, rfl⟩
    omega
  · rw [if_neg hshort]
    by_cases hne : (buf.length : ℤ) ≠ (readLen c + 3).toInt64.toInt
    · rw [if_pos hne]
      apply Or.inr
      refine ⟨?_, rfl⟩
      omega
    · rw [if_neg hne]
      have hlt : c.toNat < 128 := by omega
      have hlen := hcases.resolve_right fun hge => Nat.not_le.mpr hlt hge.1
      apply Or.inl
      refine ⟨by omega, hlt, ?_⟩
      rw [hlen.2.1, hcast hlt]

end

theorem not_roundTrips {s : Sending} {d : Receiver} (h : 128 ≤ s.k.len.toNat) : ¬ RoundTrips s d := by
  have hthird : byteAt (wire s.k) 2 = s.k.len := rfl
  have hdata := newPacketRead_data (wire s.k) d.k
  rw [hthird] at hdata
  rw [RoundTrips, newPacketWrite_eq]
  rintro ⟨out, hout, hread⟩
  obtain ⟨k, hk, _⟩ := hread 0
  obtain rfl : wire s.k = out := congrArg Prod.snd (Option.some.inj hout)
  rw [newPacketRead_intrs] at hk
  rcases hdata with hgood | hbad
  · omega
  · rw [hbad.2] at hk
    cases hk

theorem roundTrips {s : Sending} {d : Receiver} (h : s.k.len.toNat < 128) : RoundTrips s d := by
  have hpayload : s.k.payload.length = s.k.len.toNat := List.length_take_of_le s.room
  have hlen : (wire s.k).length = s.k.len.toNat + 3 := by
    rw [wire, List.length_cons, List.length_cons, List.length_cons, hpayload]
  have hwhole : (wire s.k).take 260 = wire s.k := List.take_of_length_le (by omega)
  have hthird : byteAt (wire s.k) 2 = s.k.len := rfl
  have hdata := newPacketRead_data (wire s.k) d.k
  rw [hthird, hwhole] at hdata
  obtain ⟨_, _, hread⟩ := hdata.resolve_right fun hbad => hbad.1 ⟨hlen, h⟩
  have hdrop : ((wire s.k).drop 3).take s.k.len.toNat = s.k.payload := by
    rw [← hpayload]
    exact List.take_length
  have hroom := d.room
  have hold : (d.k.data.take s.k.len.toNat).length = s.k.payload.length := by
    rw [hpayload, List.length_take_of_le (by omega)]
  have hstore := storeAll_at [] (d.k.data.take s.k.len.toNat) (d.k.data.drop s.k.len.toNat)
    s.k.payload hold
  rw [List.nil_append, List.nil_append, List.take_append_drop, List.length_nil] at hstore
  rw [hdrop, hstore] at hread
  refine ⟨wire s.k, newPacketWrite_eq s, ?_⟩
  intro intrs
  rw [newPacketRead_intrs, hread]
  exact ⟨_, rfl, rfl, rfl, rfl, List.take_left' hpayload⟩

/-- A packet comes through unless its length has the bit of the sign. -/
theorem packet_codec_iff (s : Sending) (d : Receiver) :
    (RoundTrips s d ↔ s.k.len.toNat < 128) ∧ ∀ bytes, Checked bytes d := by
  constructor
  · constructor
    · intro h
      by_contra hge
      exact not_roundTrips (Nat.le_of_not_lt hge) h
    · exact roundTrips
  · intro bytes k hk
    rcases newPacketRead_data bytes d.k with hgood | hbad
    · exact hgood.1
    · rw [hbad.2] at hk
      cases hk

/-- 128 bytes of payload, written at once -/
def longPacket : Sending where
  k := ⟨1, 2, 128, List.replicate 128 65⟩
  room := List.length_replicate.ge
  outs := [.wrote 131]
  smooth := by decide
  enough := by decide

theorem packet_codec_refuses_128 :
    ¬ RoundTrips longPacket ⟨⟨0, 0, 0, List.replicate 255 0⟩, List.length_replicate.ge⟩ :=
  not_roundTrips (Nat.le_refl 128)

end Perp.PacketCodec
