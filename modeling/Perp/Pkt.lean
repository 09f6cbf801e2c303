import Mathlib.Data.Int.Notation
import Mathlib.Data.Nat.Notation

set_option autoImplicit false

/-!
# Packets

`lasagna/pkt`, `lasagna/upak`: the fixed buffer of a client connection, its
accessors, and the loops that read and write it over a non-blocking socket.
-/
namespace Perp.Pkt

def pktHeader : ℕ := 3
def pktPayload : ℕ := 255
def pktSize : ℕ := pktHeader + pktPayload

def byteAt (k : List UInt8) (i : ℕ) : UInt8 := k.getD i 0

def pktProto (k : List UInt8) : UInt8 := byteAt k 0
def pktType (k : List UInt8) : UInt8 := byteAt k 1
def pktLen (k : List UInt8) : ℕ := pktHeader + (byteAt k 2).toNat
def pktData (k : List UInt8) : List UInt8 := k.drop 3

/-- Overwrite the bytes of `k` from position `i` on. -/
def bufWrite (k : List UInt8) (i : ℕ) (bytes : List UInt8) : List UInt8 :=
  k.take i ++ bytes ++ k.drop (i + bytes.length)

/-- `pkt_load()`: the result is the packet and the return code. -/
def pktLoad (k : List UInt8) (p t : UInt8) (buf : List UInt8) : List UInt8 × ℤ :=
  if buf.length > pktSize - 3 then (k, -1)
  else (bufWrite k 0 (p :: t :: UInt8.ofNat buf.length :: buf), 0)

def upak32Pack (u : UInt32) : List UInt8 :=
  [0, 8, 16, 24].map (fun k : UInt32 => (u >>> k).toUInt8)

def upak32Unpack (b : List UInt8) : UInt32 :=
  [3, 2, 1, 0].foldl (fun u i => (u <<< 8) + (byteAt b i).toUInt32) 0

theorem upak32Unpack_pack (u : UInt32) (rest : List UInt8) :
    upak32Unpack (upak32Pack u ++ rest) = u := by
  have h := u.toNat_lt
  apply UInt32.toNat_inj.mp
  simp [upak32Unpack, upak32Pack, byteAt, Nat.shiftRight_eq_div_pow, Nat.shiftLeft_eq]
  omega

def upak64Unpack (b : List UInt8) : UInt64 :=
  [7, 6, 5, 4, 3, 2, 1, 0].foldl (fun u i => (u <<< 8) + (byteAt b i).toUInt64) 0

/-- One return of `read()`: `data []` is end of file. -/
inductive ReadRet where
  | data (bytes : List UInt8)
  | again
  | intr
  | error
  deriving DecidableEq, Repr

/-- One return of `write()`. -/
inductive WriteRet where
  | wrote (k : ℕ)
  | again
  | intr
  | error
  deriving DecidableEq, Repr

/-- The number of bytes the loop of `pkt_read()` waits for when it has `n`. -/
def toRead (k : List UInt8) (n : ℕ) : ℕ := if n < pktHeader then pktHeader else pktLen k

/-- The loop of `pkt_read()`. `read()` never returns more than the `max` bytes
asked for, and a socket with nothing more to say returns `EAGAIN`. -/
def pktReadLoop (offset : ℕ) : List ReadRet → List UInt8 → ℕ → ℕ → ℤ × List UInt8
  | outs, k, n, max =>
    if n < toRead k n then
      match outs with
      | [] => (((n : ℤ) - offset), k)
      | .intr :: outs => pktReadLoop offset outs k n max
      | .again :: _ => (((n : ℤ) - offset), k)
      | .error :: _ => (-1, k)
      | .data bytes :: outs =>
        let bytes := bytes.take max
        if bytes.length = 0 then (0, k)
        else pktReadLoop offset outs (bufWrite k n bytes) (n + bytes.length) (max - bytes.length)
    else if n ≠ toRead k n then (-1, k)
    else (((n : ℤ) - offset), k)

/-- `pkt_read()`: the return value and the buffer. -/
def pktRead (outs : List ReadRet) (k : List UInt8) (offset : ℕ) : ℤ × List UInt8 :=
  if offset > pktSize then (-1, k)
  else pktReadLoop offset outs k offset (pktSize - offset)

/-- The loop of `pkt_write()`: `b` is the cursor, the last component what was
written. -/
def pktWriteLoop (offset : ℕ) (k : List UInt8) : List WriteRet → ℕ → ℕ → List UInt8 → ℤ × List UInt8
  | outs, b, left, out =>
    if 0 < left then
      match outs with
      | [] => (((b : ℤ) - offset), out)
      | .intr :: outs => pktWriteLoop offset k outs b left out
      | .again :: _ => (((b : ℤ) - offset), out)
      | .error :: _ => (-1, out)
      | .wrote w :: outs =>
        let w := min w left
        pktWriteLoop offset k outs (b + w) (left - w) (out ++ (k.drop b).take w)
    else (((b : ℤ) - offset), out)

/-- `pkt_write()`: the return value and the bytes that went out. -/
def pktWrite (outs : List WriteRet) (k : List UInt8) (offset : ℕ) : ℤ × List UInt8 :=
  if offset > pktLen k then (-1, [])
  else pktWriteLoop offset k outs offset (pktLen k - offset) []

end Perp.Pkt
