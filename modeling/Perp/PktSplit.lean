import Mathlib.Data.List.Infix
import Perp.Pkt

set_option autoImplicit false

/-!
# Packets in pieces

`pkt_read()` and `pkt_write()` over a socket that takes and gives a packet in
pieces of any sizes. What they return depends on the bytes, not on the pieces.
-/
namespace Perp.Pkt

/-- The bytes are one packet: the header is there, and the payload as its size
field says. -/
def Whole (p : List UInt8) : Prop := pktHeader ≤ p.length ∧ pktLen p = p.length

instance (p : List UInt8) : Decidable (Whole p) := inferInstanceAs (Decidable (_ ∧ _))

/-- The bytes that a sequence of returns of `read()` delivers before it ends. -/
def delivered : List ReadRet → List UInt8
  | .intr :: outs => delivered outs
  | .data (b :: bytes) :: outs => b :: bytes ++ delivered outs
  | _ => []

/-- End of file or an error is among them. -/
def ends : List ReadRet → Bool
  | .intr :: outs => ends outs
  | .data (_ :: _) :: outs => ends outs
  | .data [] :: _ => true
  | .error :: _ => true
  | _ => false

/-- The same for `write()`. -/
def refuses : List WriteRet → Bool
  | .intr :: outs => refuses outs
  | .wrote _ :: outs => refuses outs
  | .error :: _ => true
  | _ => false

/-- `POLLIN`: the first return that is not `EINTR` is of at least one byte, end
of file, or an error. -/
def Ready : List ReadRet → Prop
  | .intr :: outs => Ready outs
  | .data _ :: _ => True
  | .error :: _ => True
  | _ => False

theorem delivered_pos {outs : List ReadRet} (h : Ready outs) (he : ends outs = false) :
    delivered outs ≠ [] := by
  induction outs with
  | nil => exact absurd h id
  | cons out outs ih =>
    cases out with
    | intr => exact ih h he
    | again => exact absurd h id
    | error => simp [ends] at he
    | data bytes =>
      cases bytes with
      | nil => simp [ends] at he
      | cons b bytes => simp [delivered]

theorem whole_le {p : List UInt8} (h : Whole p) : p.length ≤ pktSize := by
  have hb := (byteAt p 2).toNat_lt
  have hl := h.2
  simp only [pktLen, pktHeader] at hl
  simp only [pktSize, pktHeader, pktPayload]
  omega

theorem byteAt_take {k p : List UInt8} {n i : ℕ} (h : k.take n = p.take n) (hi : i < n) :
    byteAt k i = byteAt p i := by
  have hk : (k.take n)[i]? = (p.take n)[i]? := by rw [h]
  rw [List.getElem?_take_of_lt hi, List.getElem?_take_of_lt hi] at hk
  simp [byteAt, List.getD_eq_getElem?_getD, hk]

theorem pktLen_take {k p : List UInt8} {n : ℕ} (h : k.take n = p.take n) (hn : pktHeader ≤ n) :
    pktLen k = pktLen p := by
  have h2 : 2 < n := hn
  simp [pktLen, byteAt_take h h2]

/-- No part of a packet passes for a packet. -/
theorem not_whole_take {p : List UInt8} (h : Whole p) {w : ℕ} (hw : w < p.length) :
    ¬ Whole (p.take w) := by
  rintro ⟨hlen, hpart⟩
  have hl : (p.take w).length = w := by
    rw [List.length_take]
    omega
  rw [hl] at hlen hpart
  have hsame : (p.take w).take w = p.take w := by
    rw [List.take_take, Nat.min_self]
  have hp := pktLen_take hsame hlen
  have := h.2
  omega

section Read
variable {k p : List UInt8} {n : ℕ}

/-- The loop waits for more exactly as long as the packet is not all there. -/
theorem lt_toRead (hp : Whole p) (h : k.take n = p.take n) (hn : n ≤ p.length) :
    n < toRead k n ↔ n < p.length := by
  have h3 := hp.1
  unfold toRead
  split
  · omega
  · next hge =>
    rw [pktLen_take h (by omega), hp.2]

theorem toRead_whole (hp : Whole p) (h : k.take p.length = p.take p.length) :
    toRead k p.length = p.length := by
  have h3 := hp.1
  unfold toRead
  rw [if_neg (by omega), pktLen_take h h3, hp.2]

theorem bufWrite_length {i : ℕ} {bytes : List UInt8} (h : i + bytes.length ≤ k.length) :
    (bufWrite k i bytes).length = k.length := by
  simp only [bufWrite, List.length_append, List.length_take, List.length_drop]
  omega

theorem bufWrite_take {i : ℕ} {bytes : List UInt8} (h : i ≤ k.length) :
    (bufWrite k i bytes).take (i + bytes.length) = k.take i ++ bytes := by
  have hl : (k.take i ++ bytes).length = i + bytes.length := by
    rw [List.length_append, List.length_take]
    omega
  rw [bufWrite, ← hl, List.take_left]

/-- What is left of `k` and of the packet when the next bytes have come. -/
theorem take_next {bytes rest : List UInt8} (hk : n ≤ k.length) (h : k.take n = p.take n)
    (hrest : bytes ++ rest <+: p.drop n) :
    (bufWrite k n bytes).take (n + bytes.length) = p.take (n + bytes.length) ∧
      rest <+: p.drop (n + bytes.length) := by
  obtain ⟨more, hmore⟩ := hrest
  have hb : (p.drop n).take bytes.length = bytes := by
    rw [← hmore, List.append_assoc, List.take_left]
  constructor
  · rw [bufWrite_take hk, h, List.take_add, hb]
  · refine ⟨more, ?_⟩
    rw [← List.drop_drop, ← hmore, List.append_assoc, List.drop_left]

/-- What `pkt_read()` makes of the packet `p` when it has `n` bytes of it and the
next ones are delivered. -/
structure ReadSpec (p : List UInt8) (offset n : ℕ) (outs : List ReadRet) (r : ℤ × List UInt8) :
    Prop where
  buffer : r.2.length = pktSize
  ret : (r.1 = -1 ∨ r.1 = 0) ∧ ends outs = true ∧ n + (delivered outs).length < p.length ∨
    r.1 = ((n + (delivered outs).length : ℕ) : ℤ) - offset ∧
      r.2.take (n + (delivered outs).length) = p.take (n + (delivered outs).length)

theorem pktReadLoop_whole (hp : Whole p) (offset : ℕ) (outs : List ReadRet) {k : List UInt8}
    (hk : k.length = pktSize) (h : k.take p.length = p.take p.length)
    (hd : delivered outs <+: p.drop p.length) (max : ℕ) :
    ReadSpec p offset p.length outs (pktReadLoop offset outs k p.length max) := by
  have hnone : delivered outs = [] := by
    rw [List.drop_length] at hd
    exact List.prefix_nil.mp hd
  have hto := toRead_whole hp h
  have hloop : pktReadLoop offset outs k p.length max = ((p.length : ℤ) - offset, k) := by
    unfold pktReadLoop
    simp [hto]
  rw [hloop]
  refine ⟨hk, Or.inr ?_⟩
  rw [hnone]
  exact ⟨rfl, h⟩

/-- The loop goes on after a read that brings less than the buffer can take. -/
theorem pktReadLoop_data {offset : ℕ} {outs : List ReadRet} {b : UInt8} {bytes : List UInt8}
    (hmore : n < toRead k n) (hroom : n + (b :: bytes).length ≤ pktSize) :
    pktReadLoop offset (.data (b :: bytes) :: outs) k n (pktSize - n) =
      pktReadLoop offset outs (bufWrite k n (b :: bytes)) (n + (b :: bytes).length)
        (pktSize - (n + (b :: bytes).length)) := by
  have hall : (b :: bytes).take (pktSize - n) = b :: bytes := List.take_of_length_le (by omega)
  have hmax : pktSize - n - (b :: bytes).length = pktSize - (n + (b :: bytes).length) := by omega
  rw [pktReadLoop, ← hmax]
  simp only [hmore, hall, ↓reduceIte]
  rfl

theorem ReadSpec.data {offset : ℕ} {outs : List ReadRet} {b : UInt8} {bytes : List UInt8}
    {r : ℤ × List UInt8} (h : ReadSpec p offset (n + (b :: bytes).length) outs r) :
    ReadSpec p offset n (.data (b :: bytes) :: outs) r := by
  have hsum : n + (delivered (.data (b :: bytes) :: outs)).length =
      n + (b :: bytes).length + (delivered outs).length := by
    simp only [delivered, List.length_append]
    omega
  refine ⟨h.buffer, ?_⟩
  rw [hsum]
  exact h.ret

theorem pktReadLoop_spec (hp : Whole p) (offset : ℕ) (outs : List ReadRet) (k : List UInt8) (n : ℕ)
    (hk : k.length = pktSize) (h : k.take n = p.take n) (hn : n < p.length)
    (hd : delivered outs <+: p.drop n) :
    ReadSpec p offset n outs (pktReadLoop offset outs k n (pktSize - n)) := by
  have hsize := whole_le hp
  have hmore := (lt_toRead hp h hn.le).mpr hn
  induction outs generalizing k n with
  | nil =>
    have hloop : pktReadLoop offset [] k n (pktSize - n) = ((n : ℤ) - offset, k) := by
      unfold pktReadLoop
      simp [hmore]
    rw [hloop]
    exact ⟨hk, Or.inr ⟨rfl, h⟩⟩
  | cons out outs ih =>
    cases out with
    | again =>
      have hloop : pktReadLoop offset (.again :: outs) k n (pktSize - n) =
          ((n : ℤ) - offset, k) := by
        unfold pktReadLoop
        simp [hmore]
      rw [hloop]
      exact ⟨hk, Or.inr ⟨rfl, h⟩⟩
    | error =>
      have hloop : pktReadLoop offset (.error :: outs) k n (pktSize - n) = (-1, k) := by
        unfold pktReadLoop
        simp [hmore]
      rw [hloop]
      exact ⟨hk, Or.inl ⟨Or.inl rfl, rfl, hn⟩⟩
    | intr =>
      have hloop : pktReadLoop offset (.intr :: outs) k n (pktSize - n) =
          pktReadLoop offset outs k n (pktSize - n) := by
        rw [pktReadLoop]
        simp [hmore]
      have hspec := ih k n hk h hn hd hmore
      rw [hloop]
      exact ⟨hspec.buffer, hspec.ret⟩
    | data bytes =>
      cases bytes with
      | nil =>
        have hloop : pktReadLoop offset (.data [] :: outs) k n (pktSize - n) = (0, k) := by
          unfold pktReadLoop
          simp [hmore]
        rw [hloop]
        exact ⟨hk, Or.inl ⟨Or.inr rfl, rfl, hn⟩⟩
      | cons b bytes =>
        obtain ⟨hk', hrest⟩ := take_next (k := k) (n := n) (by omega) h hd
        have hlen : n + (b :: bytes).length ≤ p.length := by
          have hle := hd.length_le
          simp only [delivered, List.length_append, List.length_drop] at hle
          omega
        have hbuf : (bufWrite k n (b :: bytes)).length = pktSize := by
          rw [bufWrite_length (by omega), hk]
        rw [pktReadLoop_data hmore (by omega)]
        apply ReadSpec.data
        by_cases hlt : n + (b :: bytes).length < p.length
        · exact ih _ _ hbuf hk' hlt hrest ((lt_toRead hp hk' hlt.le).mpr hlt)
        · have he : n + (b :: bytes).length = p.length := by omega
          rw [he] at hk' hrest ⊢
          exact pktReadLoop_whole hp offset outs hbuf hk' hrest _

/-- `pkt_read()` returns 0 only when nothing of the packet will follow, and else
what has been delivered, if something has been. -/
theorem pktRead_spec (hp : Whole p) {outs : List ReadRet} (hk : k.length = pktSize)
    (h : k.take n = p.take n) (hn : n < p.length) (hd : delivered outs <+: p.drop n) :
    ReadSpec p n n outs (pktRead outs k n) := by
  have hsize := whole_le hp
  unfold pktRead
  rw [if_neg (by omega)]
  exact pktReadLoop_spec hp n outs k n hk h hn hd

end Read

section Write
variable {k : List UInt8} {w : ℕ}

/-- What `pkt_write()` makes of the packet when `w` bytes of it are out already. -/
structure WriteSpec (k : List UInt8) (w : ℕ) (outs : List WriteRet) (r : ℤ × List UInt8) (m : ℕ) :
    Prop where
  bound : w + m ≤ pktLen k
  out : r.2 = (k.drop w).take m
  ret : r.1 = -1 ∧ refuses outs = true ∨ r.1 = m

theorem writeSpec_stop (outs : List WriteRet) {m : ℕ} (hm : w + m ≤ pktLen k) :
    WriteSpec k w outs (((w + m : ℕ) : ℤ) - w, (k.drop w).take m) m where
  bound := hm
  out := rfl
  ret := Or.inr (by omega)

theorem pktWriteLoop_spec (k : List UInt8) (w : ℕ) (outs : List WriteRet) (m : ℕ)
    (hm : w + m ≤ pktLen k) : ∃ m', WriteSpec k w outs
      (pktWriteLoop w k outs (w + m) (pktLen k - (w + m)) ((k.drop w).take m)) m' := by
  induction outs generalizing m with
  | nil =>
    refine ⟨m, ?_⟩
    unfold pktWriteLoop
    split <;> exact writeSpec_stop [] hm
  | cons out outs ih =>
    by_cases hleft : 0 < pktLen k - (w + m)
    swap
    · refine ⟨m, ?_⟩
      unfold pktWriteLoop
      rw [if_neg hleft]
      exact writeSpec_stop _ hm
    cases out with
    | again =>
      refine ⟨m, ?_⟩
      unfold pktWriteLoop
      rw [if_pos hleft]
      exact writeSpec_stop _ hm
    | error =>
      refine ⟨m, ?_⟩
      unfold pktWriteLoop
      rw [if_pos hleft]
      exact ⟨hm, rfl, Or.inl ⟨rfl, rfl⟩⟩
    | intr =>
      obtain ⟨m', hspec⟩ := ih m hm
      refine ⟨m', ?_⟩
      rw [pktWriteLoop, if_pos hleft]
      exact ⟨hspec.bound, hspec.out, hspec.ret⟩
    | wrote x =>
      have hnext : w + (m + min x (pktLen k - (w + m))) ≤ pktLen k := by omega
      have hleft' : pktLen k - (w + m) - min x (pktLen k - (w + m)) =
          pktLen k - (w + (m + min x (pktLen k - (w + m)))) := by omega
      have hout : (k.drop w).take m ++ (k.drop (w + m)).take (min x (pktLen k - (w + m))) =
          (k.drop w).take (m + min x (pktLen k - (w + m))) := by
        rw [List.take_add, List.drop_drop]
      obtain ⟨m', hspec⟩ := ih _ hnext
      refine ⟨m', ?_⟩
      rw [pktWriteLoop, if_pos hleft]
      dsimp only
      rw [hleft', hout, Nat.add_assoc]
      exact ⟨hspec.bound, hspec.out, hspec.ret⟩

theorem pktWrite_spec (outs : List WriteRet) (hw : w ≤ pktLen k) :
    ∃ m, WriteSpec k w outs (pktWrite outs k w) m := by
  unfold pktWrite
  rw [if_neg (by omega)]
  have hloop := pktWriteLoop_spec k w outs 0 hw
  simpa using hloop

theorem pktWrite_whole {k reply : List UInt8} (h : k.take (pktLen k) = reply) :
    (pktWrite [.wrote pktSize] k 0).2 = reply := by
  have hle : pktLen k ≤ pktSize := by
    have hb := (byteAt k 2).toNat_lt
    simp only [pktLen, pktSize, pktHeader, pktPayload]
    omega
  have hpos : 0 < pktLen k := by
    unfold pktLen pktHeader
    omega
  have hone : pktWrite [.wrote pktSize] k 0 = ((pktLen k : ℤ), k.take (pktLen k)) := by
    unfold pktWrite pktWriteLoop
    simp only [Nat.not_lt_zero, gt_iff_lt, Nat.sub_zero, hpos, ↓reduceIte, Nat.min_eq_right hle,
      List.drop_zero, List.nil_append, Nat.zero_add, Nat.sub_self]
    unfold pktWriteLoop
    simp
  rw [hone]
  exact h

end Write

end Perp.Pkt
