import Perp.HashCopy
import Perp.IoqStream

set_option autoImplicit false

/-!
# Records from a stream

`cdbmk_addioq()` and `hdbmk_addioq()`: a record read piece by piece, as the input
queue is refilled, beside `cdbmk_add()` of the whole record.
-/
namespace Perp.HashStream
open Pkt ByteImage IoqPut HashFile CdbFormat HdbFormat HashImage HashAdded HashCopy
open IoqGet (ReadAns Input ioqFeed ioqGet ioqGetc readOnce unread Valid)
open IoqStream (ioqPeek ioqSeek Reader Faithful feed_faithful getc_faithful seek_faithful ioqPeek_length)

/-! ## The hash of a key in parts -/

/-- A loop of `cdb_hashpart()` and `hdb_hashpart()`, unrolled by four, and the bytes
that are left -/
def hashLoop (mix : UInt32 → UInt8 → UInt32) : UInt32 → List UInt8 → UInt32
  | h, a :: b :: c :: d :: key => hashLoop mix (mix (mix (mix (mix h a) b) c) d) key
  | h, [a, b, c] => mix (mix (mix h a) b) c
  | h, [a, b] => mix (mix h a) b
  | h, [a] => mix h a
  | h, [] => h

theorem hashLoop_eq (F : Format) (h : UInt32) (key : List UInt8) :
    hashLoop F.mix h key = F.hashpart h key := by
  fun_induction hashLoop F.mix h key with
  | case1 h a b c d key ih => exact ih
  | case2 h a b c => rfl
  | case3 h a b => rfl
  | case4 h a => rfl
  | case5 h => rfl

theorem hashpart_append (F : Format) (h : UInt32) (a b : List UInt8) :
    F.hashpart (F.hashpart h a) b = F.hashpart h (a ++ b) := List.foldl_append.symm

/-- However a key is parted, the hash of the parts one after the other is its hash. -/
theorem hashLoop_parts (F : Format) (h : UInt32) (parts : List (List UInt8)) :
    parts.foldl (hashLoop F.mix) h = F.hashpart h parts.flatten := by
  induction parts generalizing h with
  | nil => rfl
  | cons part parts ih =>
    rw [List.foldl_cons, ih, List.flatten_cons, hashLoop_eq, hashpart_append]

/-! ## The calls -/

structure Stream where
  q : IoqGet.Ioq
  i : Input
  out : Ioq
  hash : UInt32

/-- A loop of `cdbmk_addioq()` over `len` bytes, a `size_t`: `part` is what it makes of
the hash. What `ioq_feed()` returns is taken for a `uint32_t` when it is compared. -/
def feedLoop (part : UInt32 → List UInt8 → UInt32) : ℕ → ℕ → Stream → Bool × Stream
  | 0, _, s => (false, s)
  | fuel + 1, len, s =>
    if len = 0 then (true, s)
    else
      match ioqFeed s.q s.i with
      | (r, q, i) =>
        if r ≤ 0 then (false, { s with q := q, i := i })
        else
          let r := if r.toNat % 2 ^ 32 > len then len else r.toNat
          let hash := part s.hash (ioqPeek q r)
          let p := ioqPut s.out (ioqPeek q r)
          if p.1 = -1 then (false, ⟨q, i, p.2, hash⟩)
          else feedLoop part fuel ((len + 2 ^ 64 - r) % 2 ^ 64) ⟨ioqSeek q r, i, p.2, hash⟩

def drainSep : List UInt8 → IoqGet.Ioq → Input → Bool × IoqGet.Ioq × Input
  | [], q, i => (true, q, i)
  | sep :: seps, q, i =>
    match ioqGetc q i 0 with
    | (r, ch, q, i) =>
      if r ≤ 0 then (false, q, i) else if ch ≠ sep then (false, q, i) else drainSep seps q i

/-- Each round of a loop takes a byte of the stream at least. -/
def rounds (q : IoqGet.Ioq) (i : Input) : ℕ := (unread q i).length + 1

/-- `cdbmk_addioq()`; the check for overflow takes `uint32_t` of the lengths. -/
def addioq (F : Format) (m : Mk) (q : IoqGet.Ioq) (i : Input) (klen dlen : ℕ) (sep : List UInt8) :
    ℤ × Mk × IoqGet.Ioq × Input :=
  let rpos := m.fp % 2 ^ 32
  match recordEnd rpos F.hdr (klen % 2 ^ 32) (dlen % 2 ^ 32) with
  | none => (-1, m, q, i)
  | some fpUp =>
    let p := ioqPut m.ioq (F.pack klen ++ F.pack dlen)
    if p.1 = -1 then (-1, { m with ioq := p.2 }, q, i)
    else
      let k := feedLoop (hashLoop F.mix) (rounds q i) klen ⟨q, i, p.2, F.hashinit⟩
      if k.1 = false then (-1, { m with ioq := k.2.out }, k.2.q, k.2.i)
      else
        let s := drainSep sep k.2.q k.2.i
        if s.1 = false then (-1, { m with ioq := k.2.out }, s.2.1, s.2.2)
        else
          let d := feedLoop (fun h _ => h) (rounds s.2.1 s.2.2) dlen
            { k.2 with q := s.2.1, i := s.2.2 }
          if d.1 = false then (-1, { m with ioq := d.2.out }, d.2.q, d.2.i)
          else
            let r := update F { m with ioq := d.2.out } d.2.hash rpos fpUp
            (r.1, r.2, d.2.q, d.2.i)

def cdbmkAddioq (m : Mk) (q : IoqGet.Ioq) (i : Input) (klen dlen : ℕ) (sep : List UInt8) :
    ℤ × Mk × IoqGet.Ioq × Input := addioq cdbFormat m q i klen dlen sep

/-- `hdbmk_addioq()`, as `addition` is `hdbmk_add()` -/
def additionIoq (m : Mk) (q : IoqGet.Ioq) (i : Input) (klen dlen : ℕ) (sep : List UInt8) :
    ℤ × Mk × IoqGet.Ioq × Input :=
  if klen > hdbU24max ∨ dlen > hdbU24max then (-1, m, q, i) else addioq hdbFormat m q i klen dlen sep

def hdbmkAddioq (m : Hdbmk) (q : IoqGet.Ioq) (i : Input) (klen dlen : ℕ) (sep : List UInt8) :
    ℤ × Hdbmk × IoqGet.Ioq × Input :=
  let r := additionIoq m.toMk q i klen dlen sep
  (r.1, { m with toMk := r.2.1 }, r.2.2)

/-- No `write()` fails, whatever it takes of what it is given. -/
structure Calm (q : Ioq) : Prop where
  again : .again ∉ q.d.writes
  error : .error ∉ q.d.writes

/-- From `q` to `q'` the bytes `bytes` have been put. -/
def Puts (q q' : Ioq) (bytes : List UInt8) : Prop :=
  ∀ f off out, Sent f off q out → Sent f off q' (out ++ bytes)

/-! ## Writing -/

section write
variable {q q' q'' : Ioq} {d : Fd} {buf data : List UInt8}

theorem writeAll_calm {writes : List WriteRet} (ha : .again ∉ writes) (he : .error ∉ writes) :
    (writeAll d buf writes).1 = 0 ∧ (writeAll d buf writes).2.writes ⊆ writes := by
  induction writes generalizing d buf with
  | nil => exact ⟨rfl, List.Subset.refl _⟩
  | cons ret writes ih =>
    have hsub := List.subset_cons_self ret writes
    unfold writeAll
    by_cases hb : buf = []
    · rw [if_pos hb]
      exact ⟨rfl, List.Subset.refl _⟩
    · rw [if_neg hb]
      cases ret with
      | wrote w =>
        obtain ⟨hret, hleft⟩ := @ih { d with
          file := pwrite d.file d.off (buf.take (min w buf.length))
          off := d.off + min w buf.length } (buf.drop (min w buf.length))
          (fun h => ha (hsub h)) fun h => he (hsub h)
        exact ⟨hret, List.Subset.trans hleft hsub⟩
      | intr =>
        obtain ⟨hret, hleft⟩ := @ih d buf (fun h => ha (hsub h)) fun h => he (hsub h)
        exact ⟨hret, List.Subset.trans hleft hsub⟩
      | again => exact absurd List.mem_cons_self ha
      | error => exact absurd List.mem_cons_self he

theorem calm_writeAll (h : Calm q) (data : List UInt8) :
    (writeAll q.d data q.d.writes).1 = 0 ∧
      Calm { q with d := (writeAll q.d data q.d.writes).2 } := by
  obtain ⟨hret, hsub⟩ := @writeAll_calm q.d data q.d.writes h.again h.error
  exact ⟨hret, fun hm => h.again (hsub hm), fun hm => h.error (hsub hm)⟩

theorem ioqFlush_calm (h : Calm q) : (ioqFlush q).1 = 0 ∧ Calm (ioqFlush q).2 := by
  unfold ioqFlush
  by_cases hb : q.buf = []
  · rw [if_pos hb]
    exact ⟨rfl, h⟩
  · rw [if_neg hb]
    obtain ⟨hret, hcalm⟩ := calm_writeAll h q.buf
    exact ⟨hret, hcalm.again, hcalm.error⟩

theorem ioqBlocks_calm (h : Calm q) (fuel n : ℕ) (data : List UInt8) :
    (ioqBlocks fuel q n data).1 = 0 ∧ Calm (ioqBlocks fuel q n data).2.1 := by
  induction fuel generalizing q n data with
  | zero => exact ⟨rfl, h⟩
  | succ fuel ih =>
    unfold ioqBlocks
    by_cases hfits : data.length ≤ q.n
    · rw [if_pos hfits]
      exact ⟨rfl, h⟩
    · obtain ⟨hret, hcalm⟩ := calm_writeAll h (data.take (min n data.length))
      rw [if_neg hfits]
      simp only [if_neg (show ¬ (writeAll q.d (data.take (min n data.length)) q.d.writes).1 = -1 by
        omega)]
      exact ih hcalm _ _

theorem ioqPut_calm (h : Calm q) (data : List UInt8) :
    (ioqPut q data).1 = 0 ∧ Calm (ioqPut q data).2 := by
  unfold ioqPut
  by_cases hfits : data.length ≤ q.n - q.buf.length
  · rw [if_pos hfits]
    exact ⟨rfl, h.again, h.error⟩
  · obtain ⟨hret, hflush⟩ := ioqFlush_calm h
    obtain ⟨hblocks, hcalm⟩ := ioqBlocks_calm hflush data.length (max q.n ioqBufsize) data
    rw [if_neg hfits]
    simp only [hret, hblocks]
    exact ⟨rfl, hcalm.again, hcalm.error⟩

theorem puts_calm (h : Calm q) (pieces : List (List UInt8)) : (puts q pieces).1 = 0 := by
  induction pieces generalizing q with
  | nil => rfl
  | cons data pieces ih =>
    obtain ⟨hret, hput⟩ := ioqPut_calm h data
    unfold puts
    simp only [hret]
    exact ih hput

theorem Puts.trans {a b : List UInt8} (h : Puts q q' a) (h' : Puts q' q'' b) :
    Puts q q'' (a ++ b) := by
  intro f off out hsent
  rw [← List.append_assoc]
  exact h' f off _ (h f off out hsent)

theorem puts_self (q : Ioq) : Puts q q [] := by
  intro f off out hsent
  rwa [List.append_nil]

theorem puts_ioqPut (h : (ioqPut q data).1 ≠ -1) : Puts q (ioqPut q data).2 data :=
  fun _ _ _ hsent => hsent.put ((ioqPut_ret q data).resolve_right h)

end write

/-! ## Reading -/

/-- No refill is too large for a `uint32_t`: the buffer is not, or the rest of the
stream will come byte by byte. -/
def Tame (q : IoqGet.Ioq) (i : Input) : Prop :=
  q.buf.length < 2 ^ 32 ∨
    q.p ≤ 1 ∧ ∃ n, i.rest.length ≤ n ∧ i.answers = List.replicate n (.chunk 1)

/-- A queue in good order before the stream `left`, with refills that are not too
large if `t` -/
structure Before (t : Prop) (len : ℕ) (q : IoqGet.Ioq) (i : Input) (left : List UInt8) : Prop where
  valid : Valid q
  size : q.buf.length = len
  tame : t → Tame q i
  good : .error ∉ i.answers
  stream : unread q i = left

section read
variable {t : Prop} {q q' : IoqGet.Ioq} {i i' : Input} {len : ℕ} {left rest bytes : List UInt8} {r : ℤ}

theorem readOnce_one {want n : ℕ} (hw : 0 < want) (hi : i.rest.length ≤ n)
    (ha : i.answers = List.replicate n (.chunk 1)) : ∃ k,
      readOnce i.rest want i.answers =
        (some (i.rest.take 1), ⟨i.rest.drop 1, List.replicate k (.chunk 1)⟩) ∧
      (i.rest.drop 1).length ≤ k := by
  cases n with
  | zero =>
    have hnil : i.rest = [] := List.length_eq_zero_iff.mp (by omega)
    refine ⟨0, ?_, by simp [hnil]⟩
    rw [ha, hnil]
    simp [readOnce]
  | succ n =>
    refine ⟨n, ?_, by rw [List.length_drop]; omega⟩
    have hmin : min (max 1 1) want = 1 := by omega
    rw [ha, List.replicate_succ]
    simp only [readOnce, hmin]

theorem tame_feed (ht : Tame q i) (hsize : q'.buf.length = q.buf.length) (hn : 0 < q.n ∨ q.p ≠ 0)
    (h : ioqFeed q i = (r, q', i')) : Tame q' i' := by
  rcases ht with hlen | ⟨hp, n, hrest, hans⟩
  · exact .inl (hsize ▸ hlen)
  · unfold ioqFeed at h
    by_cases h0 : q.p = 0
    · obtain ⟨k, hread, hk⟩ := readOnce_one (hn.resolve_right (not_not.mpr h0)) hrest hans
      rw [if_neg (not_not.mpr h0), hread] at h
      by_cases hnil : i.rest.take 1 = []
      · simp only [if_pos hnil, Prod.mk.injEq] at h
        obtain ⟨-, rfl, rfl⟩ := h
        exact .inr ⟨hp, k, hk, rfl⟩
      · simp only [if_neg hnil, Prod.mk.injEq] at h
        obtain ⟨-, rfl, rfl⟩ := h
        refine .inr ⟨?_, k, hk, rfl⟩
        simp only [List.length_take]
        omega
    · rw [if_pos h0] at h
      obtain ⟨-, rfl, rfl⟩ := Prod.mk.injEq .. ▸ h
      exact .inr ⟨hp, n, hrest, hans⟩

theorem Before.positive (h : Before t len q i left) (hne : left ≠ []) {out : List UInt8} {s : Reader}
    (hf : Faithful ⟨q, i⟩ (some r) out s) : 0 < r := by
  by_contra hle
  by_cases h0 : r = 0
  · have hrest : i.rest = [] := hf.eof (congrArg some h0)
    have hq : q.p = 0 := (hf.ended r rfl (by omega)).1
    have hnil := h.stream
    rw [IoqStream.unread_of_empty _ hq, hrest] at hnil
    exact hne hnil.symm
  · exact h.good (hf.failed r rfl (by omega))

theorem Before.feed (h : Before t len q i left) (hne : left ≠ []) : ∃ (r : ℕ) (q' : IoqGet.Ioq) (i' : Input),
    ioqFeed q i = ((r : ℤ), q', i') ∧ 0 < r ∧ r = q'.p ∧ (t → r < 2 ^ 32) ∧
      Before t len q' i' left := by
  obtain ⟨r, q', i', hfeed, hf, hpos⟩ := @feed_faithful ⟨q, i⟩ h.valid
  have hstream := hf.stream
  simp only [List.nil_append, h.stream] at hstream
  have hroom := h.valid.room
  have hvpos := h.valid.pos
  have htame := fun ht => tame_feed (h.tame ht) hf.size (by omega) hfeed
  have hr := h.positive hne hf
  obtain ⟨hrp, hp0⟩ := hpos hr
  refine ⟨q'.p, q', i', ?_, Nat.pos_of_ne_zero hp0, rfl, fun ht => ?_,
    hf.valid, hf.size.trans h.size, htame, fun hm => h.good (hf.answers hm), hstream.symm⟩
  · rw [hfeed, hrp]
  · rcases htame ht with hlen | ⟨hp, -⟩
    · have hroom' : q'.n + q'.p = q'.buf.length := hf.valid.room
      have hsmall : q'.buf.length < 2 ^ 32 := hlen
      omega
    · exact Nat.lt_of_le_of_lt hp (by decide)

theorem Before.seek (h : Before t len q i (bytes ++ rest)) (hl : bytes.length ≤ q.p) :
    ioqPeek q bytes.length = bytes ∧ Before t len (ioqSeek q bytes.length) i rest := by
  have hf := @seek_faithful ⟨q, i⟩ h.valid _ hl none (by simp)
  have hstream := hf.stream
  have hlen := ioqPeek_length h.valid hl
  rw [h.stream] at hstream
  obtain ⟨hbytes, hrest⟩ := List.append_inj hstream hlen.symm
  refine ⟨hbytes.symm, hf.valid, hf.size.trans h.size, fun ht => ?_, h.good, hrest.symm⟩
  rcases h.tame ht with hsmall | ⟨hp, hones⟩
  · exact .inl hsmall
  · exact .inr ⟨Nat.le_trans (Nat.sub_le _ _) hp, hones⟩

theorem tame_getc (hv : Valid q) (ht : Tame q i) {ch c : UInt8}
    (hsize : q'.buf.length = q.buf.length) (h : ioqGetc q i c = (r, ch, q', i')) : Tame q' i' := by
  by_cases hlen : q.buf.length < 2 ^ 32
  · exact .inl (hsize ▸ hlen)
  · obtain ⟨hp, n, hrest, hans⟩ := ht.resolve_left hlen
    have hroom := hv.room
    unfold ioqGetc at h
    by_cases h0 : q.p > 0
    · rw [if_pos h0] at h
      simp only [Prod.mk.injEq] at h
      obtain ⟨-, -, rfl, rfl⟩ := h
      exact .inr ⟨Nat.le_trans (Nat.sub_le _ _) hp, n, hrest, hans⟩
    · -- the buffer is empty and has more room than the byte takes
      have hroomy : ¬ q.n ≤ 1 := by omega
      rw [if_neg h0] at h
      simp only [ioqGet, if_neg h0, if_neg hroomy] at h
      obtain ⟨r1, q1, i1, hfeed, hf, -⟩ := @feed_faithful ⟨q, i⟩ hv
      have htame := tame_feed ht hf.size (by omega) hfeed
      simp only [hfeed] at h
      by_cases hr1 : r1 ≤ 0
      · simp only [if_pos hr1, Prod.mk.injEq] at h
        obtain ⟨-, -, rfl, rfl⟩ := h
        exact htame
      · simp only [if_neg hr1, IoqStream.ioqExtract_eq, Prod.mk.injEq] at h
        obtain ⟨-, -, rfl, rfl⟩ := h
        rcases htame with hsmall | ⟨hp1, hones⟩
        · exact .inl hsmall
        · exact .inr ⟨Nat.le_trans (Nat.sub_le _ _) hp1, hones⟩

theorem Before.getc {x : UInt8} (h : Before t len q i (x :: rest)) (c : UInt8) : ∃ q' i',
    ioqGetc q i c = (1, x, q', i') ∧ Before t len q' i' rest := by
  obtain ⟨r, ch, q', i', hgetc, hle, hf⟩ := @getc_faithful ⟨q, i⟩ h.valid c
  have hstream := hf.stream
  have htame := fun ht => tame_getc h.valid (h.tame ht) hf.size hgetc
  simp only [h.stream] at hstream
  by_cases hr : r = 1
  · subst hr
    rw [if_pos rfl] at hstream
    obtain ⟨rfl, hrest⟩ := List.cons.inj hstream
    exact ⟨q', i', hgetc, hf.valid, hf.size.trans h.size, htame,
      fun hm => h.good (hf.answers hm), hrest.symm⟩
  · have hpos := h.positive (List.cons_ne_nil x rest) hf
    omega

theorem drainSep_spec {sep : List UInt8} (h : Before t len q i (sep ++ rest)) : ∃ q' i',
    drainSep sep q i = (true, q', i') ∧ Before t len q' i' rest := by
  induction sep generalizing q i with
  | nil => exact ⟨q, i, rfl, h⟩
  | cons x sep ih =>
    obtain ⟨q1, i1, hgetc, h1⟩ := h.getc 0
    obtain ⟨q', i', hdrain, h'⟩ := ih h1
    refine ⟨q', i', ?_, h'⟩
    unfold drainSep
    simp only [hgetc, hdrain]
    simp

/-- One round of a loop that is not through: what there is in the buffer, or what is
still wanted of it, is put. -/
theorem feedLoop_round {part : UInt32 → List UInt8 → UInt32} {fuel n r : ℕ} {s : Stream}
    (h0 : n ≠ 0) (hfeed : ioqFeed s.q s.i = ((r : ℤ), q, i)) (hr : 0 < r) {k : ℕ}
    (hk : (if r % 2 ^ 32 > n then n else r) = k) :
    feedLoop part (fuel + 1) n s =
      if (ioqPut s.out (ioqPeek q k)).1 = -1 then
        (false, ⟨q, i, (ioqPut s.out (ioqPeek q k)).2, part s.hash (ioqPeek q k)⟩)
      else
        feedLoop part fuel ((n + 2 ^ 64 - k) % 2 ^ 64)
          ⟨ioqSeek q k, i, (ioqPut s.out (ioqPeek q k)).2, part s.hash (ioqPeek q k)⟩ := by
  rw [feedLoop, if_neg h0, hfeed]
  simp only [if_neg (show ¬ (r : ℤ) ≤ 0 by omega), Int.toNat_natCast, hk]

/-- A loop over bytes that are next in the input: it puts them, whatever the pieces
they come in, unless a `write()` fails. -/
theorem feedLoop_spec {part : UInt32 → List UInt8 → UInt32} (hnil : ∀ h, part h [] = h)
    (happ : ∀ h a b, part (part h a) b = part h (a ++ b)) {out : Ioq} {hash : UInt32} {fuel : ℕ}
    (h : Before t len q i (bytes ++ rest)) (ht : t ∨ bytes = []) (hlt : bytes.length < 2 ^ 64)
    (hfuel : bytes.length < fuel) :
    ∃ ok s, feedLoop part fuel bytes.length ⟨q, i, out, hash⟩ = (ok, s) ∧
      (Calm out → ok = true ∧ Calm s.out) ∧
      (ok = true → Before t len s.q s.i rest ∧ s.hash = part hash bytes ∧ Puts out s.out bytes) := by
  induction fuel generalizing bytes q i out hash with
  | zero => omega
  | succ fuel ih =>
    by_cases h0 : bytes.length = 0
    · rw [feedLoop, if_pos h0]
      obtain rfl := List.length_eq_zero_iff.mp h0
      exact ⟨true, _, rfl, fun hcalm => ⟨rfl, hcalm⟩, fun _ => ⟨h, (hnil hash).symm, puts_self out⟩⟩
    · have hne : bytes ++ rest ≠ [] := by
        intro hempty
        exact h0 (by rw [(List.append_eq_nil_iff.mp hempty).1]; rfl)
      obtain ⟨r, q1, i1, hfeed, hr, hrp, hrlt, h1⟩ := h.feed hne
      have htame := ht.resolve_right fun hb => h0 (by rw [hb]; rfl)
      -- as much of the bytes as there is, or what is still to come of them
      obtain ⟨k, hk⟩ : ∃ k, (if r % 2 ^ 32 > bytes.length then bytes.length else r) = k := ⟨_, rfl⟩
      have hkr : 0 < k ∧ k ≤ r ∧ k ≤ bytes.length := by
        rw [← hk, Nat.mod_eq_of_lt (hrlt htame)]
        split_ifs <;> omega
      have hlen : (bytes.take k).length = k := by
        rw [List.length_take]
        omega
      have hsplit : bytes ++ rest = bytes.take k ++ (bytes.drop k ++ rest) := by
        rw [← List.append_assoc, List.take_append_drop]
      rw [hsplit] at h1
      obtain ⟨hpeek, h2⟩ := h1.seek (by omega)
      rw [hlen] at hpeek h2
      have hleft : (bytes.length + 2 ^ 64 - k) % 2 ^ 64 = (bytes.drop k).length := by
        rw [List.length_drop]
        omega
      rw [@feedLoop_round q1 i1 part fuel _ r ⟨q, i, out, hash⟩ h0 hfeed hr k hk, hpeek, hleft]
      by_cases hput : (ioqPut out (bytes.take k)).1 = -1
      · rw [if_pos hput]
        refine ⟨false, _, rfl, fun hcalm => ?_, fun hno => by simp at hno⟩
        have := (ioqPut_calm hcalm (bytes.take k)).1
        omega
      · rw [if_neg hput]
        obtain ⟨ok, s, hrun, hcalm, hok⟩ := @ih (ioqSeek q1 k) i1 (bytes.drop k)
          (ioqPut out (bytes.take k)).2 (part hash (bytes.take k)) h2 (.inl htame)
          (by rw [List.length_drop]; omega) (by rw [List.length_drop]; omega)
        refine ⟨ok, s, hrun, fun hc => hcalm (ioqPut_calm hc _).2, fun htrue => ?_⟩
        obtain ⟨hbefore, hhash, hputs⟩ := hok htrue
        refine ⟨hbefore, ?_, ?_⟩
        · rw [hhash, happ, List.take_append_drop]
        · have hall := (puts_ioqPut hput).trans hputs
          rwa [List.take_append_drop] at hall

end read

/-! ## One record -/

section record
variable {F : Format} {m : Mk} {key sep data : List UInt8} {fpUp : ℕ}

/-- `cdbmk__update()` does not look at the output. -/
theorem update_ioq (F : Format) (m : Mk) (q : Ioq) (hash : UInt32) (rpos fpUp : ℕ) :
    update F { m with ioq := q } hash rpos fpUp =
      ((update F m hash rpos fpUp).1, { (update F m hash rpos fpUp).2 with ioq := q }) := by
  unfold update
  simp only
  generalize roomy F m.mem (m.inputList (F.nlist (F.ntab hash))) = res
  obtain ⟨r, mem⟩ := res
  cases r with
  | none => rfl
  | some r => rfl

/-- The record has been put and `cdbmk__update()` called for it. -/
structure Took (F : Format) (m : Mk) (key data : List UInt8) (fpUp : ℕ) (r : ℤ × Mk) : Prop where
  ret : r.1 = (update F m (F.hash key) (m.fp % 2 ^ 32) fpUp).1
  state : r.2 = { (update F m (F.hash key) (m.fp % 2 ^ 32) fpUp).2 with ioq := r.2.ioq }
  put : Puts m.ioq r.2.ioq (record F (key, data))

theorem took_update {q : Ioq} {hash : UInt32} (hhash : hash = F.hash key)
    (hput : Puts m.ioq q (record F (key, data))) :
    Took F m key data fpUp (update F { m with ioq := q } hash (m.fp % 2 ^ 32) fpUp) := by
  subst hhash
  rw [update_ioq]
  exact ⟨rfl, rfl, hput⟩

/-- `cdbmk_add()` takes a record that fits, unless a `write()` fails. -/
theorem add_took (hend : recordEnd (m.fp % 2 ^ 32) F.hdr key.length data.length = some fpUp) :
    Took F m key data fpUp (add F m key data) ∨ ¬ Calm m.ioq ∧ (add F m key data).1 = -1 := by
  have hheader : F.pack key.length ++ F.pack data.length = header F (key, data) := rfl
  unfold add
  simp only [hend, hheader]
  by_cases hput : (puts m.ioq [header F (key, data), key, data]).1 = -1
  · refine .inr ⟨fun hcalm => ?_, by simp [hput]⟩
    have := puts_calm hcalm [header F (key, data), key, data]
    omega
  · rw [if_neg hput]
    refine .inl (took_update rfl fun f off out hsent => ?_)
    have hsent' := hsent.puts hput
    simpa [record] using hsent'

/-- `cdbmk_addioq()` takes a record that is next in the input, with lengths whose
`uint32_t` fit, unless a `write()` fails. -/
theorem addioq_took {t : Prop} {len : ℕ} {q : IoqGet.Ioq} {i : Input} {rest : List UInt8}
    (h : Before t len q i (key ++ (sep ++ (data ++ rest)))) (ht : t ∨ key = [] ∧ data = [])
    (hkey : key.length < 2 ^ 64) (hdata : data.length < 2 ^ 64)
    (hend : recordEnd (m.fp % 2 ^ 32) F.hdr (key.length % 2 ^ 32) (data.length % 2 ^ 32) =
      some fpUp) :
    (Took F m key data fpUp ((addioq F m q i key.length data.length sep).1,
        (addioq F m q i key.length data.length sep).2.1) ∧
      Before t len (addioq F m q i key.length data.length sep).2.2.1
        (addioq F m q i key.length data.length sep).2.2.2 rest) ∨
      ¬ Calm m.ioq ∧ (addioq F m q i key.length data.length sep).1 = -1 := by
  unfold addioq
  simp only [hend]
  by_cases h1 : (ioqPut m.ioq (F.pack key.length ++ F.pack data.length)).1 = -1
  · refine .inr ⟨fun hcalm => ?_, by simp [h1]⟩
    have := (ioqPut_calm hcalm (F.pack key.length ++ F.pack data.length)).1
    omega
  · rw [if_neg h1]
    generalize hq1 : (ioqPut m.ioq (F.pack key.length ++ F.pack data.length)).2 = q1
    have hp1 := hq1 ▸ puts_ioqPut h1
    have hc1 : Calm m.ioq → Calm q1 := fun hcalm => hq1 ▸ (ioqPut_calm hcalm _).2
    have hrounds : key.length < rounds q i := by
      rw [rounds, h.stream, List.length_append]
      omega
    obtain ⟨ok, k, hk, hkcalm, hkok⟩ := @feedLoop_spec t q i len _ key (hashLoop F.mix)
      (fun h => hashLoop_eq F h []) (fun h a b => by
        rw [hashLoop_eq, hashLoop_eq, hashLoop_eq, hashpart_append]) q1 F.hashinit _ h
      (ht.imp_right And.left) hkey hrounds
    rw [hk]
    cases ok with
    | false =>
      refine .inr ⟨fun hcalm => ?_, rfl⟩
      have := (hkcalm (hc1 hcalm)).1
      simp at this
    | true =>
      obtain ⟨hkbefore, hkhash, hkput⟩ := hkok rfl
      obtain ⟨q2, i2, hdrain, h2⟩ := drainSep_spec hkbefore
      have hrounds' : data.length < rounds q2 i2 := by
        rw [rounds, h2.stream, List.length_append]
        omega
      obtain ⟨ok, d, hd, hdcalm, hdok⟩ := @feedLoop_spec t q2 i2 len rest data (fun h _ => h)
        (fun _ => rfl) (fun _ _ _ => rfl) k.out k.hash _ h2 (ht.imp_right And.right) hdata hrounds'
      simp only [hdrain, hd]
      cases ok with
      | false =>
        refine .inr ⟨fun hcalm => ?_, rfl⟩
        have := (hdcalm (hkcalm (hc1 hcalm)).2).1
        simp at this
      | true =>
        obtain ⟨hdbefore, hdhash, hdput⟩ := hdok rfl
        refine .inl ⟨took_update ?_ ((hp1.trans hkput).trans hdput), hdbefore⟩
        rw [hdhash, hkhash, hashLoop_eq]
        rfl

end record

/-! ## When a stream is as good as the record -/

/-- `stream` of a record that is next in an input with a buffer of `len` bytes does
what `whole` does with the record: it returns 0 just when that does, unless a `write()`
fails; then the same has been put and everything else of the generator is the same,
and the input is behind the record. -/
def StreamsAs (F : Format) (stream : Mk → IoqGet.Ioq → Input → ℕ → ℕ → List UInt8 →
      ℤ × Mk × IoqGet.Ioq × Input) (whole : Mk → List UInt8 → List UInt8 → ℤ × Mk)
    (m : Mk) (key sep data : List UInt8) (len : ℕ) : Prop :=
  ∀ writes seeks mem q i rest, Valid q → q.buf.length = len → .error ∉ i.answers →
    unread q i = key ++ (sep ++ (data ++ rest)) →
    let m := onCalls m writes seeks mem
    let a := stream m q i key.length data.length sep
    let b := whole m key data
    (Calm m.ioq → (a.1 = 0 ↔ b.1 = 0)) ∧
      (a.1 = 0 → b.1 = 0 → a.2.1 = { b.2 with ioq := a.2.1.ioq } ∧
        Puts m.ioq a.2.1.ioq (record F (key, data)) ∧ Puts m.ioq b.2.ioq (record F (key, data))) ∧
      (a.1 = 0 → Valid a.2.2.1 ∧ unread a.2.2.1 a.2.2.2 = rest)

/-- The lengths, or the `uint32_t` of them, do not fit, or they are what the code takes
them for, and so is the size of every refill. -/
def Streamable (F : Format) (fp klen dlen len : ℕ) : Prop :=
  2 ^ 32 ≤ fp % 2 ^ 32 + F.hdr + klen % 2 ^ 32 + dlen % 2 ^ 32 ∨
    klen < 2 ^ 32 ∧ dlen < 2 ^ 32 ∧ (len < 2 ^ 32 ∨ klen = 0 ∧ dlen = 0)

section iff
variable {F : Format} {m : Mk} {key sep data : List UInt8} {len : ℕ}

theorem mod_lt (n : ℕ) : n % 2 ^ 32 < 2 ^ 32 := Nat.mod_lt n (by decide)

theorem streamsAs_of_streamable (hkey : key.length < 2 ^ 64) (hdata : data.length < 2 ^ 64)
    (h : Streamable F m.fp key.length data.length len) :
    StreamsAs F (addioq F) (add F) m key sep data len := by
  intro writes seeks mem q i rest hv hlen hgood hstream m' a b
  have hfp : m'.fp = m.fp := rfl
  have hend := @recordEnd_eq_none (m'.fp % 2 ^ 32) F.hdr (key.length % 2 ^ 32)
    (data.length % 2 ^ 32) (mod_lt _)
  cases hfits : recordEnd (m'.fp % 2 ^ 32) F.hdr (key.length % 2 ^ 32) (data.length % 2 ^ 32) with
  | none =>
    have hwhole : recordEnd (m'.fp % 2 ^ 32) F.hdr key.length data.length = none := by
      have hbig := hend.mp hfits
      have hk := Nat.mod_le key.length (2 ^ 32)
      have hd := Nat.mod_le data.length (2 ^ 32)
      exact (recordEnd_eq_none (mod_lt _)).mpr (by omega)
    have ha : a.1 = -1 := by
      change (addioq F m' q i key.length data.length sep).1 = -1
      unfold addioq
      simp only [hfits]
    have hb : b.1 = -1 := by
      change (add F m' key data).1 = -1
      unfold add
      simp only [hwhole]
    rw [ha, hb]
    simp
  | some fpUp =>
    obtain ⟨hk, hd, hsmall⟩ := h.resolve_left (by rw [← hfp, ← hend, hfits]; simp)
    have hwhole := hfits
    rw [Nat.mod_eq_of_lt hk, Nat.mod_eq_of_lt hd] at hwhole
    have hbefore : Before (len < 2 ^ 32) len q i (key ++ (sep ++ (data ++ rest))) :=
      ⟨hv, hlen, fun ht => .inl (hlen.symm ▸ ht), hgood, hstream⟩
    have hempty : len < 2 ^ 32 ∨ key = [] ∧ data = [] := hsmall.imp_right fun h =>
      ⟨List.length_eq_zero_iff.mp h.1, List.length_eq_zero_iff.mp h.2⟩
    have hstreamed : Took F m' key data fpUp (a.1, a.2.1) ∧
        Before (len < 2 ^ 32) len a.2.2.1 a.2.2.2 rest ∨ ¬ Calm m'.ioq ∧ a.1 = -1 :=
      addioq_took hbefore hempty hkey hdata hfits
    have hadded : Took F m' key data fpUp b ∨ ¬ Calm m'.ioq ∧ b.1 = -1 := add_took hwhole
    refine ⟨fun hcalm => ?_, fun ha hb => ?_, fun ha => ?_⟩
    · obtain ⟨hta, -⟩ := hstreamed.resolve_right fun h => h.1 hcalm
      have htb := hadded.resolve_right fun h => h.1 hcalm
      have hra : a.1 = _ := hta.ret
      rw [hra, htb.ret]
    · obtain ⟨hta, -⟩ := hstreamed.resolve_right fun h => by omega
      have htb := hadded.resolve_right fun h => by omega
      refine ⟨?_, hta.put, htb.put⟩
      have hsa : a.2.1 = _ := hta.state
      have hsb : b.2 = _ := htb.state
      rw [hsa, hsb]
    · obtain ⟨-, hbehind⟩ := hstreamed.resolve_right fun h => by omega
      exact ⟨hbehind.valid, hbehind.stream⟩

/-! ## Lengths that do not fit, and refills that are too large -/

theorem before_new {t : Prop} {left : List UInt8} {answers : List ReadAns} (hL : 0 < len)
    (ht : t → Tame (IoqGet.ioqInit len) ⟨left, answers⟩) (hgood : .error ∉ answers) :
    Before t len (IoqGet.ioqInit len) ⟨left, answers⟩ left :=
  ⟨IoqGet.valid_init hL, List.length_replicate, ht, hgood, IoqGet.unread_init len _⟩

theorem took_zero {fpUp : ℕ} {r : ℤ × Mk} (hmem : m.mem = []) (h : Took F m key data fpUp r) :
    r.1 = 0 := h.ret.trans (update_ok hmem _ _ _).1

theorem calm_onCalls (m : Mk) : Calm (onCalls m [] [] []).ioq := ⟨by simp [onCalls], by simp [onCalls]⟩

/-- Lengths of which only the `uint32_t` fit are accepted. -/
theorem not_streamsAs_of_long (hL : 0 < len) (hkey : key.length < 2 ^ 64)
    (hdata : data.length < 2 ^ 64) (hlong : 2 ^ 32 ≤ key.length ∨ 2 ^ 32 ≤ data.length)
    (hfits : ¬ 2 ^ 32 ≤ m.fp % 2 ^ 32 + F.hdr + key.length % 2 ^ 32 + data.length % 2 ^ 32) :
    ¬ StreamsAs F (addioq F) (add F) m key sep data len := by
  intro hall
  obtain ⟨n, hn⟩ : ∃ n, (key ++ (sep ++ (data ++ []))).length = n := ⟨_, rfl⟩
  have hgood : ReadAns.error ∉ List.replicate n (.chunk 1) := by
    intro hm
    have := List.eq_of_mem_replicate hm
    simp at this
  have hbefore := @before_new len True (key ++ (sep ++ (data ++ []))) (List.replicate n (.chunk 1)) hL
    (fun _ => .inr ⟨Nat.zero_le 1, n, Nat.le_of_eq hn, rfl⟩) hgood
  obtain ⟨hzero, -⟩ := hall [] [] [] _ _ [] hbefore.valid hbefore.size hgood hbefore.stream
  have hend : recordEnd ((onCalls m [] [] []).fp % 2 ^ 32) F.hdr (key.length % 2 ^ 32)
      (data.length % 2 ^ 32) = some (m.fp % 2 ^ 32 + F.hdr + key.length % 2 ^ 32 +
        data.length % 2 ^ 32) :=
    (recordEnd_eq_some (mod_lt _)).mpr ⟨Nat.not_le.mp hfits, rfl⟩
  obtain ⟨htook, -⟩ := (addioq_took hbefore (.inl trivial) hkey hdata hend).resolve_right
    fun h => h.1 (calm_onCalls m)
  have hadd := ((hzero (calm_onCalls m)).mp (took_zero rfl htook))
  have hnone : recordEnd ((onCalls m [] [] []).fp % 2 ^ 32) F.hdr key.length data.length = none :=
    (recordEnd_eq_none (mod_lt _)).mpr (by omega)
  unfold add at hadd
  simp only [hnone] at hadd
  omega

/-- What a loop that is through has taken, it has put. -/
theorem feedLoop_puts {part : UInt32 → List UInt8 → UInt32} {fuel n : ℕ} {s : Stream}
    (h : (feedLoop part fuel n s).1 = true) :
    ∃ bytes, Puts s.out (feedLoop part fuel n s).2.out bytes := by
  induction fuel generalizing n s with
  | zero => simp [feedLoop] at h
  | succ fuel ih =>
    unfold feedLoop at h ⊢
    by_cases h0 : n = 0
    · rw [if_pos h0]
      exact ⟨[], puts_self s.out⟩
    · rw [if_neg h0] at h ⊢
      generalize ioqFeed s.q s.i = feed at h ⊢
      obtain ⟨r, q, i⟩ := feed
      by_cases hr : r ≤ 0
      · simp [hr] at h
      · simp only [if_neg hr] at h ⊢
        generalize (if r.toNat % 2 ^ 32 > n then n else r.toNat) = k at h ⊢
        by_cases hput : (ioqPut s.out (ioqPeek q k)).1 = -1
        · simp [hput] at h
        · rw [if_neg hput] at h ⊢
          obtain ⟨bytes, hbytes⟩ := ih h
          exact ⟨ioqPeek q k ++ bytes, (puts_ioqPut hput).trans hbytes⟩

/-- A refill of 2^32 bytes is 0 when it is compared: all of it is taken for a part of
the record. -/
theorem feedLoop_wraps {part : UInt32 → List UInt8 → UInt32} {fuel n : ℕ} {s : Stream}
    {left : List UInt8} {answers : List ReadAns} (hv : Before False len s.q s.i left)
    (hp : s.q.p = 0) (hL : 2 ^ 32 ≤ len) (ha : s.i.answers = .chunk (2 ^ 32) :: answers)
    (hbig : 2 ^ 32 ≤ left.length) (hn : 0 < n) (h : (feedLoop part fuel n s).1 = true) :
    ∃ bytes, 2 ^ 32 ≤ bytes.length ∧ Puts s.out (feedLoop part fuel n s).2.out bytes := by
  cases fuel with
  | zero => simp [feedLoop] at h
  | succ fuel =>
    have hne : left ≠ [] := by
      intro hnil
      rw [hnil] at hbig
      simp at hbig
    obtain ⟨r, q1, i1, hfeed, hr, hrp, -, h1⟩ := hv.feed hne
    have hroom := hv.valid.room
    have hrest : s.i.rest = left := by
      rw [← hv.stream, IoqStream.unread_of_empty _ hp]
    have hread : readOnce s.i.rest s.q.n s.i.answers =
        (some (left.take (2 ^ 32)), ⟨left.drop (2 ^ 32), answers⟩) := by
      have hmin : min (max (2 ^ 32) 1) s.q.n = 2 ^ 32 := by
        have := hv.size
        omega
      rw [ha, hrest]
      simp only [readOnce, hmin]
    have htake : (left.take (2 ^ 32)).length = 2 ^ 32 := by
      rw [List.length_take]
      omega
    have hr32 : r = 2 ^ 32 := by
      have hfirst := congrArg Prod.fst hfeed
      unfold ioqFeed at hfirst
      rw [if_neg (not_not.mpr hp), hread] at hfirst
      simp only [if_neg (List.length_pos_iff.mp (htake ▸ (by decide : 0 < 2 ^ 32)))] at hfirst
      rw [htake] at hfirst
      omega
    have hclip : (if r % 2 ^ 32 > n then n else r) = r := if_neg (by omega)
    have hlen := ioqPeek_length h1.valid (Nat.le_of_eq hrp)
    rw [feedLoop_round (by omega) hfeed hr hclip] at h ⊢
    by_cases hput : (ioqPut s.out (ioqPeek q1 r)).1 = -1
    · simp [hput] at h
    · simp only [if_neg hput] at h ⊢
      obtain ⟨bytes, hbytes⟩ := feedLoop_puts h
      refine ⟨ioqPeek q1 r ++ bytes, ?_, (puts_ioqPut hput).trans hbytes⟩
      rw [List.length_append, hlen, hr32]
      omega

/-- `ioq_GETC()` of a byte that comes alone to an empty buffer -/
theorem getc_alone {x : UInt8} {rest : List UInt8} {answers : List ReadAns} {q : IoqGet.Ioq}
    (hp : q.p = 0) (hn : 1 < q.n) (hfit : q.n = q.buf.length) :
    ioqGetc q ⟨x :: rest, .chunk 1 :: answers⟩ 0 =
      (1, x, ioqSeek (IoqGet.fed q [x]) 1, ⟨rest, answers⟩) := by
  have hfeed : ioqFeed q ⟨x :: rest, .chunk 1 :: answers⟩ =
      (1, IoqGet.fed q [x], ⟨rest, answers⟩) := by
    have hmin : min (max 1 1) q.n = 1 := by omega
    unfold ioqFeed
    rw [if_neg (not_not.mpr hp)]
    simp only [readOnce, hmin]
    rfl
  have hfedp : (IoqGet.fed q [x]).p = 1 := rfl
  have hpeek : ioqPeek (IoqGet.fed q [x]) 1 = [x] := by
    have hdrop := @IoqGet.fed_drop q [x] hfit (by rw [List.length_singleton]; omega)
    rw [ioqPeek]
    change ((IoqGet.fed q [x]).buf.drop (q.n - [x].length)).take 1 = [x]
    rw [hdrop]
    rfl
  unfold ioqGetc
  rw [if_neg (by omega)]
  simp only [ioqGet, if_neg (show ¬ q.p > 0 by omega), if_neg (show ¬ q.n ≤ 1 by omega), hfeed,
    IoqStream.ioqExtract_eq, hfedp, Nat.min_self, hpeek]
  rfl

/-- A separator that comes byte by byte leaves the buffer empty. -/
theorem drainSep_ones {rest : List UInt8} {answers : List ReadAns} {q : IoqGet.Ioq} (hv : Valid q)
    (hsize : q.buf.length = len) (hL : 2 ^ 32 ≤ len) (hp : q.p = 0) :
    ∃ q', drainSep sep q ⟨sep ++ rest, List.replicate sep.length (.chunk 1) ++ answers⟩ =
        (true, q', ⟨rest, answers⟩) ∧ Valid q' ∧ q'.buf.length = len ∧ q'.p = 0 := by
  induction sep generalizing q with
  | nil => exact ⟨q, rfl, hv, hsize, hp⟩
  | cons x sep ih =>
    have hroom := hv.room
    have hfit : ([x] : List UInt8).length ≤ q.n := by
      rw [List.length_singleton]
      omega
    have hval := IoqGet.fed_valid hv hp hfit
    have hfedp : (IoqGet.fed q [x]).p = 1 := rfl
    have hsize' : (IoqGet.fed q [x]).buf.length = len := by
      have hroom' := hval.room
      rw [hfedp] at hroom'
      change q.n - [x].length + 1 = _ at hroom'
      rw [List.length_singleton] at hroom'
      omega
    have hgetc := @getc_alone x (sep ++ rest)
      (List.replicate sep.length (.chunk 1) ++ answers) q hp (by omega) (by omega)
    obtain ⟨q', hdrain, hv', hs', hp'⟩ := @ih (ioqSeek (IoqGet.fed q [x]) 1)
      ⟨hval.room.symm ▸ by simp only [ioqSeek, hfedp], hval.pos⟩ hsize' rfl
    refine ⟨q', ?_, hv', hs', hp'⟩
    rw [List.length_cons, List.replicate_succ, List.cons_append, List.cons_append, drainSep, hgetc]
    simp only [hdrain]
    simp

theorem Puts.length {q q' : Ioq} {bytes : List UInt8} (h : Puts q q' bytes) :
    q.d.off + q.buf.length + bytes.length = q'.d.off + q'.buf.length := by
  have hlen := sent_length (h q.d.file q.d.off q.buf (sent_self q))
  rwa [List.length_append, ← Nat.add_assoc] at hlen

/-- When `cdbmk_addioq()` returns 0 it has been through all of its steps. -/
theorem addioq_zero {q : IoqGet.Ioq} {i : Input} {klen dlen : ℕ}
    (h : (addioq F m q i klen dlen sep).1 = 0) : ∃ q1 k s d,
      Puts m.ioq q1 (F.pack klen ++ F.pack dlen) ∧
      feedLoop (hashLoop F.mix) (rounds q i) klen ⟨q, i, q1, F.hashinit⟩ = (true, k) ∧
      drainSep sep k.q k.i = (true, s) ∧
      feedLoop (fun h _ => h) (rounds s.1 s.2) dlen { k with q := s.1, i := s.2 } = (true, d) ∧
      (addioq F m q i klen dlen sep).2.1.ioq = d.out := by
  unfold addioq at h ⊢
  cases hend : recordEnd (m.fp % 2 ^ 32) F.hdr (klen % 2 ^ 32) (dlen % 2 ^ 32) with
  | none =>
    simp only [hend] at h
    omega
  | some fpUp =>
    simp only [hend] at h ⊢
    by_cases h1 : (ioqPut m.ioq (F.pack klen ++ F.pack dlen)).1 = -1
    · simp only [if_pos h1] at h
      omega
    · simp only [if_neg h1] at h ⊢
      obtain ⟨q1, hq1⟩ : ∃ q1, (ioqPut m.ioq (F.pack klen ++ F.pack dlen)).2 = q1 := ⟨_, rfl⟩
      have hp1 := hq1 ▸ puts_ioqPut h1
      simp only [hq1] at h ⊢
      obtain ⟨⟨ok, k⟩, hk⟩ : ∃ r, feedLoop (hashLoop F.mix) (rounds q i) klen
        ⟨q, i, q1, F.hashinit⟩ = r := ⟨_, rfl⟩
      simp only [hk] at h ⊢
      cases ok with
      | false =>
        simp only [if_true] at h
        omega
      | true =>
        obtain ⟨⟨ok, s⟩, hs⟩ : ∃ r, drainSep sep k.q k.i = r := ⟨_, rfl⟩
        simp only [hs, Bool.true_eq_false, if_false] at h ⊢
        cases ok with
        | false =>
          simp only [if_true] at h
          omega
        | true =>
          obtain ⟨⟨ok, d⟩, hd⟩ : ∃ r, feedLoop (fun h _ => h) (rounds s.1 s.2) dlen
            { k with q := s.1, i := s.2 } = r := ⟨_, rfl⟩
          simp only [hd, Bool.true_eq_false, if_false] at h ⊢
          cases ok with
          | false =>
            simp only [if_true] at h
            omega
          | true =>
            refine ⟨q1, k, s, d, hp1, hk, hs, hd, ?_⟩
            simp only [Bool.true_eq_false, if_false]
            rw [update_ioq]

/-- With refills that large the bytes of the stream are not parted where the record is. -/
theorem loops_wrap {q1 : Ioq} {pad : List UInt8} {answers : List ReadAns} (hL : 2 ^ 32 ≤ len)
    (hne : key ≠ [] ∨ data ≠ []) (hpad : pad.length = 2 ^ 32)
    (hans : answers = (if key = [] then List.replicate sep.length (.chunk 1) else []) ++
      [.chunk (2 ^ 32)])
    (h : Before False len (IoqGet.ioqInit len) ⟨key ++ (sep ++ (data ++ pad)), answers⟩
      (key ++ (sep ++ (data ++ pad)))) {k e : Stream} {s : IoqGet.Ioq × Input} {fuel fuel' : ℕ}
    (hkrun : feedLoop (hashLoop F.mix) (fuel + 1) key.length
      ⟨IoqGet.ioqInit len, ⟨key ++ (sep ++ (data ++ pad)), answers⟩, q1, F.hashinit⟩ = (true, k))
    (hsrun : drainSep sep k.q k.i = (true, s))
    (hdrun : feedLoop (fun h _ => h) fuel' data.length { k with q := s.1, i := s.2 } = (true, e)) :
    ∃ bytes, 2 ^ 32 ≤ bytes.length ∧ Puts q1 e.out bytes := by
  by_cases hkey : key = []
  · -- the loop over the key takes nothing, and the separator comes byte by byte
    subst hkey
    rw [if_pos rfl] at hans
    simp only [feedLoop, List.length_nil, if_true, Prod.mk.injEq, true_and] at hkrun
    obtain ⟨q', hdrain, hv', hsize', hp'⟩ := @drainSep_ones sep len (data ++ pad) [.chunk (2 ^ 32)]
      (IoqGet.ioqInit len) h.valid h.size hL rfl
    rw [← hkrun, List.nil_append, hans, hdrain] at hsrun
    obtain rfl := (Prod.mk.inj hsrun).2
    have hdata := hne.resolve_left (not_not.mpr rfl)
    have hbefore : Before False len q' ⟨data ++ pad, [.chunk (2 ^ 32)]⟩ (data ++ pad) :=
      ⟨hv', hsize', False.elim, by simp, IoqStream.unread_of_empty _ hp'⟩
    obtain ⟨bytes, hlen, hput⟩ := @feedLoop_wraps len (fun h _ => h) fuel' data.length
      { k with q := q', i := ⟨data ++ pad, [.chunk (2 ^ 32)]⟩ } (data ++ pad) [] hbefore hp' hL rfl
      (by rw [List.length_append]; omega) (List.length_pos_iff.mpr hdata) (by rw [hdrun])
    rw [hdrun, ← hkrun] at hput
    exact ⟨bytes, hlen, hput⟩
  · rw [if_neg hkey, List.nil_append] at hans
    have hlong : 2 ^ 32 ≤ (key ++ (sep ++ (data ++ pad))).length := by
      rw [List.length_append, List.length_append, List.length_append]
      omega
    obtain ⟨a, hlen, hput⟩ := @feedLoop_wraps len (hashLoop F.mix) (fuel + 1) key.length
      ⟨IoqGet.ioqInit len, ⟨key ++ (sep ++ (data ++ pad)), answers⟩, q1, F.hashinit⟩ _ [] h rfl hL
      hans hlong (List.length_pos_iff.mpr hkey) (by rw [hkrun])
    obtain ⟨b, hput'⟩ := @feedLoop_puts (fun h _ => h) fuel' data.length { k with q := s.1, i := s.2 }
      (by rw [hdrun])
    rw [hkrun] at hput
    rw [hdrun] at hput'
    refine ⟨a ++ b, ?_, hput.trans hput'⟩
    rw [List.length_append]
    omega

theorem not_streamsAs_of_large (hL : 2 ^ 32 ≤ len) (hne : key ≠ [] ∨ data ≠ [])
    (hfits : m.fp % 2 ^ 32 + F.hdr + key.length + data.length < 2 ^ 32) :
    ¬ StreamsAs F (addioq F) (add F) m key sep data len := by
  intro hall
  obtain ⟨pad, hpad⟩ : ∃ pad : List UInt8, pad.length = 2 ^ 32 :=
    ⟨List.replicate (2 ^ 32) 0, List.length_replicate⟩
  obtain ⟨answers, hans⟩ : ∃ answers : List ReadAns, answers =
    (if key = [] then List.replicate sep.length (.chunk 1) else []) ++ [.chunk (2 ^ 32)] := ⟨_, rfl⟩
  have hgood : ReadAns.error ∉ answers := by
    rw [hans]
    intro hm
    split_ifs at hm <;> simp at hm
  have hbefore := @before_new len False (key ++ (sep ++ (data ++ pad))) answers (by omega)
    False.elim hgood
  obtain ⟨hzero, hsame, -⟩ := hall [] [] [] _ _ pad hbefore.valid hbefore.size hgood hbefore.stream
  have htook := (@add_took F (onCalls m [] [] []) key data _
    ((recordEnd_eq_some (mod_lt _)).mpr ⟨hfits, rfl⟩)).resolve_right fun h => h.1 (calm_onCalls m)
  have hadd := took_zero rfl htook
  have hret := (hzero (calm_onCalls m)).mpr hadd
  obtain ⟨-, hwhole, -⟩ := hsame hret hadd
  obtain ⟨q1, k, s, d, hp1, hkrun, hsrun, hdrun, hout⟩ := addioq_zero hret
  obtain ⟨bytes, hlen, hput⟩ := loops_wrap hL hne hpad hans hbefore hkrun hsrun hdrun
  -- what has been put is too long
  rw [hout] at hwhole
  have hlong := (hp1.trans hput).length
  have hrecord := hwhole.length
  rw [record, header] at hrecord
  simp only [List.length_append] at hlong hrecord
  omega

theorem streamsAs_iff (hkey : key.length < 2 ^ 64) (hdata : data.length < 2 ^ 64) (hL : 0 < len) :
    StreamsAs F (addioq F) (add F) m key sep data len ↔
      Streamable F m.fp key.length data.length len := by
  refine ⟨fun hall => ?_, streamsAs_of_streamable hkey hdata⟩
  by_contra hno
  obtain ⟨hfits, hsmall⟩ := not_or.mp hno
  by_cases hlong : 2 ^ 32 ≤ key.length ∨ 2 ^ 32 ≤ data.length
  · exact not_streamsAs_of_long hL hkey hdata hlong hfits hall
  · obtain ⟨hk, hd⟩ := not_or.mp hlong
    have hlarge : 2 ^ 32 ≤ len ∧ (key ≠ [] ∨ data ≠ []) := by
      by_contra hnot
      apply hsmall
      refine ⟨Nat.not_le.mp hk, Nat.not_le.mp hd, ?_⟩
      by_cases hlen : len < 2 ^ 32
      · exact .inl hlen
      · have hempty := fun hne => hnot ⟨Nat.not_lt.mp hlen, hne⟩
        obtain ⟨h1, h2⟩ := not_or.mp hempty
        rw [not_not.mp h1, not_not.mp h2]
        exact .inr ⟨rfl, rfl⟩
    rw [Nat.mod_eq_of_lt (Nat.not_le.mp hk), Nat.mod_eq_of_lt (Nat.not_le.mp hd)] at hfits
    exact not_streamsAs_of_large hlarge.1 hlarge.2 (Nat.not_le.mp hfits) hall

/-- `hdbmk_addioq()` and `hdbmk_add()` both refuse a length of more than 24 bits. -/
theorem additionIoq_streams : StreamsAs hdbFormat additionIoq addition m key sep data len ↔
    key.length > hdbU24max ∨ data.length > hdbU24max ∨
      StreamsAs hdbFormat (addioq hdbFormat) (add hdbFormat) m key sep data len := by
  by_cases hlong : key.length > hdbU24max ∨ data.length > hdbU24max
  · refine ⟨fun _ => by tauto, fun _ => ?_⟩
    intro writes seeks mem q i rest _ _ _ _
    simp only [additionIoq, addition, if_pos hlong]
    simp
  · have hboth : StreamsAs hdbFormat additionIoq addition m key sep data len ↔
        StreamsAs hdbFormat (addioq hdbFormat) (add hdbFormat) m key sep data len := by
      unfold StreamsAs
      simp only [additionIoq, addition, if_neg hlong]
    rw [hboth, ← or_assoc, or_iff_right hlong]

end iff

/-- `hdbmk_addioq()` and `hdbmk_add()`, as they work on what a generator shares with
`struct cdbmk` -/
def HdbStreams (m : Hdbmk) (key sep data : List UInt8) (len : ℕ) : Prop :=
  StreamsAs hdbFormat
    (fun t q i klen dlen sep =>
      let a := hdbmkAddioq { m with toMk := t } q i klen dlen sep
      (a.1, a.2.1.toMk, a.2.2))
    (fun t key data =>
      let b := hdbmkAdd { m with toMk := t } key data
      (b.1, b.2.toMk))
    m.toMk key sep data len

/-- A key in parts has the hash of the key, and a record that is read from a stream is
put as the record is, or refused as it is, just when its lengths fit and no refill is
too large. -/
theorem addioq_exact_iff (m : Mk) (h : Hdbmk) (key sep data : List UInt8) (len : ℕ)
    (hkey : key.length < 2 ^ 64) (hdata : data.length < 2 ^ 64) (hL : 0 < len) :
    (∀ F ∈ [cdbFormat, hdbFormat], ∀ parts : List (List UInt8), parts.flatten = key →
      parts.foldl (hashLoop F.mix) F.hashinit = F.hash key) ∧
    (StreamsAs cdbFormat cdbmkAddioq cdbmkAdd m key sep data len ↔
      Streamable cdbFormat m.fp key.length data.length len) ∧
    (HdbStreams h key sep data len ↔ key.length > hdbU24max ∨ data.length > hdbU24max ∨
      Streamable hdbFormat h.fp key.length data.length len) := by
  refine ⟨fun F _ parts hparts => ?_, streamsAs_iff hkey hdata hL, ?_⟩
  · rw [hashLoop_parts, hparts]
    rfl
  · rw [← streamsAs_iff (m := h.toMk) hkey hdata hL]
    exact additionIoq_streams

theorem addioq_exact_iff_record :
    (∀ F ∈ [cdbFormat, hdbFormat], ∀ parts : List (List UInt8), parts.flatten = [107, 101, 121] →
      parts.foldl (hashLoop F.mix) F.hashinit = F.hash [107, 101, 121]) ∧
    StreamsAs cdbFormat cdbmkAddioq cdbmkAdd (cdbmkInit newFd []).2 [107, 101, 121] [45, 62] [1] 64 ∧
    HdbStreams (hdbmkStart newFd [] []).2 [107, 101, 121] [45, 62] [1] 64 := by
  obtain ⟨hparts, hcdb, hhdb⟩ := addioq_exact_iff (cdbmkInit newFd []).2 (hdbmkStart newFd [] []).2
    [107, 101, 121] [45, 62] [1] 64 (by decide) (by decide) (by decide)
  refine ⟨hparts, hcdb.mpr (.inr ?_), hhdb.mpr (.inr (.inr (.inr ?_)))⟩ <;> decide

/-- A key of 2^32 bytes: `cdbmk_add()` refuses it, and `cdbmk_addioq()` does not. -/
theorem addioq_truncates : ∃ key : List UInt8, key.length = 2 ^ 32 ∧
    ¬ StreamsAs cdbFormat cdbmkAddioq cdbmkAdd (cdbmkInit newFd []).2 key [] [] 8192 := by
  obtain ⟨n, hn⟩ : ∃ n, n = 2 ^ 32 := ⟨_, rfl⟩
  have hlen : (List.replicate n (0 : UInt8)).length = n := List.length_replicate
  have hfp : (cdbmkInit newFd []).2.fp = 2048 := rfl
  have hhdr : cdbFormat.hdr = 8 := rfl
  refine ⟨List.replicate n 0, hlen.trans hn, not_streamsAs_of_long ?_ ?_ ?_ ?_ ?_⟩
  · decide
  · omega
  · decide
  · omega
  · rw [hfp, hhdr, hlen, List.length_nil]
    omega

end Perp.HashStream
