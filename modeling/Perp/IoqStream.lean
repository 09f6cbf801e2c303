import Perp.IoqGet

set_option autoImplicit false

/-!
# An input queue as a stream

Every way to read from an `ioq`, in any order: what comes out of it is the
stream, and what stands in its buffer is the next part of it.
-/
namespace Perp.IoqStream
open Pkt IoqGet

/-- `buf_rcopy()` within one buffer: from the last byte to the first. -/
def bufRcopy (buf : List UInt8) (dst src : ℕ) : ℕ → List UInt8
  | 0 => buf
  | n + 1 => bufRcopy (buf.set (dst + n) (byteAt buf (src + n))) dst src n

/-- `ioq_feed()` with its slide byte by byte. -/
def ioqFeedSlide (q : Ioq) (i : Input) : ℤ × Ioq × Input :=
  if q.p ≠ 0 then (q.p, q, i)
  else
    match readOnce i.rest q.n i.answers with
    | (none, i) => (-1, q, i)
    | (some data, i) =>
      if data = [] then (0, q, i)
      else
        let n := q.n - data.length
        let buf := bufWrite q.buf 0 data
        (data.length, ⟨if n > 0 then bufRcopy buf n 0 data.length else buf, n, data.length⟩, i)

/-- What stands at `ioq_peek()`, as far as `len` bytes. -/
def ioqPeek (q : Ioq) (len : ℕ) : List UInt8 := (q.buf.drop q.n).take len

def ioqSeek (q : Ioq) (len : ℕ) : Ioq := { q with n := q.n + len, p := q.p - len }

/-- What a reader of the queue does. -/
inductive Op where
  | get (len : ℕ) (pos : 0 < len)
  /-- `ioq_GETC()`; `c` is what the character holds before -/
  | getc (c : UInt8)
  | feed
  /-- `len` bytes at `ioq_peek()` are used and passed by `ioq_seek()`, or what is
  there of them -/
  | seek (len : ℕ)

structure Reader where
  q : Ioq
  i : Input
  deriving DecidableEq, Repr

/-- An operation: what it returns, if anything, and the bytes it hands out. -/
def step (s : Reader) : Op → Option ℤ × List UInt8 × Reader
  | .get len _ =>
    match ioqGet s.q s.i len with
    | (r, data, q, i) => (some r, data, ⟨q, i⟩)
  | .getc c =>
    match ioqGetc s.q s.i c with
    | (r, c, q, i) => (some r, if r = 1 then [c] else [], ⟨q, i⟩)
  | .feed =>
    match ioqFeed s.q s.i with
    | (r, q, i) => (some r, [], ⟨q, i⟩)
  | .seek len =>
    let len := min len s.q.p
    (none, ioqPeek s.q len, ⟨ioqSeek s.q len, s.i⟩)

/-- One operation after the other: the bytes they hand out. -/
def run (s : Reader) : List Op → List UInt8 × Reader
  | [] => ([], s)
  | op :: ops =>
    match step s op with
    | (_, out, s') => (out ++ (run s' ops).1, (run s' ops).2)

/-- `ioq_INIT()` on a buffer -/
def start (buf : List UInt8) (i : Input) : Reader := ⟨⟨buf, buf.length, 0⟩, i⟩

/-- A copy to higher places, from the last byte on, takes the bytes as they were. -/
theorem bufRcopy_eq {buf : List UInt8} {dst src n : ℕ} (h : src ≤ dst)
    (hn : dst + n ≤ buf.length) :
    bufRcopy buf dst src n = bufWrite buf dst ((buf.drop src).take n) := by
  induction n generalizing buf with
  | zero => simp [bufRcopy, bufWrite]
  | succ n ih =>
    have hlt : src + n < buf.length := by omega
    have hbyte : byteAt buf (src + n) = buf[src + n] := by
      simp [byteAt, List.getD_eq_getElem?_getD, hlt]
    have hlen : ((buf.drop src).take n).length = n := by
      rw [List.length_take, List.length_drop]
      omega
    have hsucc : (buf.drop src).take (n + 1) = (buf.drop src).take n ++ [byteAt buf (src + n)] := by
      rw [List.take_add_one, List.getElem?_drop, List.getElem?_eq_getElem hlt, hbyte]
      rfl
    -- the byte that is set lies behind those that are still to be copied
    have htake : ((buf.set (dst + n) (byteAt buf (src + n))).drop src).take n =
        (buf.drop src).take n := by
      apply List.ext_getElem?
      intro k
      by_cases hk : k < n
      · rw [List.getElem?_take_of_lt hk, List.getElem?_take_of_lt hk, List.getElem?_drop,
          List.getElem?_drop, List.getElem?_set_ne (by omega)]
      · simp only [List.getElem?_take, if_neg hk]
    rw [bufRcopy, ih (by rw [List.length_set]; omega), htake, hsucc, bufWrite, bufWrite, hlen,
      List.length_append, hlen, List.length_singleton, List.take_set_of_le (by omega)]
    have hdrop : (buf.set (dst + n) (byteAt buf (src + n))).drop (dst + n) =
        byteAt buf (src + n) :: buf.drop (dst + (n + 1)) := by
      rw [List.drop_eq_getElem_cons (by rw [List.length_set]; omega), List.getElem_set_self,
        List.drop_set_of_lt (by omega)]
      rfl
    rw [hdrop]
    simp

theorem readOnce_cases (rest : List UInt8) {want : ℕ} (answers : List ReadAns) (hw : 0 < want) :
    ∃ left, left ⊆ answers ∧
      ((.error ∈ answers ∧ readOnce rest want answers = (none, ⟨rest, left⟩)) ∨
        ∃ m, 0 < m ∧ m ≤ want ∧
          readOnce rest want answers = (some (rest.take m), ⟨rest.drop m, left⟩)) := by
  induction answers with
  | nil => exact ⟨[], List.Subset.refl _, .inr ⟨want, hw, Nat.le_refl _, rfl⟩⟩
  | cons a answers ih =>
    have htail := List.subset_cons_self a answers
    cases a with
    | intr =>
      obtain ⟨left, hsub, hread⟩ := ih
      exact ⟨left, List.Subset.trans hsub htail, hread.imp_left (.imp_left (List.mem_cons_of_mem _))⟩
    | error => exact ⟨answers, htail, .inl ⟨List.mem_cons_self, rfl⟩⟩
    | chunk k => exact ⟨answers, htail, .inr ⟨min (max k 1) want, by omega, by omega, rfl⟩⟩

/-- What an operation may do: it hands out the next bytes of the stream and
leaves the queue well formed; it reports the end of the stream or an error only
with an empty buffer. -/
structure Faithful (s : Reader) (ret : Option ℤ) (out : List UInt8) (s' : Reader) : Prop where
  valid : Valid s'.q
  size : s'.q.buf.length = s.q.buf.length
  stream : unread s.q s.i = out ++ unread s'.q s'.i
  ended : ∀ r ∈ ret, r ≤ 0 → s.q.p = 0 ∧ s'.q.p = 0 ∧ out = []
  eof : 0 ∈ ret → s.i.rest = []
  failed : ∀ r ∈ ret, r < 0 → .error ∈ s.i.answers
  answers : s'.i.answers ⊆ s.i.answers

section
variable {s : Reader}

theorem unread_of_empty {q : Ioq} (i : Input) (hp : q.p = 0) : unread q i = i.rest := by
  simp [unread, hp]

theorem seek_faithful (hv : Valid s.q) {len : ℕ} (hl : len ≤ s.q.p) {ret : Option ℤ}
    (hret : ∀ r ∈ ret, 0 < r) :
    Faithful s ret (ioqPeek s.q len) ⟨ioqSeek s.q len, s.i⟩ := by
  have hroom := hv.room
  refine ⟨⟨?_, hv.pos⟩, rfl, ?_, fun r hr h0 => ?_, fun hr => ?_, fun r hr h0 => ?_,
    List.Subset.refl _⟩
  · change s.q.n + len + (s.q.p - len) = s.q.buf.length
    omega
  · have hsplit : s.q.p = len + (s.q.p - len) := by omega
    change (s.q.buf.drop s.q.n).take s.q.p ++ s.i.rest =
      (s.q.buf.drop s.q.n).take len ++
        ((s.q.buf.drop (s.q.n + len)).take (s.q.p - len) ++ s.i.rest)
    rw [← List.append_assoc, ← List.drop_drop, ← List.take_add, ← hsplit]
  · exact absurd (hret r hr) (by omega)
  · exact absurd (hret 0 hr) (by omega)
  · exact absurd (hret r hr) (by omega)

theorem ioqExtract_eq (q : Ioq) (len : ℕ) :
    ioqExtract q len = (ioqPeek q (min len q.p), ioqSeek q (min len q.p)) := by
  by_cases h : len > q.p
  · simp [ioqExtract, ioqPeek, ioqSeek, h, Nat.min_eq_right (Nat.le_of_lt h)]
  · simp [ioqExtract, ioqPeek, ioqSeek, h, Nat.min_eq_left (Nat.le_of_not_lt h)]

theorem ioqPeek_length {q : Ioq} (hv : Valid q) {len : ℕ} (hl : len ≤ q.p) :
    (ioqPeek q len).length = len := by
  have hroom := hv.room
  rw [ioqPeek, List.length_take, List.length_drop]
  omega

theorem direct_faithful (hv : Valid s.q) (hp : s.q.p = 0) {r : ℤ} {out : List UInt8} {i : Input}
    (hs : s.i.rest = out ++ i.rest) (hr : r ≤ 0 → out = []) (he : r = 0 → s.i.rest = [])
    (hf : r < 0 → .error ∈ s.i.answers) (ha : i.answers ⊆ s.i.answers) :
    Faithful s (some r) out ⟨s.q, i⟩ := by
  refine ⟨hv, rfl, ?_, fun k hk h0 => ?_, fun h0 => he (Option.some.inj h0), fun k hk h0 => ?_, ha⟩
  · rw [unread_of_empty _ hp, unread_of_empty _ hp, hs]
  · obtain rfl := Option.some.inj hk
    exact ⟨hp, hp, hr h0⟩
  · obtain rfl := Option.some.inj hk
    exact hf h0

theorem take_eq_nil {rest : List UInt8} {m : ℕ} (hm : 0 < m) (h : rest.take m = []) :
    rest = [] := (List.take_eq_nil_iff.mp h).resolve_left (Nat.ne_of_gt hm)

/-- `ioq_feed()` hands out nothing, and returns what is then in the buffer
unless that is empty. -/
theorem feed_faithful (hv : Valid s.q) : ∃ r q i, ioqFeed s.q s.i = (r, q, i) ∧
    Faithful s (some r) [] ⟨q, i⟩ ∧ (0 < r → r = (q.p : ℤ) ∧ q.p ≠ 0) := by
  by_cases hp : s.q.p = 0
  · have hn : s.q.n = s.q.buf.length := by
      have := hv.room
      omega
    obtain ⟨left, hsub, ⟨herr, hread⟩ | ⟨m, hm, hmn, hread⟩⟩ :=
      readOnce_cases s.i.rest s.i.answers (hn ▸ hv.pos : 0 < s.q.n)
    · refine ⟨-1, s.q, ⟨s.i.rest, left⟩, by simp [ioqFeed, hp, hread], ?_, by omega⟩
      apply direct_faithful hv hp rfl <;> simp [herr, hsub]
    · by_cases hnil : s.i.rest.take m = []
      · have hend := take_eq_nil hm hnil
        refine ⟨0, s.q, ⟨s.i.rest.drop m, left⟩, by simp [ioqFeed, hp, hread, hnil], ?_, by omega⟩
        apply direct_faithful hv hp <;> simp [hend, hsub]
      · have hl : (s.i.rest.take m).length ≤ s.q.n := by
          rw [List.length_take]
          omega
        have hval := fed_valid hv hp hl
        have hdrop := fed_drop hn hl
        have hlen : (fed s.q (s.i.rest.take m)).buf.length = s.q.buf.length := by
          have h1 := hval.room
          change s.q.n - (s.i.rest.take m).length + (s.i.rest.take m).length = _ at h1
          omega
        have hpos := List.length_pos_iff.mpr hnil
        refine ⟨((s.i.rest.take m).length : ℤ), fed s.q (s.i.rest.take m),
          ⟨s.i.rest.drop m, left⟩, by simp [ioqFeed, hp, hread, hnil, fed],
          ⟨hval, hlen, ?_, fun r hr h0 => ?_, fun h0 => ?_, fun r hr h0 => ?_, hsub⟩,
          fun _ => ⟨rfl, Nat.ne_of_gt hpos⟩⟩
        · change unread s.q s.i = ((fed s.q (s.i.rest.take m)).buf.drop
            (s.q.n - (s.i.rest.take m).length)).take (s.i.rest.take m).length ++ s.i.rest.drop m
          rw [hdrop, List.take_length, List.take_append_drop, unread_of_empty _ hp]
        · have := Option.some.inj hr
          omega
        · have := Option.some.inj h0
          omega
        · have := Option.some.inj hr
          omega
  · refine ⟨s.q.p, s.q, s.i, by simp [ioqFeed, hp], ⟨hv, rfl, rfl, fun r hr h0 => ?_, fun h0 => ?_,
      fun r hr h0 => ?_, List.Subset.refl _⟩, fun _ => ⟨rfl, hp⟩⟩
    · have := Option.some.inj hr
      omega
    · have := Option.some.inj h0
      omega
    · have := Option.some.inj hr
      omega

theorem ioqExtract_pos {q : Ioq} (hv : Valid q) (hp : q.p ≠ 0) {len : ℕ} (hl : 0 < len) :
    0 < (ioqPeek q (min len q.p)).length ∧ (ioqPeek q (min len q.p)).length ≤ len := by
  rw [ioqPeek_length hv (Nat.min_le_right _ _)]
  omega

theorem get_faithful (hv : Valid s.q) {len : ℕ} (hl : 0 < len) : ∃ r data q i,
    ioqGet s.q s.i len = (r, data, q, i) ∧ Faithful s (some r) data ⟨q, i⟩ ∧
      data.length ≤ len ∧ (0 < r → r = (data.length : ℤ)) := by
  by_cases hp : s.q.p = 0
  · by_cases hn : s.q.n ≤ len
    · obtain ⟨left, hsub, ⟨herr, hread⟩ | ⟨m, hm, hml, hread⟩⟩ := readOnce_cases s.i.rest s.i.answers hl
      · refine ⟨-1, [], s.q, ⟨s.i.rest, left⟩, by simp [ioqGet, hp, hn, hread], ?_,
          Nat.zero_le _, by omega⟩
        apply direct_faithful hv hp rfl <;> simp [herr, hsub]
      · have hle : (s.i.rest.take m).length ≤ len := by
          rw [List.length_take]
          omega
        refine ⟨((s.i.rest.take m).length : ℤ), s.i.rest.take m, s.q, ⟨s.i.rest.drop m, left⟩,
          by simp [ioqGet, hp, hn, hread], ?_, hle, fun _ => rfl⟩
        apply direct_faithful hv hp
        · exact (List.take_append_drop m s.i.rest).symm
        · intro h0
          exact List.length_eq_zero_iff.mp (by omega)
        · intro h0
          exact take_eq_nil hm (List.length_eq_zero_iff.mp (by omega))
        · intro h0
          omega
        · exact hsub
    · obtain ⟨r, q, i, hfeed, hf, hpos⟩ := feed_faithful hv
      by_cases hr : r ≤ 0
      · exact ⟨r, [], q, i, by simp [ioqGet, hp, hn, hfeed, hr], hf, Nat.zero_le _, by omega⟩
      · obtain ⟨-, hq⟩ := hpos (by omega)
        obtain ⟨hlen, hle⟩ := @ioqExtract_pos q hf.valid hq len hl
        have hseek := @seek_faithful ⟨q, i⟩ hf.valid _ (Nat.min_le_right len q.p)
          (some (ioqPeek q (min len q.p)).length) (by simpa using hlen)
        refine ⟨(ioqPeek q (min len q.p)).length, ioqPeek q (min len q.p), ioqSeek q (min len q.p), i,
          by simp [ioqGet, hp, hn, hfeed, hr, ioqExtract_eq], ?_, hle, fun _ => rfl⟩
        refine ⟨hseek.valid, hseek.size.trans hf.size, ?_, fun k hk h0 => ?_, fun h0 => ?_,
          fun k hk h0 => ?_, hf.answers⟩
        · rw [hf.stream, List.nil_append]
          exact hseek.stream
        · have := Option.some.inj hk
          omega
        · have := Option.some.inj h0
          omega
        · have := Option.some.inj hk
          omega
  · obtain ⟨hlen, hle⟩ := @ioqExtract_pos s.q hv hp len hl
    refine ⟨(ioqPeek s.q (min len s.q.p)).length, ioqPeek s.q (min len s.q.p),
      ioqSeek s.q (min len s.q.p), s.i, by simp [ioqGet, Nat.pos_of_ne_zero hp, ioqExtract_eq], ?_, hle,
      fun _ => rfl⟩
    exact seek_faithful hv (Nat.min_le_right _ _) (by simpa using hlen)

theorem getc_faithful (hv : Valid s.q) (c : UInt8) : ∃ r c' q i,
    ioqGetc s.q s.i c = (r, c', q, i) ∧ r ≤ 1 ∧
      Faithful s (some r) (if r = 1 then [c'] else []) ⟨q, i⟩ := by
  by_cases hp : s.q.p = 0
  · obtain ⟨r, data, q, i, hget, hf, h1, hlen⟩ := get_faithful hv Nat.one_pos
    refine ⟨r, data.headD c, q, i, by simp [ioqGetc, hp, hget], by omega, ?_⟩
    by_cases hr : 0 < r
    · obtain ⟨b, rfl⟩ : ∃ b, data = [b] := by
        have := hlen hr
        exact List.length_eq_one_iff.mp (by omega)
      obtain rfl : r = 1 := hlen hr
      simpa using hf
    · rw [if_neg (by omega)]
      have hnil := (hf.ended r rfl (by omega)).2.2
      exact hnil ▸ hf
  · have hlt : s.q.n < s.q.buf.length := by
      have := hv.room
      omega
    have hb : [byteAt s.q.buf s.q.n] = ioqPeek s.q 1 := by
      rw [ioqPeek, List.drop_eq_getElem_cons hlt, List.take_succ_cons, List.take_zero]
      simp [byteAt, List.getD_eq_getElem?_getD, hlt]
    refine ⟨1, byteAt s.q.buf s.q.n, ioqSeek s.q 1, s.i,
      by simp [ioqGetc, Nat.pos_of_ne_zero hp, ioqSeek], Int.le_refl _, ?_⟩
    rw [if_pos rfl, hb]
    exact seek_faithful hv (Nat.pos_of_ne_zero hp) (by simp)

theorem step_faithful (hv : Valid s.q) (op : Op) :
    Faithful s (step s op).1 (step s op).2.1 (step s op).2.2 := by
  cases op with
  | get len pos =>
    obtain ⟨r, data, q, i, hget, hf, -, -⟩ := get_faithful hv pos
    simpa only [step, hget] using hf
  | getc c =>
    obtain ⟨r, c', q, i, hgetc, -, hf⟩ := getc_faithful hv c
    simpa only [step, hgetc] using hf
  | feed =>
    obtain ⟨r, q, i, hfeed, hf, -⟩ := feed_faithful hv
    simpa only [step, hfeed] using hf
  | seek len => exact seek_faithful hv (Nat.min_le_right len s.q.p) (fun r hr => nomatch hr)

theorem run_faithful (hv : Valid s.q) (ops : List Op) :
    Valid (run s ops).2.q ∧ (run s ops).2.q.buf.length = s.q.buf.length ∧
      unread s.q s.i = (run s ops).1 ++ unread (run s ops).2.q (run s ops).2.i ∧
      (run s ops).2.i.answers ⊆ s.i.answers := by
  induction ops generalizing s with
  | nil => exact ⟨hv, rfl, rfl, List.Subset.refl _⟩
  | cons op ops ih =>
    have hf := step_faithful hv op
    obtain ⟨hval, hsize, hstream, hleft⟩ := ih hf.valid
    refine ⟨hval, hsize.trans hf.size, ?_, List.Subset.trans hleft hf.answers⟩
    rw [hf.stream, hstream, ← List.append_assoc]
    rfl

/-- The slide of `ioq_feed()` runs within its buffer, and takes the bytes as they
were read. -/
theorem ioqFeedSlide_eq (hv : Valid s.q) : ioqFeedSlide s.q s.i = ioqFeed s.q s.i := by
  by_cases hp : s.q.p = 0
  · have hn : s.q.n = s.q.buf.length := by
      have := hv.room
      omega
    obtain ⟨left, -, ⟨-, hread⟩ | ⟨m, -, hm, hread⟩⟩ :=
      readOnce_cases s.i.rest s.i.answers (hn ▸ hv.pos : 0 < s.q.n)
    · simp [ioqFeedSlide, ioqFeed, hp, hread]
    · have hl : (s.i.rest.take m).length ≤ s.q.n := by
        rw [List.length_take]
        omega
      have hbuf : bufWrite s.q.buf 0 (s.i.rest.take m) =
          s.i.rest.take m ++ s.q.buf.drop (s.i.rest.take m).length := by simp [bufWrite]
      have hlen : (bufWrite s.q.buf 0 (s.i.rest.take m)).length = s.q.n := by
        rw [hbuf, List.length_append, List.length_drop]
        omega
      have hcopy := @bufRcopy_eq (bufWrite s.q.buf 0 (s.i.rest.take m))
        (s.q.n - (s.i.rest.take m).length) 0 (s.i.rest.take m).length (Nat.zero_le _) (by omega)
      rw [List.drop_zero, hbuf, List.take_left, ← hbuf] at hcopy
      simp only [ioqFeedSlide, ioqFeed, hread, hcopy]
  · simp [ioqFeedSlide, ioqFeed, hp]

end

/-- Whatever is read from a queue, in whichever way: what has been handed out is
the front of the stream, what is next stands at the end of the buffer, and the
end of the stream or an error is reported only when nothing is left there. -/
theorem faithful_stream {buf : List UInt8} (hbuf : buf ≠ []) (i : Input) {ops : List Op}
    {out : List UInt8} {s : Reader} (h : run (start buf i) ops = (out, s)) :
    out ++ (ioqPeek s.q s.q.p ++ s.i.rest) = i.rest ∧
      s.q.n + s.q.p = buf.length ∧ s.q.buf.length = buf.length ∧
      ioqFeedSlide s.q s.i = ioqFeed s.q s.i ∧
      (∀ op r, (step s op).1 = some r → r ≤ 0 → s.q.p = 0 ∧ (step s op).2.2.q.p = 0 ∧
        (step s op).2.1 = [] ∧ (r = 0 → s.i.rest = []) ∧ (r < 0 → .error ∈ i.answers)) ∧
      ∀ len pos r, (step s (.get len pos)).1 = some r → 0 < r →
        r = ((step s (.get len pos)).2.1.length : ℤ) := by
  have hv : Valid (start buf i).q := ⟨rfl, List.length_pos_iff.mpr hbuf⟩
  obtain ⟨hval, hsize, hstream, hleft⟩ := run_faithful hv ops
  rw [h] at hval hsize hstream hleft
  simp only at hval hsize hstream hleft
  refine ⟨hstream.symm.trans (unread_of_empty i rfl), ?_, hsize, ioqFeedSlide_eq hval, ?_, ?_⟩
  · rw [hval.room, hsize]
    rfl
  · intro op r hr h0
    have hf := step_faithful hval op
    obtain ⟨hp, hp', hout⟩ := hf.ended r hr h0
    exact ⟨hp, hp', hout, fun hz => hf.eof (hz ▸ hr), fun hn => hleft (hf.failed r hr hn)⟩
  · intro len pos r hr hpos
    obtain ⟨r', data, q, i', hget, -, -, hlen⟩ := get_faithful hval pos
    simp only [step, hget, Option.some.injEq] at hr ⊢
    subst hr
    exact hlen hpos

theorem faithful_stream_short_read :
    [97] ++ (ioqPeek ⟨[97, 97, 98], 2, 1⟩ 1 ++ [99]) = [97, 98, 99] ∧
      ioqFeedSlide ⟨[97, 97, 98], 2, 1⟩ ⟨[99], []⟩ = ioqFeed ⟨[97, 97, 98], 2, 1⟩ ⟨[99], []⟩ :=
  have h := @faithful_stream [0, 0, 0] (by decide) ⟨[97, 98, 99], [.intr, .chunk 2]⟩
    [.feed, .seek 1] [97] ⟨⟨[97, 97, 98], 2, 1⟩, ⟨[99], []⟩⟩ (by decide)
  ⟨h.1, h.2.2.2.1⟩

end Perp.IoqStream
