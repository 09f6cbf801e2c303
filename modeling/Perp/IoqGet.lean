import Perp.Pkt

set_option autoImplicit false

/-!
# Buffered input

`lasagna/ioq`, the read side: a queue over `read()` whose bytes stand at the end
of its buffer.
-/
namespace Perp.IoqGet
open Pkt

structure Ioq where
  buf : List UInt8
  n : ℕ
  p : ℕ
  deriving DecidableEq, Repr

/-- `ioq_init()` on a buffer of `len` bytes -/
def ioqInit (len : ℕ) : Ioq := ⟨List.replicate len 0, len, 0⟩

/-- What one call of `read()` does: it delivers up to `k` bytes, and at least
one unless the stream is at its end. -/
inductive ReadAns where
  | chunk (k : ℕ)
  | intr
  | error
  deriving DecidableEq, Repr

/-- A stream that is still to be read, and how `read()` will deliver it. -/
structure Input where
  rest : List UInt8
  answers : List ReadAns
  deriving DecidableEq, Repr

/-- `read_once()`: none is an error, an empty list the end of the stream. -/
def readOnce (rest : List UInt8) (want : ℕ) : List ReadAns → Option (List UInt8) × Input
  | [] => (some (rest.take want), ⟨rest.drop want, []⟩)
  | .intr :: answers => readOnce rest want answers
  | .error :: answers => (none, ⟨rest, answers⟩)
  | .chunk k :: answers =>
    (some (rest.take (min (max k 1) want)), ⟨rest.drop (min (max k 1) want), answers⟩)

def ioqFeed (q : Ioq) (i : Input) : ℤ × Ioq × Input :=
  if q.p ≠ 0 then (q.p, q, i)
  else
    match readOnce i.rest q.n i.answers with
    | (none, i) => (-1, q, i)
    | (some data, i) =>
      if data = [] then (0, q, i)
      else
        let n := q.n - data.length
        let buf := bufWrite q.buf 0 data
        -- a short read slides to the end of the buffer
        (data.length, ⟨if n > 0 then bufWrite buf n data else buf, n, data.length⟩, i)

def ioqExtract (q : Ioq) (len : ℕ) : List UInt8 × Ioq :=
  let len := if len > q.p then q.p else len
  ((q.buf.drop q.n).take len, { q with p := q.p - len, n := q.n + len })

/-- `ioq_get()`: the return value and the bytes it stored. -/
def ioqGet (q : Ioq) (i : Input) (len : ℕ) : ℤ × List UInt8 × Ioq × Input :=
  if q.p > 0 then
    let (data, q) := ioqExtract q len
    (data.length, data, q, i)
  else if q.n ≤ len then
    match readOnce i.rest len i.answers with
    | (none, i) => (-1, [], q, i)
    | (some data, i) => (data.length, data, q, i)
  else
    match ioqFeed q i with
    | (r, q, i) =>
      if r ≤ 0 then (r, [], q, i)
      else
        let (data, q) := ioqExtract q len
        (data.length, data, q, i)

/-- `ioq_GETC()`: `c` is what the character holds before. -/
def ioqGetc (q : Ioq) (i : Input) (c : UInt8) : ℤ × UInt8 × Ioq × Input :=
  if q.p > 0 then (1, byteAt q.buf q.n, { q with p := q.p - 1, n := q.n + 1 }, i)
  else
    match ioqGet q i 1 with
    | (r, data, q, i) => (r, data.headD c, q, i)

/-- The bytes that have not been handed out. -/
def unread (q : Ioq) (i : Input) : List UInt8 := (q.buf.drop q.n).take q.p ++ i.rest

/-- The bytes of the queue stand at the end of its buffer. -/
structure Valid (q : Ioq) : Prop where
  room : q.n + q.p = q.buf.length
  pos : 0 < q.buf.length

theorem valid_init {len : ℕ} (h : 0 < len) : Valid (ioqInit len) := by
  constructor <;> simp [ioqInit, h]

theorem unread_init (len : ℕ) (i : Input) : unread (ioqInit len) i = i.rest := by
  simp [unread, ioqInit]

/-- `read()` without errors delivers the next bytes of the stream. -/
theorem readOnce_spec (rest : List UInt8) {want : ℕ} {answers : List ReadAns} (hw : 0 < want)
    (h : .error ∉ answers) : ∃ m, 0 < m ∧ m ≤ want ∧
      (readOnce rest want answers).1 = some (rest.take m) ∧
      (readOnce rest want answers).2.rest = rest.drop m ∧
      .error ∉ (readOnce rest want answers).2.answers := by
  induction answers with
  | nil => exact ⟨want, hw, Nat.le_refl _, rfl, rfl, by simp [readOnce]⟩
  | cons a answers ih =>
    have ha := ih fun hm => h (List.mem_cons_of_mem _ hm)
    cases a with
    | intr => exact ha
    | error => simp at h
    | chunk k =>
      refine ⟨min (max k 1) want, by omega, by omega, rfl, rfl, ?_⟩
      exact fun hm => h (List.mem_cons_of_mem _ hm)

/-- The queue after `ioq_feed()` has read `data` into it. -/
def fed (q : Ioq) (data : List UInt8) : Ioq :=
  ⟨if q.n - data.length > 0 then bufWrite (bufWrite q.buf 0 data) (q.n - data.length) data
    else bufWrite q.buf 0 data, q.n - data.length, data.length⟩

theorem fed_drop {q : Ioq} {data : List UInt8} (hn : q.n = q.buf.length)
    (hl : data.length ≤ q.n) : (fed q data).buf.drop (q.n - data.length) = data := by
  have hbuf : bufWrite q.buf 0 data = data ++ q.buf.drop data.length := by simp [bufWrite]
  have hlen : (data ++ q.buf.drop data.length).length = q.n := by
    rw [List.length_append, List.length_drop]
    omega
  simp only [fed, hbuf]
  split
  · next hpos =>
    have htake : ((data ++ q.buf.drop data.length).take (q.n - data.length)).length =
        q.n - data.length := by
      rw [List.length_take, hlen]
      omega
    rw [bufWrite, Nat.sub_add_cancel hl, List.drop_eq_nil_of_le (Nat.le_of_eq hlen),
      List.append_nil, List.drop_left' htake]
  · next hpos =>
    have h0 : q.buf.drop data.length = [] := List.drop_eq_nil_of_le (by omega)
    rw [h0, List.append_nil, show q.n - data.length = 0 by omega, List.drop_zero]

theorem fed_valid {q : Ioq} {data : List UInt8} (hv : Valid q) (hp : q.p = 0)
    (hl : data.length ≤ q.n) : Valid (fed q data) := by
  have hn : q.n = q.buf.length := by
    have := hv.room
    omega
  have hlen : (fed q data).buf.length = q.buf.length := by
    simp only [fed, bufWrite]
    split <;> simp <;> omega
  refine ⟨?_, hlen ▸ hv.pos⟩
  rw [hlen]
  simp only [fed]
  omega

/-- `ioq_feed()` without errors hands out nothing and leaves the queue empty
only at the end of the stream. -/
theorem ioqFeed_spec {q : Ioq} {i : Input} (hv : Valid q) (he : .error ∉ i.answers) :
    ∃ q' i', ioqFeed q i = ((q'.p : ℤ), q', i') ∧ Valid q' ∧ unread q' i' = unread q i ∧
      (q'.p = 0 → unread q i = []) ∧ .error ∉ i'.answers := by
  by_cases hp : q.p = 0
  · have hn : q.n = q.buf.length := by
      have := hv.room
      omega
    obtain ⟨m, hm, hmn, hdata, hrest, herr⟩ := readOnce_spec i.rest (hn ▸ hv.pos) he
    have hu : unread q i = i.rest := by simp [unread, hp]
    generalize hread : readOnce i.rest q.n i.answers = r at hdata hrest herr
    obtain ⟨data, i'⟩ := r
    dsimp only at hdata hrest herr
    subst hdata
    by_cases hnil : i.rest.take m = []
    · have hr : i.rest = [] := (List.take_eq_nil_iff.mp hnil).resolve_left (by omega)
      refine ⟨q, i', ?_, hv, ?_, fun _ => hu.trans hr, herr⟩
      · simp [ioqFeed, hp, hread, hnil]
      · simp [unread, hp, hrest, hr]
    · have hl : (i.rest.take m).length ≤ q.n := by
        rw [List.length_take]
        omega
      refine ⟨fed q (i.rest.take m), i', ?_, fed_valid hv hp hl, ?_, fun h0 => ?_, herr⟩
      · simp only [ioqFeed, hp, ne_eq, not_true_eq_false, if_false, hread, hnil, fed]
      · have hd := fed_drop hn hl
        have hfn : (fed q (i.rest.take m)).n = q.n - (i.rest.take m).length := rfl
        have hfp : (fed q (i.rest.take m)).p = (i.rest.take m).length := rfl
        rw [unread, hfn, hd, hfp, List.take_length, hrest, List.take_append_drop, hu]
      · exact absurd (List.length_eq_zero_iff.mp h0) hnil
  · exact ⟨q, i, by simp [ioqFeed, hp], hv, rfl, fun h0 => absurd h0 hp, he⟩

/-- A byte taken from the front of the queue. -/
theorem taken_spec {q : Ioq} {i : Input} (hv : Valid q) (hp : q.p ≠ 0) :
    unread q i = byteAt q.buf q.n :: unread { q with p := q.p - 1, n := q.n + 1 } i ∧
      Valid { q with p := q.p - 1, n := q.n + 1 } := by
  have hr := hv.room
  have hlt : q.n < q.buf.length := by omega
  refine ⟨?_, ⟨by simp only; omega, hv.pos⟩⟩
  have hb : byteAt q.buf q.n = q.buf[q.n] := by simp [byteAt, List.getD_eq_getElem?_getD, hlt]
  obtain ⟨p, hp'⟩ := Nat.exists_eq_succ_of_ne_zero hp
  rw [unread, unread, List.drop_eq_getElem_cons hlt, hb, hp', List.take_succ_cons]
  rfl

/-- `ioq_extract()` of one byte. -/
theorem ioqExtract_one {q : Ioq} (hv : Valid q) (hp : q.p ≠ 0) :
    ioqExtract q 1 = ([byteAt q.buf q.n], { q with p := q.p - 1, n := q.n + 1 }) := by
  have hr := hv.room
  have hlt : q.n < q.buf.length := by omega
  have hb : byteAt q.buf q.n = q.buf[q.n] := by simp [byteAt, List.getD_eq_getElem?_getD, hlt]
  have hlen : (if 1 > q.p then q.p else 1) = 1 := if_neg (by omega)
  simp only [ioqExtract, hlen, List.drop_eq_getElem_cons hlt, hb, List.take_succ_cons,
    List.take_zero]

/-- `ioq_get()` of one byte from an empty queue hands out the next byte of the
stream, and nothing at its end. -/
theorem ioqGet_one {q : Ioq} {i : Input} (hv : Valid q) (hp : q.p = 0)
    (he : .error ∉ i.answers) :
    (unread q i = [] ∧ (ioqGet q i 1).1 = 0) ∨
      ∃ b q' i', ioqGet q i 1 = (1, [b], q', i') ∧ Valid q' ∧
        unread q i = b :: unread q' i' ∧ .error ∉ i'.answers := by
  by_cases hn : q.n ≤ 1
  · -- a buffer of one byte is read around
    obtain ⟨m, hm, hm1, hdata, hrest, herr⟩ :=
      readOnce_spec i.rest Nat.one_pos he
    have hu : unread q i = i.rest := by simp [unread, hp]
    generalize hread : readOnce i.rest 1 i.answers = r at hdata hrest herr
    obtain ⟨data, i'⟩ := r
    dsimp only at hdata hrest herr
    subst hdata
    obtain rfl : m = 1 := by omega
    have hget : ioqGet q i 1 = (((i.rest.take 1).length : ℤ), i.rest.take 1, q, i') := by
      simp [ioqGet, hp, hn, hread]
    cases hc : i.rest with
    | nil => exact .inl ⟨hu.trans hc, by rw [hget, hc]; rfl⟩
    | cons b bs =>
      refine .inr ⟨b, q, i', ?_, hv, ?_, herr⟩
      · rw [hget, hc]
        rfl
      · simp [hc, unread, hp, hrest]
  · obtain ⟨q', i', hfeed, hv', hu, hempty, herr⟩ := ioqFeed_spec hv he
    by_cases hp' : q'.p = 0
    · refine .inl ⟨hempty hp', ?_⟩
      simp [ioqGet, hp, hn, hfeed, hp']
    · obtain ⟨htake, hval⟩ := taken_spec (i := i') hv' hp'
      refine .inr ⟨byteAt q'.buf q'.n, _, i', ?_, hval, hu ▸ htake, herr⟩
      simp [ioqGet, hp, hn, hfeed, hp', ioqExtract_one hv' hp']

/-- `ioq_GETC()` without errors hands out the next byte of the stream, and
nothing at its end. -/
theorem ioqGetc_spec {q : Ioq} {i : Input} (c : UInt8) (hv : Valid q) (he : .error ∉ i.answers) :
    (unread q i = [] ∧ (ioqGetc q i c).1 = 0) ∨
      ∃ b q' i', ioqGetc q i c = (1, b, q', i') ∧ Valid q' ∧
        unread q i = b :: unread q' i' ∧ .error ∉ i'.answers := by
  by_cases hp : q.p = 0
  · rcases ioqGet_one hv hp he with ⟨hu, hr⟩ | ⟨b, q', i', hget, hv', hu, herr⟩
    · exact .inl ⟨hu, by simp [ioqGetc, hp, hr]⟩
    · exact .inr ⟨b, q', i', by simp [ioqGetc, hp, hget], hv', hu, herr⟩
  · obtain ⟨htake, hval⟩ := taken_spec (i := i) hv hp
    exact .inr ⟨_, _, i, by simp [ioqGetc, Nat.pos_of_ne_zero hp], hval, htake, he⟩

end Perp.IoqGet
