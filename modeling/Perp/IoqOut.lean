import Mathlib.Algebra.Order.Ring.Nat
import Perp.Cstr
import Perp.IoqPut

set_option autoImplicit false

/-!
# An output queue as a stream

All ways to put data to an `ioq`, in any order, with the buffer as the array it is.
-/
namespace Perp.IoqOut
open Pkt ByteImage IoqPut Cstr

/-! ## The operations -/

/-- A queue for output: the buffer with all its bytes, its size, and how much of it is in use. -/
structure Ioq where
  d : Fd
  buf : List UInt8
  n : ℕ
  p : ℕ
  deriving DecidableEq, Repr

/-- The queue with the part of its buffer that is in use -/
def Ioq.view (q : Ioq) : IoqPut.Ioq := ⟨q.d, q.n, q.buf.take q.p⟩

/-- `n - p` as a `size_t` -/
def Ioq.avail (q : Ioq) : ℕ := (q.n + 2 ^ 64 - q.p) % 2 ^ 64

/-- `buf_copy()` to `buf + p`, within the buffer, and `p` moved behind it -/
def store (q : Ioq) (data : List UInt8) : Option Ioq :=
  if q.p + data.length ≤ q.buf.length then
    some { q with buf := bufWrite q.buf q.p data, p := q.p + data.length }
  else none

/-- A `size_t` that is put into an `int` -/
def toInt (p : ℕ) : ℤ :=
  if p % 2 ^ 32 < 2 ^ 31 then (p % 2 ^ 32 : ℕ) else (p % 2 ^ 32 : ℕ) - 2 ^ 32

/-- An `int` that is passed as a `size_t` -/
def toSize (k : ℤ) : ℕ := (k % 2 ^ 64).toNat

def ioqFlush (q : Ioq) : Option (ℤ × Ioq) :=
  let toWrite := toInt q.p
  if toWrite = 0 then some (0, q)
  else if toSize toWrite ≤ q.buf.length then
    let r := writeAll q.d (q.buf.take (toSize toWrite)) q.d.writes
    some (r.1, { q with d := r.2, p := 0 })
  else none

def ioqPut (q : Ioq) (data : List UInt8) : Option (ℤ × Ioq) :=
  if data.length ≤ q.avail then (store q data).map fun q => (0, q)
  else do
    let out ← ioqFlush q
    if out.1 ≠ 0 then return (-1, out.2)
    let r := ioqBlocks data.length out.2.view (max q.n ioqBufsize) data
    let q := { out.2 with d := r.2.1.d }
    if r.1 = -1 then return (-1, q)
    (store q r.2.2).map fun q => (0, q)

def ioqPuts (q : Ioq) (s : Text) : Option (ℤ × Ioq) := ioqPut q s.bytes

/-- `ioq_PUTC()` -/
def ioqPutc (q : Ioq) (c : UInt8) : Option (ℤ × Ioq) :=
  if q.p < q.n then (store q [c]).map fun q => (0, q) else ioqPut q [c]

def ioqPutflush (q : Ioq) (data : List UInt8) : Option (ℤ × Ioq) := do
  let out ← ioqFlush q
  if out.1 = -1 then return (-1, out.2)
  let r := writeAll out.2.d data out.2.d.writes
  return (r.1, { out.2 with d := r.2 })

/-- The loop of `ioq_putfill()` -/
def putfillLoop : ℕ → Ioq → List UInt8 → Option (ℤ × Ioq)
  | 0, _, _ => none
  | fuel + 1, q, data =>
    if data.length ≤ q.avail then (store q data).map fun q => (0, q)
    else do
      let out ← ioqFlush (← store q (data.take q.avail))
      if out.1 = -1 then return (-1, out.2)
      putfillLoop fuel out.2 (data.drop q.avail)

/-- `ioq_putfill()`: a full buffer is flushed first, and then each turn takes a byte at least. -/
def ioqPutfill (q : Ioq) (data : List UInt8) : Option (ℤ × Ioq) :=
  putfillLoop (data.length + 2) q data

inductive Op where
  | put (data : List UInt8)
  | puts (s : Text)
  | putc (c : UInt8)
  | putfill (data : List UInt8)
  | putflush (data : List UInt8)
  | flush

def step (q : Ioq) : Op → Option (ℤ × Ioq)
  | .put data => ioqPut q data
  | .puts s => ioqPuts q s
  | .putc c => ioqPutc q c
  | .putfill data => ioqPutfill q data
  | .putflush data => ioqPutflush q data
  | .flush => ioqFlush q

/-- What an operation puts to the queue -/
def Op.data : Op → List UInt8
  | .put data | .putfill data | .putflush data => data
  | .puts s => s.bytes
  | .putc c => [c]
  | .flush => []

/-- The operations after which nothing stays in the buffer -/
def Op.flushes : Op → Bool
  | .putflush _ | .flush => true
  | _ => false

/-- One operation after the other: what they return, and the queue after them -/
def run : Ioq → List Op → Option (List ℤ × Ioq)
  | q, [] => some ([], q)
  | q, o :: os => do
    let out ← step q o
    let rest ← run out.2 os
    return (out.1 :: rest.1, rest.2)

/-- A buffer that `ioq_init()` takes -/
abbrev Buffer := {buf : List UInt8 // 1 ≤ buf.length ∧ buf.length ≤ 2 ^ 31 - 1}

/-- A script of `write()` without failures -/
abbrev Script := {writes : List WriteRet // .again ∉ writes ∧ .error ∉ writes}

/-- A new queue over a descriptor that nothing has been written to -/
def start (buf : Buffer) (writes : Script) : Ioq := ⟨⟨[], 0, writes, []⟩, buf, buf.val.length, 0⟩

/-! ## The array and its part in use -/

/-- The indices stay within a buffer of `size` bytes. -/
structure Within (size : ℕ) (q : Ioq) : Prop where
  pos : 1 ≤ size
  small : size ≤ 2 ^ 31 - 1
  n : q.n = size
  len : q.buf.length = size
  p : q.p ≤ size

variable {size n fuel : ℕ} {q q' : Ioq} {d : Fd} {data out : List UInt8} {writes : List WriteRet}

theorem Within.avail (h : Within size q) : q.avail = size - q.p := by
  have hp := h.p
  have hsmall := h.small
  rw [Ioq.avail, h.n]
  omega

theorem Within.view_length (h : Within size q) : q.view.buf.length = q.p := by
  have hp := h.p
  rw [Ioq.view, List.length_take, h.len]
  omega

theorem Within.toInt (h : Within size q) : toInt q.p = q.p := by
  have hp := h.p
  have hsmall := h.small
  have hmod : q.p % 2 ^ 32 = q.p := by omega
  rw [IoqOut.toInt, hmod, if_pos (by omega)]

theorem Within.toSize (h : Within size q) : toSize (q.p : ℤ) = q.p := by
  have hp := h.p
  have hsmall := h.small
  rw [IoqOut.toSize]
  omega

theorem store_view (h : Within size q) (hfits : q.p + data.length ≤ size) :
    ∃ q', store q data = some q' ∧ q'.view = { q.view with buf := q.view.buf ++ data } ∧
      q'.p = q.p + data.length ∧ Within size q' := by
  have hlen := h.len
  have htake : (q.buf.take q.p ++ data).length = q.p + data.length := by
    rw [List.length_append, List.length_take]
    omega
  refine ⟨{ q with buf := bufWrite q.buf q.p data, p := q.p + data.length }, ?_, ?_, rfl, ?_⟩
  · rw [store, if_pos (by rw [hlen]; exact hfits)]
  · change IoqPut.Ioq.mk q.d q.n ((bufWrite q.buf q.p data).take (q.p + data.length)) = _
    rw [bufWrite, ← htake, List.take_left]
    rfl
  · refine ⟨h.pos, h.small, h.n, ?_, hfits⟩
    change (bufWrite q.buf q.p data).length = size
    rw [bufWrite, List.length_append, htake, List.length_drop]
    omega

theorem flush_view (h : Within size q) :
    ∃ q', ioqFlush q = some ((IoqPut.ioqFlush q.view).1, q') ∧
      q'.view = (IoqPut.ioqFlush q.view).2 ∧ q'.p = 0 ∧ Within size q' := by
  have hlen := h.view_length
  by_cases hp : q.p = 0
  · have hnil : q.view.buf = [] := List.length_eq_zero_iff.mp (hlen.trans hp)
    refine ⟨q, ?_, ?_, hp, h⟩
    · rw [ioqFlush, h.toInt, hp, IoqPut.ioqFlush, if_pos hnil]
      rfl
    · rw [IoqPut.ioqFlush, if_pos hnil]
  · have hnil : q.view.buf ≠ [] := fun hnil => hp (by rw [← hlen, hnil]; rfl)
    have hcast : (q.p : ℤ) ≠ 0 := by omega
    have hle : q.p ≤ q.buf.length := by rw [h.len]; exact h.p
    refine ⟨{ q with d := (writeAll q.d (q.buf.take q.p) q.d.writes).2, p := 0 }, ?_, ?_, rfl,
      ⟨h.pos, h.small, h.n, h.len, Nat.zero_le _⟩⟩
    · simp only [ioqFlush, h.toInt, if_neg hcast, h.toSize, if_pos hle]
      rw [IoqPut.ioqFlush, if_neg hnil]
      rfl
    · rw [IoqPut.ioqFlush, if_neg hnil]
      rfl

/-- The direct writes leave the buffer as it is, and data that fits it. -/
theorem blocks_view {q : IoqPut.Ioq} (hsize : 1 ≤ q.n) (hn : 1 ≤ n) (hfuel : data.length ≤ fuel) :
    (ioqBlocks fuel q n data).2.1 = { q with d := (ioqBlocks fuel q n data).2.1.d } ∧
      ((ioqBlocks fuel q n data).1 ≠ -1 → (ioqBlocks fuel q n data).2.2.length ≤ q.n) := by
  induction fuel generalizing q n data with
  | zero =>
    refine ⟨rfl, fun _ => ?_⟩
    change data.length ≤ q.n
    omega
  | succ fuel ih =>
    rw [ioqBlocks]
    by_cases hfits : data.length ≤ q.n
    · rw [if_pos hfits]
      exact ⟨rfl, fun _ => hfits⟩
    · rw [if_neg hfits]
      by_cases hfail : (writeAll q.d (data.take (min n data.length)) q.d.writes).1 = -1
      · simp [hfail]
      · simp only [if_neg hfail]
        have hdrop : (data.drop (min n data.length)).length ≤ fuel := by
          rw [List.length_drop]
          omega
        exact ih (q := ⟨(writeAll q.d (data.take (min n data.length)) q.d.writes).2, q.n, q.buf⟩)
          hsize (by omega) hdrop

/-- On the part in use `ioq_put()` is as it is without the array, whatever `write()` does. -/
theorem put_view (h : Within size q) (data : List UInt8) :
    ∃ q', ioqPut q data = some ((IoqPut.ioqPut q.view data).1, q') ∧
      q'.view = (IoqPut.ioqPut q.view data).2 ∧ Within size q' := by
  have hp := h.p
  have hroom : q.view.n - q.view.buf.length = size - q.p := by
    rw [h.view_length]
    exact congrArg (· - q.p) h.n
  rw [ioqPut, h.avail, IoqPut.ioqPut, hroom]
  by_cases hfits : data.length ≤ size - q.p
  · have hend : q.p + data.length ≤ size := by omega
    obtain ⟨q', hstore, hview, -, hwithin⟩ := store_view h hend
    rw [if_pos hfits, if_pos hfits, hstore]
    exact ⟨q', rfl, hview, hwithin⟩
  · obtain ⟨q₁, hflush, hview, hzero, hwithin⟩ := flush_view h
    have hn : q.view.n = q.n := rfl
    have hn₁ : q₁.view.n = size := hwithin.n
    rw [if_neg hfits, if_neg hfits, hflush]
    simp only [Option.bind_eq_bind, Option.bind_some, ← hview, hn]
    by_cases hfail : (IoqPut.ioqFlush q.view).1 ≠ 0
    · rw [if_pos hfail, if_pos hfail]
      exact ⟨q₁, rfl, rfl, hwithin⟩
    · rw [if_neg hfail, if_neg hfail]
      have hblock : 1 ≤ max q.n ioqBufsize := by
        rw [ioqBufsize]
        omega
      obtain ⟨hkeep, hrest⟩ := blocks_view (q := q₁.view) (by rw [hn₁]; exact h.pos) hblock
        (Nat.le_refl data.length)
      generalize ioqBlocks data.length q₁.view (max q.n ioqBufsize) data = r at hkeep hrest ⊢
      have hafter : Within size { q₁ with d := r.2.1.d } :=
        ⟨h.pos, h.small, hwithin.n, hwithin.len, hwithin.p⟩
      by_cases hfail : r.1 = -1
      · rw [if_pos hfail, if_pos hfail]
        exact ⟨{ q₁ with d := r.2.1.d }, rfl, hkeep.symm, hafter⟩
      · rw [if_neg hfail, if_neg hfail]
        have hfits : q₁.p + r.2.2.length ≤ size := by
          rw [hzero, Nat.zero_add, ← hn₁]
          exact hrest hfail
        obtain ⟨q', hstore, hview', -, hwithin'⟩ := store_view hafter hfits
        rw [hstore]
        refine ⟨q', rfl, ?_, hwithin'⟩
        rw [hview', hkeep]
        rfl

/-! ## The stream -/

/-- All of `out` has been written or is in the buffer, in this order, and no `write()` to come
fails. -/
structure Kept (size : ℕ) (q : Ioq) (out : List UInt8) : Prop where
  within : Within size q
  sent : Sent [] 0 q.view out
  steady : Steady q.d.writes

theorem pwrite_new (w : List UInt8) : pwrite [] 0 w = w := by
  by_cases hnil : w = []
  · rw [hnil, pwrite_nil]
  · rw [pwrite, if_neg hnil]
    simp

theorem Kept.split (h : Kept size q out) : q.d.file ++ q.buf.take q.p = out := by
  obtain ⟨w, hout, hfile, -⟩ := h.sent.split
  change q.d.file = pwrite [] 0 w at hfile
  rw [hfile, pwrite_new, hout]
  rfl

theorem Kept.store (h : Kept size q out) (hfits : q.p + data.length ≤ size) :
    ∃ q', store q data = some q' ∧ q'.p = q.p + data.length ∧ Kept size q' (out ++ data) := by
  obtain ⟨q', hstore, hview, hp, hwithin⟩ := store_view h.within hfits
  have hd : q'.d = q.d := congrArg IoqPut.Ioq.d hview
  refine ⟨q', hstore, hp, hwithin, ?_, ?_⟩
  · rw [hview]
    exact h.sent.append data
  · rw [hd]
    exact h.steady

theorem Kept.flush (h : Kept size q out) :
    ∃ q', ioqFlush q = some (0, q') ∧ q'.p = 0 ∧ Kept size q' out := by
  obtain ⟨q', hflush, hview, hp, hwithin⟩ := flush_view h.within
  have hused := ioqFlush_steady (q := q.view) h.steady
  rw [hused.ok] at hflush
  refine ⟨q', hflush, hp, hwithin, ?_, ?_⟩
  · rw [hview]
    exact (h.sent.flush hused.ok).1
  · rw [← hview] at hused
    exact h.steady.suffix hused.writes

theorem Kept.put (h : Kept size q out) (data : List UInt8) :
    ∃ q', ioqPut q data = some (0, q') ∧ Kept size q' (out ++ data) := by
  obtain ⟨q', hput, hview, hwithin⟩ := put_view h.within data
  have hused := ioqPut_steady (q := q.view) h.steady data
  rw [hused.ok] at hput
  refine ⟨q', hput, hwithin, ?_, ?_⟩
  · rw [hview]
    exact h.sent.put hused.ok
  · rw [← hview] at hused
    exact h.steady.suffix hused.writes

/-- With nothing in the buffer, data that is written directly follows what was put before. -/
theorem Kept.direct (h : Kept size q out) (hp : q.p = 0) (data : List UInt8) :
    (writeAll q.d data q.d.writes).1 = 0 ∧
      Kept size { q with d := (writeAll q.d data q.d.writes).2 } (out ++ data) := by
  obtain ⟨hok, hsuff, -⟩ := @writeAll_steady q.d data _ h.steady
  obtain ⟨hfile, hoff⟩ := writeAll_spec hok
  obtain ⟨w, hout, hfile', hoff'⟩ := h.sent.split
  have hnil : q.buf.take q.p = [] := by rw [hp, List.take_zero]
  change out = w ++ q.buf.take q.p at hout
  change q.d.file = pwrite [] 0 w at hfile'
  change q.d.off = 0 + w.length at hoff'
  have hw := h.within
  refine ⟨hok, ⟨hw.pos, hw.small, hw.n, hw.len, hw.p⟩, ⟨w ++ data, ?_, ?_, ?_⟩,
    h.steady.suffix hsuff⟩
  · change out ++ data = w ++ data ++ q.buf.take q.p
    rw [hout, hnil, List.append_nil, List.append_nil]
  · change (writeAll q.d data q.d.writes).2.file = _
    rw [hfile, hfile', hoff', pwrite_pwrite]
  · change (writeAll q.d data q.d.writes).2.off = _
    rw [hoff, hoff', List.length_append, Nat.add_assoc]

theorem Kept.putflush (h : Kept size q out) (data : List UInt8) :
    ∃ q', ioqPutflush q data = some (0, q') ∧ q'.p = 0 ∧ Kept size q' (out ++ data) := by
  obtain ⟨q', hflush, hp, hkept⟩ := h.flush
  obtain ⟨hok, hdirect⟩ := hkept.direct hp data
  refine ⟨{ q' with d := (writeAll q'.d data q'.d.writes).2 }, ?_, hp, hdirect⟩
  rw [ioqPutflush, hflush]
  simp [hok]

theorem Kept.putc (h : Kept size q out) (c : UInt8) :
    ∃ q', ioqPutc q c = some (0, q') ∧ Kept size q' (out ++ [c]) := by
  rw [ioqPutc]
  by_cases hroom : q.p < q.n
  · have hfits : q.p + [c].length ≤ size := by
      rw [← h.within.n]
      exact hroom
    obtain ⟨q', hstore, -, hkept⟩ := h.store hfits
    rw [if_pos hroom, hstore]
    exact ⟨q', rfl, hkept⟩
  · rw [if_neg hroom]
    exact h.put [c]

/-- Induction on the turns: after the first the buffer is empty, and each other takes all of
the buffer's size. -/
theorem Kept.putfill (h : Kept size q out)
    (hfuel : data.length + 2 ≤ fuel ∨ data.length + 1 ≤ fuel ∧ q.p = 0) :
    ∃ q', putfillLoop fuel q data = some (0, q') ∧ Kept size q' (out ++ data) := by
  induction fuel generalizing q out data with
  | zero => omega
  | succ fuel ih =>
    have hpos := h.within.pos
    have hp := h.within.p
    rw [putfillLoop, h.within.avail]
    by_cases hfits : data.length ≤ size - q.p
    · have hend : q.p + data.length ≤ size := by omega
      obtain ⟨q', hstore, -, hkept⟩ := h.store hend
      rw [if_pos hfits, hstore]
      exact ⟨q', rfl, hkept⟩
    · have hlen : (data.take (size - q.p)).length = size - q.p := by
        rw [List.length_take]
        omega
      have hend : q.p + (data.take (size - q.p)).length ≤ size := by omega
      obtain ⟨q₁, hstore, -, hkept⟩ := h.store hend
      obtain ⟨q₂, hflush, hzero, hkept⟩ := hkept.flush
      have hleft : (data.drop (size - q.p)).length + 1 ≤ fuel := by
        rw [List.length_drop]
        omega
      obtain ⟨q', hloop, hkept⟩ := ih hkept (.inr ⟨hleft, hzero⟩)
      rw [List.append_assoc, List.take_append_drop] at hkept
      refine ⟨q', ?_, hkept⟩
      rw [if_neg hfits]
      simp only [hstore, hflush, Option.bind_eq_bind, Option.bind_some]
      exact hloop

theorem step_kept (h : Kept size q out) (o : Op) :
    ∃ q', step q o = some (0, q') ∧ Kept size q' (out ++ o.data) ∧ (o.flushes → q'.p = 0) := by
  cases o with
  | put data =>
    obtain ⟨q', hput, hkept⟩ := h.put data
    exact ⟨q', hput, hkept, fun hflushes => nomatch hflushes⟩
  | puts s =>
    obtain ⟨q', hput, hkept⟩ := h.put s.bytes
    exact ⟨q', hput, hkept, fun hflushes => nomatch hflushes⟩
  | putc c =>
    obtain ⟨q', hput, hkept⟩ := h.putc c
    exact ⟨q', hput, hkept, fun hflushes => nomatch hflushes⟩
  | putfill data =>
    obtain ⟨q', hput, hkept⟩ := h.putfill (.inl (Nat.le_refl _))
    exact ⟨q', hput, hkept, fun hflushes => nomatch hflushes⟩
  | putflush data =>
    obtain ⟨q', hput, hp, hkept⟩ := h.putflush data
    exact ⟨q', hput, hkept, fun _ => hp⟩
  | flush =>
    obtain ⟨q', hflush, hp, hkept⟩ := h.flush
    rw [← List.append_nil out] at hkept
    exact ⟨q', hflush, hkept, fun _ => hp⟩

theorem run_kept (h : Kept size q out) (os : List Op) :
    ∃ q', run q os = some (List.replicate os.length 0, q') ∧
      Kept size q' (out ++ os.flatMap Op.data) := by
  induction os generalizing q out with
  | nil => exact ⟨q, rfl, by rw [List.flatMap_nil, List.append_nil]; exact h⟩
  | cons o os ih =>
    obtain ⟨q₁, hstep, hkept, -⟩ := step_kept h o
    obtain ⟨q', hrun, hkept⟩ := ih hkept
    rw [List.append_assoc, ← List.flatMap_cons] at hkept
    refine ⟨q', ?_, hkept⟩
    rw [run, hstep]
    simp only [Option.bind_eq_bind, Option.bind_some, hrun]
    rfl

theorem start_kept (buf : Buffer) (writes : Script) :
    Kept buf.val.length (start buf writes) [] :=
  ⟨⟨buf.property.1, buf.property.2, rfl, rfl, Nat.zero_le _⟩, ⟨[], rfl, rfl, rfl⟩, writes.property⟩

/-- From a new queue on, all operations return 0 and stay within the buffer; the bytes written
and those in the buffer are the data put so far; and one more operation that flushes leaves all
of its data and of theirs written. -/
theorem ioq_output_stream (buf : Buffer) (writes : Script) (os : List Op) :
    ∃ q, run (start buf writes) os = some (List.replicate os.length 0, q) ∧
      q.d.file ++ q.buf.take q.p = os.flatMap Op.data ∧
      q.p ≤ q.n ∧ q.n = buf.val.length ∧ q.buf.length = buf.val.length ∧
      ∀ o, ∃ q', step q o = some (0, q') ∧
        (o.flushes → q'.p = 0 ∧ q'.d.file = os.flatMap Op.data ++ o.data) := by
  obtain ⟨q, hrun, hkept⟩ := run_kept (start_kept buf writes) os
  rw [List.nil_append] at hkept
  have hw := hkept.within
  refine ⟨q, hrun, hkept.split, ?_, hw.n, hw.len, ?_⟩
  · rw [hw.n]
    exact hw.p
  · intro o
    obtain ⟨q', hstep, hkept', hzero⟩ := step_kept hkept o
    refine ⟨q', hstep, fun hflushes => ⟨hzero hflushes, ?_⟩⟩
    have hsplit := hkept'.split
    rw [hzero hflushes, List.take_zero, List.append_nil] at hsplit
    exact hsplit

end Perp.IoqOut
