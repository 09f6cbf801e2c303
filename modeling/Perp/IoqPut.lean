import Perp.ByteImage
import Perp.Pkt

set_option autoImplicit false

/-!
# Buffered output

`lasagna/ioq`, the write side: a queue over `write()` and what reaches the file.
-/
namespace Perp.IoqPut
open Pkt ByteImage

def ioqBufsize : ℕ := 8192

/-- A file opened for writing: its bytes, the file offset, and how `write()` and
`lseek()` will go. -/
structure Fd where
  file : List UInt8
  off : ℕ
  writes : List WriteRet
  /-- whether `lseek()` fails, call by call -/
  seeks : List Bool
  deriving DecidableEq, Repr

/-- `write_all()`. A `write()` takes no more than it is given, and when the
returns are used up it takes all of that. -/
def writeAll (d : Fd) (buf : List UInt8) : List WriteRet → ℤ × Fd
  | [] => (0, { d with file := pwrite d.file d.off buf, off := d.off + buf.length, writes := [] })
  | ret :: writes =>
    if buf = [] then (0, { d with writes := ret :: writes })
    else
      match ret with
      | .wrote w =>
        let w := min w buf.length
        writeAll { d with file := pwrite d.file d.off (buf.take w), off := d.off + w } (buf.drop w)
          writes
      | .intr => writeAll d buf writes
      | .again | .error => (-1, { d with writes := writes })

/-- `lseek()` to an offset from the start of the file -/
def lseek (d : Fd) (off : ℕ) : ℤ × Fd :=
  match d.seeks with
  | true :: seeks => (-1, { d with seeks := seeks })
  | seeks => (off, { d with off := off, seeks := seeks.tail })

/-- A queue for output over a buffer of `n` bytes. -/
structure Ioq where
  d : Fd
  n : ℕ
  /-- the first `p` bytes of the buffer -/
  buf : List UInt8
  deriving DecidableEq, Repr

def ioqInit (d : Fd) (len : ℕ) : Ioq := ⟨d, len, []⟩

def ioqFlush (q : Ioq) : ℤ × Ioq :=
  if q.buf = [] then (0, q)
  else
    let r := writeAll q.d q.buf q.d.writes
    (r.1, { q with d := r.2, buf := [] })

/-- The direct writes of `ioq_put()`, in blocks of `n` bytes, until the rest of
the data fits the buffer. Each takes a byte at least, which bounds them. -/
def ioqBlocks : ℕ → Ioq → ℕ → List UInt8 → ℤ × Ioq × List UInt8
  | 0, q, _, data => (0, q, data)
  | fuel + 1, q, n, data =>
    if data.length ≤ q.n then (0, q, data)
    else
      let n := min n data.length
      let r := writeAll q.d (data.take n) q.d.writes
      if r.1 = -1 then (-1, { q with d := r.2 }, data)
      else ioqBlocks fuel { q with d := r.2 } n (data.drop n)

def ioqPut (q : Ioq) (data : List UInt8) : ℤ × Ioq :=
  if data.length ≤ q.n - q.buf.length then (0, { q with buf := q.buf ++ data })
  else
    let r := ioqFlush q
    if r.1 ≠ 0 then (-1, r.2)
    else
      let r := ioqBlocks data.length r.2 (max q.n ioqBufsize) data
      if r.1 = -1 then (-1, r.2.1) else (0, { r.2.1 with buf := r.2.1.buf ++ r.2.2 })

/-- The bytes put to the queue since the file was `f` and the offset `off` are
`out`: some of them have been written, and the others are in the buffer. -/
structure Sent (f : List UInt8) (off : ℕ) (q : Ioq) (out : List UInt8) : Prop where
  split : ∃ w, out = w ++ q.buf ∧ q.d.file = pwrite f off w ∧ q.d.off = off + w.length

variable {d : Fd} {f buf data out : List UInt8} {off n fuel : ℕ} {q : Ioq}

/-- When `write_all()` returns 0, all of the buffer has been written. -/
theorem writeAll_spec {writes : List WriteRet} (h : (writeAll d buf writes).1 = 0) :
    (writeAll d buf writes).2.file = pwrite d.file d.off buf ∧
      (writeAll d buf writes).2.off = d.off + buf.length := by
  induction writes generalizing d buf with
  | nil => exact ⟨rfl, rfl⟩
  | cons ret writes ih =>
    unfold writeAll at h ⊢
    by_cases hb : buf = []
    · simp [hb, pwrite_nil]
    · rw [if_neg hb] at h ⊢
      cases ret with
      | wrote w =>
        obtain ⟨hfile, hoff⟩ := ih h
        have hlen : (buf.take (min w buf.length)).length = min w buf.length := by simp
        refine ⟨?_, ?_⟩
        · rw [hfile]
          conv_lhs => rw [← hlen]
          rw [hlen, show d.off + min w buf.length =
            d.off + (buf.take (min w buf.length)).length by rw [hlen], pwrite_pwrite,
            List.take_append_drop]
        · rw [hoff]
          simp only [List.length_drop]
          omega
      | intr => exact ih h
      | again => simp at h
      | error => simp at h

theorem writeAll_ret (d : Fd) (buf : List UInt8) (writes : List WriteRet) :
    (writeAll d buf writes).1 = 0 ∨ (writeAll d buf writes).1 = -1 := by
  induction writes generalizing d buf with
  | nil => exact .inl rfl
  | cons ret writes ih =>
    unfold writeAll
    by_cases hb : buf = []
    · exact .inl (by simp [hb])
    · rw [if_neg hb]
      cases ret with
      | wrote w => exact ih _ _
      | intr => exact ih _ _
      | again => exact .inr rfl
      | error => exact .inr rfl

theorem ioqFlush_ret (q : Ioq) : (ioqFlush q).1 = 0 ∨ (ioqFlush q).1 = -1 := by
  unfold ioqFlush
  by_cases hb : q.buf = []
  · exact .inl (by rw [if_pos hb])
  · rw [if_neg hb]
    exact writeAll_ret _ _ _

/-- After `lseek()` the descriptor stands at the offset, and nothing is written. -/
theorem lseek_spec (h : (lseek d off).1 ≠ -1) :
    (lseek d off).2.file = d.file ∧ (lseek d off).2.off = off := by
  unfold lseek at h ⊢
  split at h
  · exact absurd rfl h
  · exact ⟨rfl, rfl⟩

theorem sent_nil (hb : q.buf = []) : Sent q.d.file q.d.off q [] :=
  ⟨[], by rw [hb, List.append_nil], (pwrite_nil _ _).symm, rfl⟩

theorem Sent.flush (h : Sent f off q out) (hr : (ioqFlush q).1 = 0) :
    Sent f off (ioqFlush q).2 out ∧ (ioqFlush q).2.buf = [] := by
  obtain ⟨w, hout, hfile, hoff⟩ := h.split
  unfold ioqFlush at hr ⊢
  by_cases hb : q.buf = []
  · rw [if_pos hb]
    exact ⟨h, hb⟩
  · rw [if_neg hb] at hr ⊢
    obtain ⟨hfile', hoff'⟩ := writeAll_spec hr
    refine ⟨⟨out, (List.append_nil _).symm, ?_, ?_⟩, rfl⟩
    · rw [hfile', hfile, hoff, pwrite_pwrite, ← hout]
    · rw [hoff', hoff, hout, List.length_append]
      omega

/-- After a flush everything put to the queue is in the file. -/
theorem Sent.flushed (h : Sent f off q out) (hr : (ioqFlush q).1 = 0) :
    (ioqFlush q).2.d.file = pwrite f off out := by
  obtain ⟨⟨w, hout, hfile, -⟩, hbuf⟩ := h.flush hr
  rw [hfile, hout, hbuf, List.append_nil]

theorem Sent.blocks (h : Sent f off q out) (hb : q.buf = [])
    (hr : (ioqBlocks fuel q n data).1 ≠ -1) :
    ∃ gone, data = gone ++ (ioqBlocks fuel q n data).2.2 ∧
      Sent f off (ioqBlocks fuel q n data).2.1 (out ++ gone) := by
  induction fuel generalizing q out n data with
  | zero => exact ⟨[], rfl, by simpa [ioqBlocks] using h⟩
  | succ fuel ih =>
    unfold ioqBlocks at hr ⊢
    by_cases hfits : data.length ≤ q.n
    · rw [if_pos hfits]
      exact ⟨[], rfl, by simpa using h⟩
    · rw [if_neg hfits] at hr ⊢
      simp only at hr ⊢
      generalize min n data.length = n at hr ⊢
      by_cases hfail : (writeAll q.d (data.take n) q.d.writes).1 = -1
      · simp [hfail] at hr
      · rw [if_neg hfail] at hr ⊢
        have hok := (writeAll_ret q.d (data.take n) q.d.writes).resolve_right hfail
        obtain ⟨hfile, hoff⟩ := writeAll_spec hok
        obtain ⟨w, hout, hfile', hoff'⟩ := h.split
        rw [hb, List.append_nil] at hout
        subst hout
        have hnext : Sent f off { q with d := (writeAll q.d (data.take n) q.d.writes).2 }
            (out ++ data.take n) := by
          refine ⟨out ++ data.take n, by rw [hb, List.append_nil], ?_, ?_⟩
          · rw [hfile, hfile', hoff', pwrite_pwrite]
          · rw [hoff, hoff', List.length_append, Nat.add_assoc]
        obtain ⟨gone, hdata, hsent⟩ := ih hnext hb hr
        refine ⟨data.take n ++ gone, ?_, ?_⟩
        · rw [List.append_assoc, ← hdata, List.take_append_drop]
        · rw [← List.append_assoc]
          exact hsent

theorem Sent.append (h : Sent f off q out) (data : List UInt8) :
    Sent f off { q with buf := q.buf ++ data } (out ++ data) := by
  obtain ⟨w, hout, hfile, hoff⟩ := h.split
  exact ⟨w, by rw [hout, List.append_assoc], hfile, hoff⟩

/-- When `ioq_put()` returns 0, its data follows what was put before. -/
theorem Sent.put (h : Sent f off q out) (hr : (ioqPut q data).1 = 0) :
    Sent f off (ioqPut q data).2 (out ++ data) := by
  unfold ioqPut at hr ⊢
  by_cases hfits : data.length ≤ q.n - q.buf.length
  · rw [if_pos hfits]
    exact h.append data
  · rw [if_neg hfits] at hr ⊢
    simp only at hr ⊢
    by_cases hflush : (ioqFlush q).1 = 0
    · rw [if_neg (not_not.mpr hflush)] at hr ⊢
      by_cases hfail : (ioqBlocks data.length (ioqFlush q).2 (max q.n ioqBufsize) data).1 = -1
      · simp [hfail] at hr
      · rw [if_neg hfail]
        obtain ⟨hsent, hbuf⟩ := h.flush hflush
        obtain ⟨gone, hdata, hsent⟩ := hsent.blocks hbuf hfail
        have happ := hsent.append
          (ioqBlocks data.length (ioqFlush q).2 (max q.n ioqBufsize) data).2.2
        rw [List.append_assoc, ← hdata] at happ
        exact happ
    · simp [hflush] at hr

theorem ioqPut_ret (q : Ioq) (data : List UInt8) :
    (ioqPut q data).1 = 0 ∨ (ioqPut q data).1 = -1 := by
  simp only [ioqPut]
  split_ifs <;> simp

/-- `ioq_put()` of one piece after the other, up to the first that fails. -/
def puts (q : Ioq) : List (List UInt8) → ℤ × Ioq
  | [] => (0, q)
  | data :: pieces =>
    let r := ioqPut q data
    if r.1 = -1 then (-1, r.2) else puts r.2 pieces

theorem Sent.puts {pieces : List (List UInt8)} (h : Sent f off q out)
    (hr : (puts q pieces).1 ≠ -1) : Sent f off (puts q pieces).2 (out ++ pieces.flatten) := by
  induction pieces generalizing q out with
  | nil => simpa [IoqPut.puts] using h
  | cons data pieces ih =>
    unfold IoqPut.puts at hr ⊢
    by_cases hfail : (ioqPut q data).1 = -1
    · simp [hfail] at hr
    · simp only [if_neg hfail] at hr ⊢
      have hput := h.put ((ioqPut_ret q data).resolve_right hfail)
      rw [List.flatten_cons, ← List.append_assoc]
      exact ih hput hr

/-! ## A descriptor that does not fail -/

/-- No `write()` to come fails. -/
def Steady (writes : List WriteRet) : Prop := .again ∉ writes ∧ .error ∉ writes

/-- What is left of the returns when a call that succeeds has used some -/
structure Used (r : ℤ) (d d' : Fd) : Prop where
  ok : r = 0
  writes : d'.writes <:+ d.writes
  seeks : d'.seeks = d.seeks

theorem Steady.suffix {writes writes' : List WriteRet} (h : Steady writes)
    (hsuff : writes' <:+ writes) : Steady writes' :=
  ⟨fun hmem => h.1 (hsuff.subset hmem), fun hmem => h.2 (hsuff.subset hmem)⟩

theorem writeAll_steady {writes : List WriteRet} (h : Steady writes) :
    (writeAll d buf writes).1 = 0 ∧ (writeAll d buf writes).2.writes <:+ writes ∧
      (writeAll d buf writes).2.seeks = d.seeks := by
  induction writes generalizing d buf with
  | nil => exact ⟨rfl, List.suffix_refl [], rfl⟩
  | cons ret writes ih =>
    have hcons := List.suffix_cons ret writes
    unfold writeAll
    by_cases hnil : buf = []
    · rw [if_pos hnil]
      exact ⟨rfl, List.suffix_refl _, rfl⟩
    · rw [if_neg hnil]
      cases ret with
      | wrote w =>
        obtain ⟨hok, hsuff, hseeks⟩ := @ih ⟨pwrite d.file d.off (buf.take (min w buf.length)),
          d.off + min w buf.length, d.writes, d.seeks⟩ (buf.drop (min w buf.length))
          (h.suffix hcons)
        exact ⟨hok, hsuff.trans hcons, hseeks⟩
      | intr =>
        obtain ⟨hok, hsuff, hseeks⟩ := @ih d buf (h.suffix hcons)
        exact ⟨hok, hsuff.trans hcons, hseeks⟩
      | again => exact absurd List.mem_cons_self h.1
      | error => exact absurd List.mem_cons_self h.2

theorem ioqFlush_steady (h : Steady q.d.writes) : Used (ioqFlush q).1 q.d (ioqFlush q).2.d := by
  unfold ioqFlush
  by_cases hb : q.buf = []
  · rw [if_pos hb]
    exact ⟨rfl, List.suffix_refl _, rfl⟩
  · rw [if_neg hb]
    obtain ⟨hok, hsuff, hseeks⟩ := @writeAll_steady q.d q.buf _ h
    exact ⟨hok, hsuff, hseeks⟩

theorem ioqBlocks_steady (h : Steady q.d.writes) (fuel n : ℕ) (data : List UInt8) :
    Used (ioqBlocks fuel q n data).1 q.d (ioqBlocks fuel q n data).2.1.d := by
  induction fuel generalizing q n data with
  | zero => exact ⟨rfl, List.suffix_refl _, rfl⟩
  | succ fuel ih =>
    unfold ioqBlocks
    by_cases hfits : data.length ≤ q.n
    · rw [if_pos hfits]
      exact ⟨rfl, List.suffix_refl _, rfl⟩
    · obtain ⟨hok, hsuff, hseeks⟩ := @writeAll_steady q.d (data.take (min n data.length)) _ h
      rw [if_neg hfits]
      simp only [hok]
      have hrest := @ih ⟨(writeAll q.d (data.take (min n data.length)) q.d.writes).2, q.n, q.buf⟩
        (h.suffix hsuff) (min n data.length) (data.drop (min n data.length))
      exact ⟨hrest.ok, hrest.writes.trans hsuff, hrest.seeks.trans hseeks⟩

theorem ioqPut_steady (h : Steady q.d.writes) (data : List UInt8) :
    Used (ioqPut q data).1 q.d (ioqPut q data).2.d := by
  unfold ioqPut
  by_cases hfits : data.length ≤ q.n - q.buf.length
  · rw [if_pos hfits]
    exact ⟨rfl, List.suffix_refl _, rfl⟩
  · have hflush := ioqFlush_steady h
    have hblocks := ioqBlocks_steady (h.suffix hflush.writes) data.length (max q.n ioqBufsize) data
    rw [if_neg hfits]
    simp only [hflush.ok, hblocks.ok]
    exact ⟨rfl, hblocks.writes.trans hflush.writes, hblocks.seeks.trans hflush.seeks⟩

/-- A new file, on which nothing fails -/
def newFd : Fd := ⟨[], 0, [], []⟩

/-- No call on the descriptor fails, and every `write()` takes all it is given. -/
structure Smooth (q : Ioq) : Prop where
  writes : q.d.writes = []
  seeks : q.d.seeks = []

theorem Smooth.steady (h : Smooth q) : Steady q.d.writes := by
  rw [h.writes]
  exact ⟨List.not_mem_nil, List.not_mem_nil⟩

theorem Smooth.used {q' : Ioq} {r : ℤ} (h : Smooth q) (hused : Used r q.d q'.d) :
    r = 0 ∧ Smooth q' := by
  have hsuff := hused.writes
  rw [h.writes, List.suffix_nil] at hsuff
  exact ⟨hused.ok, hsuff, hused.seeks.trans h.seeks⟩

theorem ioqFlush_smooth (h : Smooth q) : (ioqFlush q).1 = 0 ∧ Smooth (ioqFlush q).2 :=
  h.used (ioqFlush_steady h.steady)

theorem ioqPut_smooth (h : Smooth q) (data : List UInt8) :
    (ioqPut q data).1 = 0 ∧ Smooth (ioqPut q data).2 :=
  h.used (ioqPut_steady h.steady data)

theorem puts_smooth (h : Smooth q) (pieces : List (List UInt8)) :
    (puts q pieces).1 = 0 ∧ Smooth (puts q pieces).2 := by
  induction pieces generalizing q with
  | nil => exact ⟨rfl, h⟩
  | cons data pieces ih =>
    obtain ⟨hret, hput⟩ := ioqPut_smooth h data
    unfold puts
    simp only [hret]
    exact ih hput

end Perp.IoqPut
