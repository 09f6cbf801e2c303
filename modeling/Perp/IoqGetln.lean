import Mathlib.Data.List.Basic
import Perp.Dynbufs
import Perp.IoqOut
import Perp.IoqStream

set_option autoImplicit false

/-!
# Lines from an input queue

`ioq_getln()`, which appends what it finds in the buffer of the queue to a `dynstr`.
-/
namespace Perp.IoqGetln
open IoqGet
open IoqStream (ioqPeek ioqSeek seek_faithful readOnce_cases take_eq_nil unread_of_empty)
open Dynbufs (Cells realloc realloc_keeps bufCopy bufCopy_met)
open IoqOut (toSize)

/-! ## The functions -/

/-- `cstr_len()`; none where the memory ends without a NUL. -/
def cstrLen : List UInt8 → Option ℕ
  | [] => none
  | c :: str => if c = 0 then some 0 else (cstrLen str).map (· + 1)

/-- `buf_ndx()`; none where the memory ends within the `n` bytes. -/
def bufNdx (ch : UInt8) : List UInt8 → ℕ → Option ℕ
  | [], n => if n = 0 then some 0 else none
  | c :: buf, n =>
    if n = 0 then some 0
    else if c = ch then some 0
    else (bufNdx ch buf (n - 1)).map (· + 1)

/-- `struct dynstr`. An `s` of `none` is NULL. -/
structure Dynstr where
  s : Option Cells
  n : ℕ
  k : ℕ
  deriving DecidableEq, Repr

/-- Whether the next `realloc()` succeeds, and those after it; all do when this is used up. -/
abbrev Mem := List Bool

def dynstrNeed (mem : Mem) (S : Dynstr) (need : ℕ) : ℤ × Dynstr × Mem :=
  let need := need + 1
  if S.s = none ∨ S.k < need then
    if mem.headD true then
      (0, { S with s := some (realloc (S.s.getD []) need), k := need }, mem.tail)
    else (-1, S, mem.tail)
  else (0, S, mem)

def dynstrGrow (mem : Mem) (S : Dynstr) (grow : ℕ) : ℤ × Dynstr × Mem :=
  let need := S.n + grow + 1
  if S.k < need then dynstrNeed mem S need else (0, S, mem)

/-- `buf_copy()` to `&S->s[i]` -/
def strPut (S : Dynstr) (i : ℕ) (src : Cells) : Option Dynstr :=
  (bufCopy ⟨S.s, S.k, S.n⟩ i src).map fun d => { S with s := d.buf }

def dynstrPutn (mem : Mem) (S : Dynstr) (str : List UInt8) (n : ℕ) : Option (ℤ × Dynstr × Mem) := do
  let grow ← cstrLen str
  let grow := if n < grow then n else grow
  let out := dynstrGrow mem S grow
  if out.1 = -1 then return (-1, out.2)
  let S ← strPut out.2.1 out.2.1.n ((str.take grow).map some)
  let S := { S with n := S.n + grow }
  let S ← strPut S S.n [some 0]
  return (0, S, out.2.2)

/-- A queue, what is still to be read, the string for the lines, and the memory for it -/
structure State where
  q : Ioq
  i : Input
  S : Dynstr
  mem : Mem
  deriving DecidableEq, Repr

/-- The loop of `ioq_getln()`. What `ioq_feed()` returns is put into a `size_t`. -/
def ioqGetln : ℕ → State → Option (ℤ × State)
  | 0, _ => none
  | fuel + 1, s =>
    let fed := ioqFeed s.q s.i
    let r := toSize fed.1
    let q := fed.2.1
    let i := fed.2.2
    if r = 0 then some (0, { s with q := q, i := i })
    else do
      let b := q.buf.drop q.n
      let ndx ← bufNdx 10 b r
      let n := if ndx < r then ndx + 1 else r
      let out ← dynstrPutn s.mem s.S b n
      if out.1 = -1 then return (-1, ⟨q, i, out.2.1, out.2.2⟩)
      let s := ⟨ioqSeek q n, i, out.2.1, out.2.2⟩
      if ndx < r then return (1, s)
      ioqGetln fuel s

/-! ## What they are for -/

def contents (S : Dynstr) : Cells := (S.s.getD []).take S.n

/-- A string is as its fields say. -/
structure Built (S : Dynstr) : Prop where
  size : S.k = (S.s.getD []).length
  used : S.s ≠ none → S.n < S.k
  null : S.s = none → S.n = 0

/-- A queue and a string that are well formed -/
structure Sound (s : State) : Prop where
  valid : Valid s.q
  small : s.q.buf.length < 2 ^ 63
  built : Built s.S

def State.unread (s : State) : List UInt8 := IoqGet.unread s.q s.i

/-- What a call is to do: it passes the bytes that it appends, and no others. They are a line
with its newline; or all that is left, without one; or an error ends them. -/
def Effect (s : State) (r : ℤ) (s' : State) : Prop :=
  ∃ gone reads allocs, s.unread = gone ++ s'.unread ∧
    contents s'.S = contents s.S ++ gone.map some ∧
    s.i.answers = reads ++ s'.i.answers ∧ s.mem = allocs ++ s'.mem ∧
    (r = 1 ∧ .error ∉ reads ∧ false ∉ allocs ∧ (∃ line, gone = line ++ [10] ∧ 10 ∉ line) ∨
      r = 0 ∧ .error ∉ reads ∧ false ∉ allocs ∧ 10 ∉ gone ∧ s'.unread = [] ∨
      r = -1 ∧ (.error ∈ reads ∨ false ∈ allocs) ∧ 10 ∉ gone)

/-- So many calls, one after the other, do what they are to do. -/
def Right : ℕ → State → Prop
  | 0, s => Sound s
  | k + 1, s => Sound s ∧ ∃ fuel r s', ioqGetln fuel s = some (r, s') ∧ Effect s r s' ∧ Right k s'

/-- What stands in the buffer of a queue, or is read into it when it is empty; none is an
error, and an empty list the end of the stream. -/
def chunk (q : Ioq) (i : Input) : Option (List UInt8) :=
  if q.p ≠ 0 then some (ioqPeek q q.p) else (readOnce i.rest q.n i.answers).1

/-- There is no memory for so many bytes more. -/
def Denied (mem : Mem) (S : Dynstr) (grow : ℕ) : Prop :=
  S.k < S.n + grow + 1 ∧ mem.headD true = false

/-- The stream has ended; or the buffer has a NUL, and a newline before the first, or else
there is no memory for the bytes before it. -/
def Terminated (s : State) : Prop :=
  ∃ data, chunk s.q s.i = some data ∧
    (data = [] ∨
      0 ∈ data ∧ (data.idxOf 10 < data.idxOf 0 ∨ Denied s.mem s.S (data.idxOf 0)))

/-- So it is before each of so many calls. -/
def AllTerminated : ℕ → State → Prop
  | 0, _ => True
  | k + 1, s => Terminated s ∧
    ∀ fuel r s', ioqGetln fuel s = some (r, s') → AllTerminated k s'

/-! ## The string -/

variable {S : Dynstr} {mem : Mem} {str data : List UInt8} {n k fuel : ℕ} {r : ℤ} {s s' : State}

theorem cstrLen_of_mem (h : 0 ∈ str) : cstrLen str = some (str.idxOf 0) := by
  induction str with
  | nil => cases h
  | cons c str ih =>
    by_cases hc : c = 0
    · rw [cstrLen, if_pos hc, hc, List.idxOf_cons_self]
    · have hmem : 0 ∈ str := (List.mem_cons.mp h).resolve_left (Ne.symm hc)
      rw [cstrLen, if_neg hc, ih hmem, List.idxOf_cons_ne _ hc]
      rfl

theorem cstrLen_of_not_mem (h : 0 ∉ str) : cstrLen str = none := by
  induction str with
  | nil => rfl
  | cons c str ih =>
    have hc : c ≠ 0 := fun hc => h (List.mem_cons.mpr (.inl hc.symm))
    rw [cstrLen, if_neg hc, ih (fun hmem => h (List.mem_cons_of_mem c hmem))]
    rfl

theorem bufNdx_length (ch : UInt8) (str : List UInt8) :
    bufNdx ch str str.length = some (str.idxOf ch) := by
  induction str with
  | nil => rfl
  | cons c str ih =>
    rw [List.length_cons, bufNdx, if_neg (Nat.succ_ne_zero str.length)]
    by_cases hc : c = ch
    · rw [if_pos hc, hc, List.idxOf_cons_self]
    · rw [if_neg hc, List.idxOf_cons_ne _ hc, Nat.add_sub_cancel, ih]
      rfl

theorem headD_false (h : mem.headD true = false) : mem = false :: mem.tail := by
  cases mem with
  | nil => cases h
  | cons got mem =>
    obtain rfl : got = false := h
    rfl

theorem grow_denied (h : Denied mem S n) : dynstrGrow mem S n = (-1, S, mem.tail) := by
  obtain ⟨hk, hmem⟩ := h
  have hneed : S.s = none ∨ S.k < S.n + n + 1 + 1 := .inr (Nat.lt_succ_of_lt hk)
  rw [dynstrGrow, if_pos hk, dynstrNeed, if_pos hneed, hmem]
  rfl

theorem grow_done (hS : Built S) (h : ¬ Denied mem S n) :
    ∃ (cells : Cells) (allocs mem' : Mem),
      dynstrGrow mem S n = (0, ⟨some cells, S.n, cells.length⟩, mem') ∧
      S.n + n + 1 ≤ cells.length ∧ cells.take S.n = contents S ∧
      mem = allocs ++ mem' ∧ false ∉ allocs := by
  by_cases hk : S.k < S.n + n + 1
  · have hgot : mem.headD true = true := by
      by_contra hmem
      exact h ⟨hk, Bool.eq_false_iff.mpr hmem⟩
    have hsmall : (S.s.getD []).length ≤ S.n + n + 1 + 1 := by
      rw [← hS.size]
      omega
    have hn : S.n ≤ (S.s.getD []).length := by
      rw [← hS.size]
      by_cases hs : S.s = none
      · rw [hS.null hs]
        exact Nat.zero_le _
      · exact Nat.le_of_lt (hS.used hs)
    obtain ⟨hlen, htake⟩ := realloc_keeps hsmall hn
    have hneed : S.s = none ∨ S.k < S.n + n + 1 + 1 := .inr (Nat.lt_succ_of_lt hk)
    refine ⟨realloc (S.s.getD []) (S.n + n + 1 + 1), mem.take 1, mem.tail, ?_, ?_, htake, ?_, ?_⟩
    · rw [dynstrGrow, if_pos hk, dynstrNeed, if_pos hneed, hgot, hlen]
      rfl
    · rw [hlen]
      omega
    · cases mem <;> rfl
    · cases mem with
      | nil => exact List.not_mem_nil
      | cons got mem =>
        obtain rfl : got = true := hgot
        simp
  · have hs : S.s ≠ none := by
      intro hs
      have hsize := hS.size
      rw [hs] at hsize
      exact hk (by rw [hsize]; exact Nat.succ_pos _)
    obtain ⟨cells, hcells⟩ := Option.ne_none_iff_exists'.mp hs
    have hsize := hS.size
    rw [hcells, Option.getD_some] at hsize
    refine ⟨cells, [], mem, ?_, ?_, ?_, rfl, List.not_mem_nil⟩
    · rw [dynstrGrow, if_neg hk, ← hsize, ← hcells]
    · omega
    · rw [contents, hcells]
      rfl

theorem putn_unterminated (h : 0 ∉ str) : dynstrPutn mem S str n = none := by
  rw [dynstrPutn, cstrLen_of_not_mem h]
  rfl

theorem putn_denied (hnul : 0 ∈ str) (h : Denied mem S (min n (str.idxOf 0))) :
    dynstrPutn mem S str n = some (-1, S, mem.tail) := by
  have hgrow : (if n < str.idxOf 0 then n else str.idxOf 0) = min n (str.idxOf 0) := by
    split <;> omega
  rw [dynstrPutn, cstrLen_of_mem hnul]
  simp only [Option.bind_eq_bind, Option.bind_some, hgrow, grow_denied h]
  rfl

/-- The bytes before the first NUL are appended, or `n` of them. -/
theorem putn_done (hS : Built S) (hnul : 0 ∈ str) (h : ¬ Denied mem S (min n (str.idxOf 0))) :
    ∃ S' allocs mem', dynstrPutn mem S str n = some (0, S', mem') ∧ Built S' ∧
      S'.n = S.n + min n (str.idxOf 0) ∧
      contents S' = contents S ++ (str.take (min n (str.idxOf 0))).map some ∧
      mem = allocs ++ mem' ∧ false ∉ allocs := by
  have hgrow : (if n < str.idxOf 0 then n else str.idxOf 0) = min n (str.idxOf 0) := by
    split <;> omega
  have hlt := List.idxOf_lt_length_of_mem hnul
  obtain ⟨cells, allocs, mem', hdone, hle, htake, hmem, hgot⟩ := grow_done hS h
  rw [dynstrPutn, cstrLen_of_mem hnul]
  simp only [Option.bind_eq_bind, Option.bind_some, hgrow, hdone]
  generalize hg : min n (str.idxOf 0) = grow at hle ⊢
  have hlen : ((str.take grow).map some).length = grow := by
    rw [List.length_map, List.length_take]
    omega
  have hfits : S.n + ((str.take grow).map some).length ≤ cells.length := by omega
  obtain ⟨cells₁, hcopy, hlen₁, htake₁, -⟩ :=
    bufCopy_met (n := cells.length) (p := S.n) hfits
  have hroom : S.n + grow + [some (0 : UInt8)].length ≤ cells₁.length := by
    rw [hlen₁]
    exact hle
  obtain ⟨cells₂, hnul₂, hlen₂, -, htake₂⟩ :=
    bufCopy_met (n := cells.length) (p := S.n + grow) hroom
  rw [hlen, htake] at htake₁
  refine ⟨⟨some cells₂, S.n + grow, cells.length⟩, allocs, mem', ?_, ?_, rfl, ?_, hmem, hgot⟩
  · simp only [strPut, hcopy, Option.map_some, Option.bind_some, hnul₂]
    rfl
  · refine ⟨(hlen₂.trans hlen₁).symm, fun _ => hle, fun hs => ?_⟩
    exact absurd hs (Option.some_ne_none cells₂)
  · change cells₂.take (S.n + grow) = _
    rw [htake₂, htake₁]

/-! ## The buffer -/

variable {q : Ioq} {i : Input}

theorem readOnce_used (rest : List UInt8) (want : ℕ) (answers : List ReadAns) :
    ∃ reads, answers = reads ++ (readOnce rest want answers).2.answers ∧
      ((readOnce rest want answers).1 ≠ none → .error ∉ reads) := by
  induction answers with
  | nil => exact ⟨[], rfl, fun _ => List.not_mem_nil⟩
  | cons a answers ih =>
    cases a with
    | intr =>
      obtain ⟨reads, hsplit, hok⟩ := ih
      refine ⟨.intr :: reads, congrArg (.intr :: ·) hsplit, fun hne hmem => ?_⟩
      exact hok hne ((List.mem_cons.mp hmem).resolve_left (by simp))
    | error => exact ⟨[.error], rfl, fun hne => absurd rfl hne⟩
    | chunk k => exact ⟨[.chunk k], rfl, fun _ => by simp⟩

theorem Valid.full (hv : Valid q) (hp : q.p = 0) : q.n = q.buf.length := by
  have hroom := hv.room
  omega

theorem feed_failed (h : chunk q i = none) : q.p = 0 ∧ ∃ i', ioqFeed q i = (-1, q, i') := by
  by_cases hp : q.p = 0
  · rw [chunk, if_neg (not_not.mpr hp)] at h
    refine ⟨hp, (readOnce i.rest q.n i.answers).2, ?_⟩
    rw [ioqFeed, if_neg (not_not.mpr hp)]
    generalize readOnce i.rest q.n i.answers = out at h
    obtain ⟨data, i'⟩ := out
    obtain rfl : data = none := h
    rfl
  · rw [chunk, if_pos hp] at h
    cases h

/-- `ioq_feed()` has succeeded: the chunk is now what stands in the buffer. -/
structure Fed (q : Ioq) (i : Input) (data : List UInt8) (reads : List ReadAns) (q' : Ioq)
    (i' : Input) : Prop where
  call : ioqFeed q i = ((data.length : ℤ), q', i')
  valid : Valid q'
  size : q'.buf.length = q.buf.length
  buffered : q'.buf.drop q'.n = data
  count : q'.p = data.length
  stream : IoqGet.unread q i = IoqGet.unread q' i'
  answers : i.answers = reads ++ i'.answers
  quiet : .error ∉ reads
  ended : data = [] → i'.rest = []

theorem fed_waiting (hv : Valid q) (i : Input) (hp : q.p ≠ 0) : Fed q i (q.buf.drop q.n) [] q i := by
  have hlen : (q.buf.drop q.n).length = q.p := by
    have hroom := hv.room
    rw [List.length_drop]
    omega
  refine ⟨?_, hv, rfl, rfl, hlen.symm, rfl, rfl, List.not_mem_nil, ?_⟩
  · rw [ioqFeed, if_pos hp, hlen]
  · intro hnil
    rw [hnil] at hlen
    exact absurd hlen.symm hp

theorem fed_ended {m : ℕ} {reads left : List ReadAns} (hv : Valid q) (hp : q.p = 0)
    (hread : readOnce i.rest q.n i.answers = (some (i.rest.take m), ⟨i.rest.drop m, left⟩))
    (hend : i.rest = []) (hused : i.answers = reads ++ left) (hquiet : .error ∉ reads) :
    Fed q i [] reads q ⟨i.rest.drop m, left⟩ := by
  have hrest : i.rest.drop m = [] := by rw [hend, List.drop_nil]
  refine ⟨?_, hv, rfl, ?_, hp, ?_, hused, hquiet, fun _ => hrest⟩
  · rw [ioqFeed, if_neg (not_not.mpr hp), hread]
    simp [hend]
  · rw [Valid.full hv hp, List.drop_length]
  · rw [unread_of_empty i hp, unread_of_empty _ hp, hrest, hend]

theorem fed_read {m : ℕ} {reads left : List ReadAns} (hv : Valid q) (hp : q.p = 0)
    (hread : readOnce i.rest q.n i.answers = (some (i.rest.take m), ⟨i.rest.drop m, left⟩))
    (hle : (i.rest.take m).length ≤ q.n) (hne : i.rest.take m ≠ [])
    (hused : i.answers = reads ++ left) (hquiet : .error ∉ reads) :
    Fed q i (i.rest.take m) reads (fed q (i.rest.take m)) ⟨i.rest.drop m, left⟩ := by
  have hn := Valid.full hv hp
  have hval := fed_valid hv hp hle
  have hdrop := fed_drop hn hle
  refine ⟨?_, hval, ?_, hdrop, rfl, ?_, hused, hquiet, fun h => absurd h hne⟩
  · rw [ioqFeed, if_neg (not_not.mpr hp), hread]
    simp only [if_neg hne, fed]
  · have hroom := hval.room
    change q.n - (i.rest.take m).length + (i.rest.take m).length = _ at hroom
    omega
  · rw [unread_of_empty i hp, IoqGet.unread]
    change i.rest = ((fed q (i.rest.take m)).buf.drop (q.n - (i.rest.take m).length)).take
      (i.rest.take m).length ++ i.rest.drop m
    rw [hdrop, List.take_length, List.take_append_drop]

theorem feed_chunk (hv : Valid q) (h : chunk q i = some data) :
    ∃ reads q' i', Fed q i data reads q' i' := by
  by_cases hp : q.p = 0
  · rw [chunk, if_neg (not_not.mpr hp)] at h
    have hpos : 0 < q.n := by
      rw [Valid.full hv hp]
      exact hv.pos
    obtain ⟨left, -, ⟨-, hread⟩ | ⟨m, hm, hmn, hread⟩⟩ := readOnce_cases i.rest i.answers hpos
    · rw [hread] at h
      cases h
    · obtain ⟨reads, hused, hquiet⟩ := readOnce_used i.rest q.n i.answers
      rw [hread] at h hused hquiet
      obtain rfl : i.rest.take m = data := Option.some.inj h
      have hle : (i.rest.take m).length ≤ q.n := by
        rw [List.length_take]
        omega
      have hread' := hquiet (Option.some_ne_none _)
      by_cases hnil : i.rest.take m = []
      · rw [hnil]
        exact ⟨reads, q, _, fed_ended hv hp hread (take_eq_nil hm hnil) hused hread'⟩
      · exact ⟨reads, _, _, fed_read hv hp hread hle hnil hused hread'⟩
  · have hlen : (q.buf.drop q.n).length = q.p := by
      have hroom := hv.room
      rw [List.length_drop]
      omega
    rw [chunk, if_pos hp, ioqPeek, ← hlen, List.take_length] at h
    obtain rfl := Option.some.inj h
    exact ⟨[], q, i, fed_waiting hv i hp⟩

/-- How far a call goes in a chunk: behind its first newline, or to its end -/
def passed (data : List UInt8) : ℕ :=
  if data.idxOf 10 < data.length then data.idxOf 10 + 1 else data.length

theorem passed_le (data : List UInt8) : passed data ≤ data.length := by
  unfold passed
  split <;> omega

theorem getln_failed (hs : Sound s) (h : chunk s.q s.i = none) : ioqGetln fuel s = none := by
  cases fuel with
  | zero => rfl
  | succ fuel =>
    obtain ⟨hp, i', hfeed⟩ := feed_failed h
    have hempty : s.q.buf.drop s.q.n = [] := by rw [Valid.full hs.valid hp, List.drop_length]
    have hne : toSize (-1) ≠ 0 := by decide
    rw [ioqGetln, hfeed]
    simp only [if_neg hne, hempty, bufNdx]
    rfl

theorem getln_ended (hs : Sound s) (h : chunk s.q s.i = some []) :
    ∃ s', (∀ fuel, ioqGetln (fuel + 1) s = some (0, s')) ∧ Sound s' ∧ Effect s 0 s' := by
  obtain ⟨reads, q, i, hfed⟩ := feed_chunk hs.valid h
  have hrest : IoqGet.unread q i = [] := by rw [unread_of_empty i hfed.count, hfed.ended rfl]
  refine ⟨{ s with q := q, i := i }, ?_, ⟨hfed.valid, hfed.size ▸ hs.small, hs.built⟩, ?_⟩
  · intro fuel
    rw [ioqGetln, hfed.call]
    rfl
  · refine ⟨[], reads, [], hfed.stream, ?_, hfed.answers, rfl, ?_⟩
    · exact (List.append_nil _).symm
    · exact .inr (.inl ⟨rfl, hfed.quiet, List.not_mem_nil, List.not_mem_nil, hrest⟩)

/-- One turn on a chunk, by what `dynstr_putn()` does. -/
theorem getln_turn (hs : Sound s) (h : chunk s.q s.i = some data) (hne : data ≠ []) :
    ∃ reads q i, Fed s.q s.i data reads q i ∧ Valid (ioqSeek q (passed data)) ∧
      s.unread = data.take (passed data) ++ IoqGet.unread (ioqSeek q (passed data)) i ∧
      ∀ fuel, ioqGetln (fuel + 1) s = (dynstrPutn s.mem s.S data (passed data)).bind fun out =>
        if out.1 = -1 then some (-1, ⟨q, i, out.2.1, out.2.2⟩)
        else if data.idxOf 10 < data.length then
          some (1, ⟨ioqSeek q (passed data), i, out.2.1, out.2.2⟩)
        else ioqGetln fuel ⟨ioqSeek q (passed data), i, out.2.1, out.2.2⟩ := by
  obtain ⟨reads, q, i, hfed⟩ := feed_chunk hs.valid h
  have hle : passed data ≤ q.p := by
    rw [hfed.count]
    exact passed_le data
  have hseek := @seek_faithful ⟨q, i⟩ hfed.valid (passed data) hle none (fun r hr => nomatch hr)
  have hsmall : data.length < 2 ^ 63 := by
    have hroom := hfed.valid.room
    have hcount := hfed.count
    have hsize := hfed.size
    have hbound := hs.small
    omega
  have hsize : toSize (data.length : ℤ) = data.length := by
    rw [toSize]
    omega
  have hpos : ¬ data.length = 0 := fun hzero => hne (List.length_eq_zero_iff.mp hzero)
  refine ⟨reads, q, i, hfed, hseek.valid, ?_, ?_⟩
  · have hpeek : ioqPeek q (passed data) = data.take (passed data) := by
      rw [ioqPeek, hfed.buffered]
    rw [State.unread, hfed.stream, ← hpeek]
    exact hseek.stream
  · intro fuel
    rw [ioqGetln, hfed.call]
    simp only [hsize, if_neg hpos, hfed.buffered, bufNdx_length, Option.bind_eq_bind,
      Option.bind_some]
    rfl

/-! ## A call -/

theorem getln_unterminated (hs : Sound s) (h : chunk s.q s.i = some data) (hne : data ≠ [])
    (hnul : 0 ∉ data) : ioqGetln fuel s = none := by
  cases fuel with
  | zero => rfl
  | succ fuel =>
    obtain ⟨reads, q, i, -, -, -, hturn⟩ := getln_turn hs h hne
    rw [hturn, putn_unterminated hnul]
    rfl

theorem getln_denied (hs : Sound s) (h : chunk s.q s.i = some data) (hnul : 0 ∈ data)
    (hmem : Denied s.mem s.S (min (passed data) (data.idxOf 0))) :
    ∃ s', (∀ fuel, ioqGetln (fuel + 1) s = some (-1, s')) ∧ Sound s' ∧ Effect s (-1) s' := by
  have hne : data ≠ [] := List.ne_nil_of_mem hnul
  obtain ⟨reads, q, i, hfed, -, -, hturn⟩ := getln_turn hs h hne
  refine ⟨⟨q, i, s.S, s.mem.tail⟩, ?_, ⟨hfed.valid, hfed.size ▸ hs.small, hs.built⟩, ?_⟩
  · intro fuel
    rw [hturn, putn_denied hnul hmem]
    rfl
  · refine ⟨[], reads, [false], hfed.stream, (List.append_nil _).symm, hfed.answers,
      headD_false hmem.2, ?_⟩
    exact .inr (.inr ⟨rfl, .inr List.mem_cons_self, List.not_mem_nil⟩)

/-- Where there is a NUL and the memory, a turn appends what stands before the NUL and the place
up to which it goes. -/
theorem getln_done (hs : Sound s) (h : chunk s.q s.i = some data) (hnul : 0 ∈ data)
    (hmem : ¬ Denied s.mem s.S (min (passed data) (data.idxOf 0))) :
    ∃ s' reads allocs, Sound s' ∧ s.unread = data.take (passed data) ++ s'.unread ∧
      s'.S.n = s.S.n + min (passed data) (data.idxOf 0) ∧
      contents s'.S = contents s.S ++ (data.take (min (passed data) (data.idxOf 0))).map some ∧
      s.i.answers = reads ++ s'.i.answers ∧ .error ∉ reads ∧
      s.mem = allocs ++ s'.mem ∧ false ∉ allocs ∧
      ∀ fuel, ioqGetln (fuel + 1) s =
        if data.idxOf 10 < data.length then some (1, s') else ioqGetln fuel s' := by
  have hne : data ≠ [] := List.ne_nil_of_mem hnul
  obtain ⟨reads, q, i, hfed, hvalid, hunread, hturn⟩ := getln_turn hs h hne
  obtain ⟨S, allocs, mem, hputn, hbuilt, hn, hcontents, hallocs, hgot⟩ :=
    putn_done hs.built hnul hmem
  refine ⟨⟨ioqSeek q (passed data), i, S, mem⟩, reads, allocs,
    ⟨hvalid, hfed.size ▸ hs.small, hbuilt⟩, hunread, hn, hcontents, hfed.answers, hfed.quiet,
    hallocs, hgot, ?_⟩
  intro fuel
  rw [hturn, hputn]
  rfl

theorem take_line (h : 10 ∈ data) :
    data.take (data.idxOf 10 + 1) = data.take (data.idxOf 10) ++ [10] ∧
      10 ∉ data.take (data.idxOf 10) := by
  have hlt := List.idxOf_lt_length_of_mem h
  constructor
  · rw [List.take_add_one, List.getElem?_eq_getElem hlt, List.getElem_idxOf]
    rfl
  · rw [List.mem_take_iff_idxOf_lt h]
    exact Nat.lt_irrefl _

/-- Where no newline stands before the first NUL, the turn goes past that. -/
theorem idxOf_lt_passed (hnul : 0 ∈ data) (hline : ¬ data.idxOf 10 < data.idxOf 0) :
    data.idxOf 0 < passed data := by
  have hlt := List.idxOf_lt_length_of_mem hnul
  by_cases hfound : data.idxOf 10 < data.length
  · have hne : data.idxOf 10 ≠ data.idxOf 0 := by
      intro heq
      have h10 : data[data.idxOf 10] = 10 := List.getElem_idxOf hfound
      have h0 : data[data.idxOf 0] = 0 := List.getElem_idxOf hlt
      simp only [heq, h0] at h10
      exact absurd h10 (by decide)
    rw [passed, if_pos hfound]
    omega
  · rw [passed, if_neg hfound]
    exact hlt

/-- A call on a terminated chunk does what it is to do, in one turn. -/
theorem getln_terminated (hs : Sound s) (h : Terminated s) :
    ∃ r s', (∀ fuel, ioqGetln (fuel + 1) s = some (r, s')) ∧ Sound s' ∧ Effect s r s' := by
  obtain ⟨data, hchunk, rfl | ⟨hnul, hends⟩⟩ := h
  · exact ⟨0, getln_ended hs hchunk⟩
  · by_cases hmem : Denied s.mem s.S (min (passed data) (data.idxOf 0))
    · exact ⟨-1, getln_denied hs hchunk hnul hmem⟩
    · have hlt := List.idxOf_lt_length_of_mem hnul
      have hline : data.idxOf 10 < data.idxOf 0 := by
        by_contra hline
        rw [Nat.min_eq_right (idxOf_lt_passed hnul hline).le] at hmem
        exact hmem (hends.resolve_left hline)
      have hfound := hline.trans hlt
      have hpassed : passed data = data.idxOf 10 + 1 := if_pos hfound
      obtain ⟨hsplit, hfirst⟩ := take_line (List.idxOf_lt_length_iff.mp hfound)
      obtain ⟨s', reads, allocs, hs', hunread, -, hcontents, hreads, hok, hallocs, hgot, hloop⟩ :=
        getln_done hs hchunk hnul hmem
      rw [hpassed] at hunread
      rw [hpassed, Nat.min_eq_left hline] at hcontents
      refine ⟨1, s', ?_, hs', ?_⟩
      · intro fuel
        rw [hloop, if_pos hfound]
      · exact ⟨data.take (data.idxOf 10 + 1), reads, allocs, hunread, hcontents, hreads, hallocs,
          .inl ⟨rfl, hok, hgot, data.take (data.idxOf 10), hsplit, hfirst⟩⟩

theorem Built.length (hS : Built S) : (contents S).length = S.n := by
  have hle : S.n ≤ S.k := by
    by_cases hs : S.s = none
    · rw [hS.null hs]
      exact Nat.zero_le _
    · exact (hS.used hs).le
  rw [contents, List.length_take, ← hS.size]
  omega

/-- What a call is to do leaves as many bytes in the string and before it, taken together. -/
theorem Effect.length (hs : Sound s) (hs' : Sound s') (h : Effect s r s') :
    s'.S.n + s'.unread.length = s.S.n + s.unread.length := by
  obtain ⟨gone, reads, allocs, hunread, hcontents, -⟩ := h
  have hlen := congrArg List.length hcontents
  rw [List.length_append, List.length_map, hs.built.length, hs'.built.length] at hlen
  rw [hunread, List.length_append]
  omega

theorem getln_done_length {s₁ : State} (hunread : s.unread = data.take (passed data) ++ s₁.unread)
    (hn : s₁.S.n = s.S.n + min (passed data) (data.idxOf 0)) :
    s₁.S.n + s₁.unread.length + (passed data - data.idxOf 0) = s.S.n + s.unread.length := by
  have hle := passed_le data
  rw [hunread, List.length_append, List.length_take, hn]
  omega

/-- Nothing is appended that is not passed. -/
theorem getln_length (hs : Sound s) (h : ioqGetln fuel s = some (r, s')) :
    s'.S.n + s'.unread.length ≤ s.S.n + s.unread.length := by
  induction fuel generalizing s with
  | zero => cases h
  | succ fuel ih =>
    cases hchunk : chunk s.q s.i with
    | none =>
      rw [getln_failed hs hchunk] at h
      cases h
    | some data =>
      by_cases hnil : data = []
      · rw [hnil] at hchunk
        obtain ⟨t, hloop, ht, heffect⟩ := getln_ended hs hchunk
        rw [hloop] at h
        cases h
        exact (heffect.length hs ht).le
      · by_cases hnul : 0 ∈ data
        · by_cases hmem : Denied s.mem s.S (min (passed data) (data.idxOf 0))
          · obtain ⟨t, hloop, ht, heffect⟩ := getln_denied hs hchunk hnul hmem
            rw [hloop] at h
            cases h
            exact (heffect.length hs ht).le
          · obtain ⟨t, -, -, ht, hunread, hn, -, -, -, -, -, hloop⟩ := getln_done hs hchunk hnul hmem
            have hturn := getln_done_length hunread hn
            rw [hloop] at h
            by_cases hfound : data.idxOf 10 < data.length
            · rw [if_pos hfound] at h
              cases h
              omega
            · rw [if_neg hfound] at h
              have hrest := ih ht h
              omega
        · rw [getln_unterminated hs hchunk hnil hnul] at h
          cases h

/-- On any other chunk a call leaves the memory, or loses a byte. -/
theorem terminated_of_effect (hs : Sound s) (hs' : Sound s')
    (h : ioqGetln fuel s = some (r, s')) (heffect : Effect s r s') : Terminated s := by
  cases fuel with
  | zero => cases h
  | succ fuel =>
    cases hchunk : chunk s.q s.i with
    | none =>
      rw [getln_failed hs hchunk] at h
      cases h
    | some data =>
      by_cases hnil : data = []
      · exact ⟨data, hchunk, .inl hnil⟩
      · by_cases hnul : 0 ∈ data
        · by_contra hterm
          have hends := fun hends => hterm ⟨data, hchunk, .inr ⟨hnul, hends⟩⟩
          obtain ⟨hline, hmem⟩ := not_or.mp hends
          have hpast := idxOf_lt_passed hnul hline
          rw [← Nat.min_eq_right hpast.le] at hmem
          obtain ⟨t, -, -, ht, hunread, hn, -, -, -, -, -, hloop⟩ := getln_done hs hchunk hnul hmem
          have hturn := getln_done_length hunread hn
          have hsame := heffect.length hs hs'
          rw [hloop] at h
          by_cases hfound : data.idxOf 10 < data.length
          · rw [if_pos hfound] at h
            cases h
            omega
          · rw [if_neg hfound] at h
            have hrest := getln_length ht h
            omega
        · rw [getln_unterminated hs hchunk hnil hnul] at h
          cases h

/-! ## Calls one after the other -/

theorem Right.sound (h : Right k s) : Sound s := by
  cases k with
  | zero => exact h
  | succ k => exact h.1

theorem right_iff (hs : Sound s) (k : ℕ) : Right k s ↔ AllTerminated k s := by
  induction k generalizing s with
  | zero => exact iff_of_true hs trivial
  | succ k ih =>
    rw [Right, AllTerminated]
    constructor
    · rintro ⟨-, fuel, r, s', hcall, heffect, hright⟩
      have hterm := terminated_of_effect hs hright.sound hcall heffect
      refine ⟨hterm, ?_⟩
      intro fuel' r' t ht
      obtain ⟨r₁, s₁, hcalls, -⟩ := getln_terminated hs hterm
      cases fuel with
      | zero => cases hcall
      | succ fuel =>
        cases fuel' with
        | zero => cases ht
        | succ fuel' =>
          rw [hcalls] at hcall ht
          cases hcall
          cases ht
          exact (ih hright.sound).mp hright
    · rintro ⟨hterm, hrest⟩
      obtain ⟨r, s', hcalls, hs', heffect⟩ := getln_terminated hs hterm
      exact ⟨hs, 1, r, s', hcalls 0, heffect, (ih hs').mpr (hrest 1 r s' (hcalls 0))⟩

def start (len : ℕ) (i : Input) (mem : Mem) : State := ⟨ioqInit len, i, ⟨none, 0, 0⟩, mem⟩

theorem start_sound {len : ℕ} (hpos : 0 < len) (hsmall : len < 2 ^ 63) (i : Input) (mem : Mem) :
    Sound (start len i mem) := by
  refine ⟨valid_init hpos, ?_, ⟨rfl, fun h => absurd rfl h, fun _ => rfl⟩⟩
  change (List.replicate len (0 : UInt8)).length < 2 ^ 63
  rw [List.length_replicate]
  exact hsmall

/-- Calls split a stream into its lines, with nothing lost, exactly when each finds the end of
the stream, or a newline and behind it a NUL in the first chunk it looks at. -/
theorem ioq_getln_lines (s : {s : State // Sound s}) (k : ℕ) :
    Right k s.val ↔ AllTerminated k s.val :=
  right_iff s.property k

/-- Of a line with a NUL in it, what follows that is lost. -/
theorem ioq_getln_loses : ¬ ∀ (s : {s : State // Sound s}) (k : ℕ), Right k s.val := by
  intro h
  have hs := start_sound (Nat.succ_pos 3) (by decide) ⟨[97, 0, 98, 10], []⟩ []
  obtain ⟨⟨data, hchunk, hends⟩, -⟩ := (right_iff hs 1).mp (h ⟨_, hs⟩ 1)
  obtain rfl : [97, 0, 98, 10] = data := Option.some.inj hchunk
  obtain hnil | ⟨-, hline | hdenied⟩ := hends
  · exact absurd hnil (by decide)
  · exact absurd hline (by decide)
  · exact absurd hdenied.2 (by decide)

end Perp.IoqGetln
