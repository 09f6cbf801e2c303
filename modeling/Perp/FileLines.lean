import Perp.IoqGetln
import Perp.Refusal

set_option autoImplicit false

/-!
# The lines of a file

The loop of `do_argfile()` and of `do_envfile()`: each line is read into one `dynstr`, and worked
on in its memory. `dynstr_putn()` looks for a NUL in what `ioq_getln()` gives it, and so reads on
in the memory behind the buffer of the queue.
-/
namespace Perp.FileLines
open Dynbufs (Cells bufCopy bufCopy_met)
open IoqGet (Ioq Input ReadAns Valid ioqFeed ioqInit readOnce readOnce_spec)
open IoqGetln hiding ioqGetln
open IoqOut (toSize)
open IoqStream (ioqPeek ioqSeek seek_faithful)
open Refusal

/-! ## The functions -/

/-- `ioq_getln()`, with the memory behind the buffer of the queue -/
def ioqGetln (behind : List UInt8) : ℕ → State → Option (ℤ × State)
  | 0, _ => none
  | fuel + 1, s =>
    let fed := ioqFeed s.q s.i
    let r := toSize fed.1
    let q := fed.2.1
    let i := fed.2.2
    if r = 0 then some (0, { s with q := q, i := i })
    else do
      let b := q.buf.drop q.n ++ behind
      let ndx ← bufNdx 10 b r
      let n := if ndx < r then ndx + 1 else r
      let out ← dynstrPutn s.mem s.S b n
      if out.1 = -1 then return (-1, ⟨q, i, out.2.1, out.2.2⟩)
      let s := ⟨ioqSeek q n, i, out.2.1, out.2.2⟩
      if ndx < r then return (1, s)
      ioqGetln behind fuel s

/-- `dynstr_CLEAR()` -/
def dynstrClear (S : Dynstr) : Option Dynstr :=
  let S := { S with n := 0 }
  if S.k ≠ 0 then strPut S 0 [some 0] else some S

/-- What has been stored in the memory of a string, from its start -/
def held (S : Dynstr) : List UInt8 := ((S.s.getD []).takeWhile Option.isSome).filterMap id

/-- The string with its memory as a function that works on it has left it -/
def putBack (S : Dynstr) (b : List UInt8) : Dynstr :=
  { S with s := S.s.map fun cells => b.map some ++ cells.drop b.length }

section
variable {ε τ : Type}

/-- What is done with a line in its memory: this memory, the answers of `malloc()` that are left,
and what has been made of the lines -/
abbrev DoLine (ε τ : Type) := List UInt8 → Mem → τ → Res ε (List UInt8 × Mem × τ)

/-- `while(!eof)`. A call of `ioq_getln()` takes a turn for each read, and one for the end. -/
def readLoop (behind : List UInt8) (readErr : τ → ε) (doLine : DoLine ε τ) :
    ℕ → State → τ → Res ε (Mem × τ)
  | 0, _, _ => .outside
  | fuel + 1, s, t =>
    Res.reading (dynstrClear s.S) fun S =>
      Res.reading (ioqGetln behind (s.unread.length + 1) { s with S := S }) fun out =>
        let s := out.2
        if out.1 = -1 then .stopped (readErr t)
        else if out.1 = 0 ∧ (s.S.s = none ∨ s.S.n = 0) then .ok (s.mem, t)
        else
          (doLine (held s.S) s.mem t).bind fun done =>
            if out.1 = 0 then .ok done.2
            else readLoop behind readErr doLine fuel
              { s with S := putBack s.S done.1, mem := done.2.1 } done.2.2

/-- All lines that a run works on are as `P` says, in their memory. -/
def AllLines (behind : List UInt8) (doLine : DoLine ε τ) (P : List UInt8 → Prop) :
    ℕ → State → τ → Prop
  | 0, _, _ => True
  | fuel + 1, s, t => ∀ S out, dynstrClear s.S = some S →
      ioqGetln behind (s.unread.length + 1) { s with S := S } = some out → out.1 ≠ -1 →
      ¬ (out.1 = 0 ∧ (out.2.S.s = none ∨ out.2.S.n = 0)) →
      P (held out.2.S) ∧ ∀ done, doLine (held out.2.S) out.2.mem t = .ok done → out.1 ≠ 0 →
        AllLines behind doLine P fuel
          { out.2 with S := putBack out.2.S done.1, mem := done.2.1 } done.2.2

end

/-! ## The string -/

/-- There is a NUL behind the string. -/
def Ended (S : Dynstr) : Prop := ∃ cells, S.s = some cells ∧ cells[S.n]? = some (some 0)

variable {S S' : Dynstr} {mem mem' : Mem} {str data behind line rest : List UInt8} {n fuel : ℕ}
  {s s' : State} {r : ℤ}

theorem contents_nil (h : S.n = 0) : contents S = [] := by rw [contents, h, List.take_zero]

theorem strPut_nul {i : ℕ} (h : strPut S i [some 0] = some S') :
    S'.n = S.n ∧ ∃ cells, S'.s = some cells ∧ cells[i]? = some (some 0) := by
  obtain ⟨d, hd, rfl⟩ := Option.map_eq_some_iff.mp h
  rw [bufCopy] at hd
  split at hd
  · next hroom =>
    obtain rfl := Option.some.inj hd
    have hlt : i < (S.s.getD []).length := hroom
    have hplace : ((S.s.getD []).take i).length = i := by
      rw [List.length_take]
      omega
    cases hs : S.s with
    | none =>
      rw [hs] at hlt
      exact absurd hlt (Nat.not_lt_zero i)
    | some cells =>
      rw [hs] at hplace
      refine ⟨rfl, _, rfl, ?_⟩
      rw [List.append_assoc, List.getElem?_append_right (Nat.le_of_eq hplace), hplace, Nat.sub_self]
      rfl
  · cases hd

theorem putn_ended (h : dynstrPutn mem S str n = some (0, S', mem')) : Ended S' := by
  rw [dynstrPutn] at h
  simp only [Option.bind_eq_bind] at h
  obtain ⟨grow, -, h⟩ := Option.bind_eq_some_iff.mp h
  generalize (if n < grow then n else grow) = len at h
  by_cases hfail : (dynstrGrow mem S len).1 = -1
  · rw [if_pos hfail] at h
    cases h
  · rw [if_neg hfail] at h
    obtain ⟨S₁, -, h⟩ := Option.bind_eq_some_iff.mp h
    obtain ⟨S₂, hput, h⟩ := Option.bind_eq_some_iff.mp h
    obtain ⟨hn, cells, hs, hnul⟩ := strPut_nul hput
    cases h
    refine ⟨cells, hs, ?_⟩
    rw [hn]
    exact hnul

theorem clear_eq (hS : Built S) :
    ∃ S', dynstrClear S = some S' ∧ Built S' ∧ S'.n = 0 ∧ (S'.s = none ∨ Ended S') := by
  rw [dynstrClear]
  by_cases hk : S.k ≠ 0
  · have hsize := hS.size
    cases hs : S.s with
    | none =>
      rw [hs] at hsize
      exact absurd hsize hk
    | some cells =>
      rw [hs, Option.getD_some] at hsize
      have hroom : 0 + [some (0 : UInt8)].length ≤ cells.length := by
        rw [← hsize]
        exact Nat.pos_of_ne_zero hk
      obtain ⟨cells', hcopy, hlen, -⟩ := bufCopy_met (n := S.k) (p := 0) hroom
      have hput : strPut { S with s := some cells, n := 0 } 0 [some 0] = some ⟨some cells', 0, S.k⟩ := by
        rw [strPut, hcopy]
        rfl
      obtain ⟨-, c, hc, hnul⟩ := strPut_nul hput
      rw [if_pos hk]
      refine ⟨_, hput, ⟨?_, fun _ => Nat.pos_of_ne_zero hk, fun _ => rfl⟩, rfl, .inr ⟨c, hc, hnul⟩⟩
      rw [hsize]
      exact hlen.symm
  · have hs : S.s = none := by
      by_contra hs
      exact absurd (hS.used hs) (by omega)
    rw [if_neg hk]
    exact ⟨_, rfl, ⟨hS.size, fun h => absurd hs h, fun _ => rfl⟩, rfl, .inl hs⟩

theorem held_line (hS : contents S = line.map some) (hnul : Ended S) :
    ∃ stale, held S = line ++ 0 :: stale := by
  obtain ⟨cells, hs, hcell⟩ := hnul
  obtain ⟨hlt, hget⟩ := List.getElem?_eq_some_iff.mp hcell
  have hsplit : cells = line.map some ++ some 0 :: cells.drop (S.n + 1) := by
    have htake : cells.take S.n = line.map some := by
      rw [← hS, contents, hs]
      rfl
    rw [← htake, ← hget, ← List.drop_eq_getElem_cons hlt, List.take_append_drop]
  refine ⟨((cells.drop (S.n + 1)).takeWhile Option.isSome).filterMap id, ?_⟩
  have hsome : ∀ c ∈ line.map some, Option.isSome c = true := by
    intro c hc
    obtain ⟨x, -, rfl⟩ := List.mem_map.mp hc
    rfl
  have hid : (line.map some).filterMap id = line := by
    rw [List.filterMap_map]
    exact List.filterMap_some
  rw [held, hs, Option.getD_some, hsplit, List.takeWhile_append_of_pos hsome,
    List.takeWhile_cons_of_pos rfl, List.filterMap_append, hid, ← hsplit]
  rfl

theorem held_length (hS : Built S) : (held S).length ≤ S.k := by
  rw [hS.size, held]
  calc (((S.s.getD []).takeWhile Option.isSome).filterMap id).length
      ≤ ((S.s.getD []).takeWhile Option.isSome).length := List.length_filterMap_le _ _
    _ ≤ (S.s.getD []).length := (List.takeWhile_sublist _).length_le

theorem putBack_built {b : List UInt8} (hS : Built S) (hb : b.length = (held S).length) :
    Built (putBack S b) := by
  have hle := held_length hS
  have hsize := hS.size
  refine ⟨?_, ?_, ?_⟩
  · rw [putBack]
    cases hs : S.s with
    | none =>
      rw [hs] at hsize
      exact hsize
    | some cells =>
      rw [hs, Option.getD_some] at hsize
      simp only [Option.map_some, Option.getD_some, List.length_append, List.length_map, List.length_drop]
      omega
  · intro hs
    apply hS.used
    intro hnone
    rw [putBack, hnone] at hs
    exact hs rfl
  · intro hs
    exact hS.null (Option.map_eq_none_iff.mp hs)

/-! ## A call of `ioq_getln()` -/

variable {q : Ioq} {i : Input}

/-- A queue and a string as the loop finds them: well formed, and without errors to be read -/
structure Ready (s : State) : Prop where
  sound : Sound s
  quiet : .error ∉ s.i.answers

theorem getln_nil (fuel : ℕ) (s : State) : ioqGetln [] fuel s = IoqGetln.ioqGetln fuel s := by
  induction fuel generalizing s with
  | zero => rfl
  | succ fuel ih =>
    rw [ioqGetln, IoqGetln.ioqGetln, List.append_nil]
    simp only [ih]

theorem bufNdx_append (ch : UInt8) (data behind : List UInt8) :
    bufNdx ch (data ++ behind) data.length = some (data.idxOf ch) := by
  induction data with
  | nil =>
    cases behind with
    | nil => rfl
    | cons c behind => rfl
  | cons c data ih =>
    rw [List.cons_append, List.length_cons, bufNdx, if_neg (Nat.succ_ne_zero data.length)]
    by_cases hc : c = ch
    · rw [if_pos hc, hc, List.idxOf_cons_self]
    · rw [if_neg hc, List.idxOf_cons_ne _ hc, Nat.add_sub_cancel, ih]
      rfl

/-- Without errors `ioq_feed()` has something in the buffer, or is at the end. -/
theorem feed_quiet (h : Ready s) : ∃ data reads q i, Fed s.q s.i data reads q i ∧
    .error ∉ i.answers ∧ s.unread = data ++ i.rest ∧ (data = [] → s.unread = []) := by
  have hchunk : ∃ data, chunk s.q s.i = some data := by
    rw [chunk]
    by_cases hp : s.q.p ≠ 0
    · exact ⟨_, if_pos hp⟩
    · rw [if_neg hp]
      have hpos : 0 < s.q.n := by
        rw [Valid.full h.sound.valid (not_not.mp hp)]
        exact h.sound.valid.pos
      obtain ⟨m, -, -, hread, -⟩ := readOnce_spec s.i.rest hpos h.quiet
      exact ⟨_, hread⟩
  obtain ⟨data, hdata⟩ := hchunk
  obtain ⟨reads, q, i, hfed⟩ := feed_chunk h.sound.valid hdata
  have hunread : s.unread = data ++ i.rest := by
    rw [State.unread, hfed.stream, IoqGet.unread, hfed.buffered, hfed.count, List.take_length]
  refine ⟨data, reads, q, i, hfed, ?_, hunread, ?_⟩
  · intro hmem
    apply h.quiet
    rw [hfed.answers]
    exact List.mem_append_right reads hmem
  · intro hnil
    rw [hunread, hnil, hfed.ended hnil]
    rfl

theorem getln_end (h : Ready s) (hunread : s.unread = []) (behind : List UInt8) :
    ∃ s', (∀ fuel, ioqGetln behind (fuel + 1) s = some (0, s')) ∧ Ready s' ∧ s'.unread = [] ∧
      s'.S = s.S ∧ s'.mem = s.mem := by
  obtain ⟨data, reads, q, i, hfed, hquiet, hsplit, -⟩ := feed_quiet h
  obtain rfl : data = [] := (List.append_eq_nil_iff.mp (hsplit.symm.trans hunread)).1
  refine ⟨{ s with q := q, i := i }, ?_, ⟨⟨hfed.valid, hfed.size ▸ h.sound.small, h.sound.built⟩,
    hquiet⟩, ?_, rfl, rfl⟩
  · intro fuel
    rw [ioqGetln, hfed.call]
    rfl
  · exact hfed.stream.symm.trans hunread

theorem getln_put (h : Ready s) (hunread : s.unread ≠ []) (behind : List UInt8) :
    ∃ data q i, data <+: s.unread ∧ data ≠ [] ∧
      s.unread = data.take (passed data) ++ IoqGet.unread q i ∧
      (∀ S mem, Built S → Ready ⟨q, i, S, mem⟩) ∧
      ∃ q', ∀ fuel, ioqGetln behind (fuel + 1) s =
        (dynstrPutn s.mem s.S (data ++ behind) (passed data)).bind fun out =>
          if out.1 = -1 then some (-1, ⟨q', i, out.2.1, out.2.2⟩)
          else if 10 ∈ data then some (1, ⟨q, i, out.2.1, out.2.2⟩)
          else ioqGetln behind fuel ⟨q, i, out.2.1, out.2.2⟩ := by
  obtain ⟨data, reads, q, i, hfed, hquiet, hsplit, hend⟩ := feed_quiet h
  have hne : data ≠ [] := fun hnil => hunread (hend hnil)
  have hle : passed data ≤ q.p := by
    rw [hfed.count]
    exact passed_le data
  have hseek := @seek_faithful ⟨q, i⟩ hfed.valid (passed data) hle none (fun r hr => nomatch hr)
  have hlen : data.length < 2 ^ 63 := by
    have hroom := hfed.valid.room
    have hcount := hfed.count
    have hsize := hfed.size
    have hbound := h.sound.small
    omega
  have hsize : toSize (data.length : ℤ) = data.length := by
    rw [toSize]
    omega
  have hpos : ¬ data.length = 0 := fun hzero => hne (List.length_eq_zero_iff.mp hzero)
  refine ⟨data, ioqSeek q (passed data), i, ⟨i.rest, hsplit.symm⟩, hne, ?_, ?_, q, ?_⟩
  · have hpeek : ioqPeek q (passed data) = data.take (passed data) := by
      rw [ioqPeek, hfed.buffered]
    rw [State.unread, hfed.stream, ← hpeek]
    exact hseek.stream
  · intro S mem hS
    exact ⟨⟨hseek.valid, hfed.size ▸ h.sound.small, hS⟩, hquiet⟩
  · intro fuel
    have hfound : passed data = if 10 ∈ data then data.idxOf 10 + 1 else data.length := by
      rw [passed]
      simp only [List.idxOf_lt_length_iff]
    rw [ioqGetln, hfed.call]
    simp only [hsize, if_neg hpos, hfed.buffered, bufNdx_append, Option.bind_eq_bind,
      Option.bind_some, List.idxOf_lt_length_iff, hfound]
    rfl

/-- A call has appended some bytes and left others. -/
structure Took (s : State) (line rest : List UInt8) (s' : State) : Prop where
  ready : Ready s'
  contents : contents s'.S = contents s.S ++ line.map some
  unread : s'.unread = rest
  ended : line = [] ∧ s'.S = s.S ∨ Ended s'.S
  mem : s'.mem <:+ s.mem

/-- What a call does with a file without NUL bytes: there is no memory; or it takes a line and
its newline, or what is left without one. -/
inductive Call (s : State) : ℤ → State → Prop
  | denied (s' : State) (h : false ∈ s.mem) : Call s (-1) s'
  | line (l rest : List UInt8) (s' : State) (hs : s.unread = l ++ 10 :: rest) (hl : 10 ∉ l)
      (h : Took s (l ++ [10]) rest s') : Call s 1 s'
  | last (s' : State) (hs : 10 ∉ s.unread) (h : Took s s.unread [] s') : Call s 0 s'

theorem Took.trans {s₁ : State} {first last mid : List UInt8} (h : Took s first mid s₁)
    (h' : Took s₁ last rest s') : Took s (first ++ last) rest s' := by
  refine ⟨h'.ready, ?_, h'.unread, ?_, h'.mem.trans h.mem⟩
  · rw [h'.contents, h.contents, List.map_append, List.append_assoc]
  · rcases h'.ended with ⟨hnil, hsame⟩ | hended
    · rw [hnil, hsame, List.append_nil]
      exact h.ended
    · exact .inr hended

theorem Call.trans {s₁ : State} {first : List UInt8} (h : Took s first s₁.unread s₁)
    (hunread : s.unread = first ++ s₁.unread) (hfirst : 10 ∉ first) (h' : Call s₁ r s') :
    Call s r s' := by
  cases h' with
  | denied _ hmem => exact .denied s' (h.mem.subset hmem)
  | line l rest _ hs hl htook =>
    have hline : 10 ∉ first ++ l := by
      rw [List.mem_append, not_or]
      exact ⟨hfirst, hl⟩
    apply Call.line (first ++ l) rest s' _ hline
    · rw [List.append_assoc]
      exact h.trans htook
    · rw [hunread, hs, List.append_assoc]
  | last _ hs htook =>
    apply Call.last s'
    · rw [hunread, List.mem_append, not_or]
      exact ⟨hfirst, hs⟩
    · rw [hunread]
      exact h.trans htook

theorem getln_call (h : Ready s) (hnul : 0 ∉ s.unread) (hbehind : 0 ∈ behind)
    (hfuel : s.unread.length < fuel) :
    ∃ r s', ioqGetln behind fuel s = some (r, s') ∧ Call s r s' := by
  induction fuel generalizing s with
  | zero => exact absurd hfuel (Nat.not_lt_zero _)
  | succ fuel ih =>
    by_cases hunread : s.unread = []
    · obtain ⟨s', hcall, hready, hend, hS, hmem⟩ := getln_end h hunread behind
      refine ⟨0, s', hcall fuel, .last s' (hunread ▸ List.not_mem_nil) ⟨hready, ?_, hend, ?_, ?_⟩⟩
      · rw [hS, hunread, List.map_nil, List.append_nil]
      · exact .inl ⟨hunread, hS⟩
      · exact hmem ▸ List.suffix_rfl
    · obtain ⟨data, q, i, hpre, hne, hsplit, hready, q', hturn⟩ := getln_put h hunread behind
      have hdata : 0 ∉ data := fun hmem => hnul (hpre.subset hmem)
      have hend : 0 ∈ data ++ behind := List.mem_append_right data hbehind
      have hmin : min (passed data) ((data ++ behind).idxOf 0) = passed data := by
        apply Nat.min_eq_left
        rw [List.idxOf_append_of_notMem hdata]
        exact (passed_le data).trans (Nat.le_add_right _ _)
      by_cases hdenied : Denied s.mem s.S (passed data)
      · refine ⟨-1, ⟨q', i, s.S, s.mem.tail⟩, ?_, .denied _ ?_⟩
        · rw [← hmin] at hdenied
          rw [hturn, putn_denied hend hdenied]
          rfl
        · rw [headD_false hdenied.2]
          exact List.mem_cons_self
      · rw [← hmin] at hdenied
        obtain ⟨S', allocs, mem', hputn, hbuilt, -, hcontents, hmem, -⟩ :=
          putn_done h.sound.built hend hdenied
        rw [hmin, List.take_append_of_le_length (passed_le data)] at hcontents
        have htook : Took s (data.take (passed data)) (IoqGet.unread q i) ⟨q, i, S', mem'⟩ :=
          ⟨hready S' mem' hbuilt, hcontents, rfl, .inr (putn_ended hputn), ⟨allocs, hmem.symm⟩⟩
        have hgot : ¬ (0 : ℤ) = -1 := by decide
        rw [hturn, hputn, Option.bind_some, if_neg hgot]
        by_cases hline : 10 ∈ data
        · have hpassed : passed data = data.idxOf 10 + 1 := if_pos (List.idxOf_lt_length_iff.mpr hline)
          obtain ⟨htake, hfirst⟩ := take_line hline
          rw [hpassed, htake] at htook hsplit
          rw [if_pos hline]
          refine ⟨1, _, rfl, .line _ _ _ ?_ hfirst htook⟩
          rw [hsplit, List.append_assoc]
          rfl
        · have hpassed : passed data = data.length := if_neg (List.idxOf_lt_length_iff.not.mpr hline)
          rw [hpassed, List.take_length] at htook hsplit
          rw [if_neg hline]
          have hlen := congrArg List.length hsplit
          have hpos := List.length_pos_iff.mpr hne
          rw [List.length_append] at hlen
          have hrest : 0 ∉ IoqGet.unread q i := fun hmem =>
            hnul (hsplit ▸ List.mem_append_right data hmem)
          have hshort : (IoqGet.unread q i).length < fuel := by omega
          obtain ⟨r, s', hcall, hrun⟩ := ih (s := ⟨q, i, S', mem'⟩) htook.ready hrest hshort
          exact ⟨r, s', hcall, hrun.trans htook hsplit hline⟩

/-- Without a NUL behind the buffer a call leaves the memory, except at the end of the file. -/
theorem getln_overruns (h : Ready s) (hnul : 0 ∉ s.unread) (hunread : s.unread ≠ [])
    (hbehind : 0 ∉ behind) : ioqGetln behind fuel s = none := by
  cases fuel with
  | zero => rfl
  | succ fuel =>
    obtain ⟨data, q, i, hpre, -, -, -, q', hturn⟩ := getln_put h hunread behind
    have hdata : 0 ∉ data ++ behind := by
      rw [List.mem_append, not_or]
      exact ⟨fun hmem => hnul (hpre.subset hmem), hbehind⟩
    rw [hturn, putn_unterminated hdata]
    rfl

/-! ## A turn of the loop -/

/-- What is in the string when a turn has called `ioq_getln()` -/
inductive Next (s : State) : ℤ → State → Prop
  | denied (s' : State) (h : false ∈ s.mem) : Next s (-1) s'
  | done (s' : State) (hs : s.unread = []) (hmem : s'.mem <:+ s.mem)
      (h : s'.S.s = none ∨ s'.S.n = 0) : Next s 0 s'
  | line (l rest stale : List UInt8) (s' : State) (hs : s.unread = l ++ 10 :: rest) (hl : 10 ∉ l)
      (hready : Ready s') (hrest : s'.unread = rest) (hmem : s'.mem <:+ s.mem)
      (hheld : held s'.S = l ++ [10] ++ 0 :: stale) : Next s 1 s'
  | last (stale : List UInt8) (s' : State) (hs : s.unread ≠ []) (hl : 10 ∉ s.unread)
      (hmore : ¬ (s'.S.s = none ∨ s'.S.n = 0)) (hmem : s'.mem <:+ s.mem)
      (hheld : held s'.S = s.unread ++ 0 :: stale) : Next s 0 s'

theorem line_nul {l : List UInt8} (hs : str = l ++ 10 :: rest) (h : 0 ∉ str) :
    0 ∉ l ++ [10] ∧ 0 ∉ rest := by
  rw [hs, List.mem_append, List.mem_cons, not_or, not_or] at h
  rw [List.mem_append, List.mem_singleton, not_or]
  exact ⟨⟨h.1, h.2.1⟩, h.2.2⟩

theorem clear_ready (h : Ready s) : ∃ S, dynstrClear s.S = some S ∧ Ready { s with S := S } ∧
    S.n = 0 := by
  obtain ⟨S, hclear, hbuilt, hn, -⟩ := clear_eq h.sound.built
  exact ⟨S, hclear, ⟨⟨h.sound.valid, h.sound.small, hbuilt⟩, h.quiet⟩, hn⟩

theorem next_turn (h : Ready s) (hnul : 0 ∉ s.unread) (hbehind : 0 ∈ behind) :
    ∃ S r s', dynstrClear s.S = some S ∧
      ioqGetln behind (s.unread.length + 1) { s with S := S } = some (r, s') ∧ Next s r s' := by
  obtain ⟨S, hclear, hready, hn⟩ := clear_ready h
  obtain ⟨r, s', hcall, hrun⟩ := getln_call hready hnul hbehind (Nat.lt_succ_self s.unread.length)
  refine ⟨S, r, s', hclear, hcall, ?_⟩
  have hempty : contents S = [] := contents_nil hn
  cases hrun with
  | denied _ hmem => exact .denied s' hmem
  | line l rest _ hs hl htook =>
    have hcontents := htook.contents
    rw [hempty, List.nil_append] at hcontents
    have hended := htook.ended.resolve_left fun hnil => by simp at hnil
    obtain ⟨stale, hheld⟩ := held_line hcontents hended
    exact .line l rest stale s' hs hl htook.ready htook.unread htook.mem hheld
  | last _ hs htook =>
    have hcontents := htook.contents
    rw [hempty, List.nil_append] at hcontents
    have hlen := congrArg List.length hcontents
    rw [htook.ready.sound.built.length, List.length_map] at hlen
    by_cases hunread : s.unread = []
    · apply Next.done s' hunread htook.mem
      apply Or.inr
      rw [hlen]
      exact congrArg List.length hunread
    · have hended := htook.ended.resolve_left fun hnil => hunread hnil.1
      obtain ⟨stale, hheld⟩ := held_line hcontents hended
      apply Next.last stale s' hunread hs _ htook.mem hheld
      rintro (hnone | hzero)
      · obtain ⟨cells, hsome, -⟩ := hended
        cases hnone.symm.trans hsome
      · exact hunread (List.length_eq_zero_iff.mp (hlen.symm.trans hzero))

theorem putBack_ready {b : List UInt8} (h : Ready s) (hb : b.length = (held s.S).length) (mem : Mem) :
    Ready { s with S := putBack s.S b, mem := mem } :=
  ⟨⟨h.sound.valid, h.sound.small, putBack_built h.sound.built hb⟩, h.quiet⟩

section
variable {ε τ : Type} {readErr : τ → ε} {doLine : DoLine ε τ} {t : τ} {S : Dynstr}

theorem readLoop_turn {out : ℤ × State} (hclear : dynstrClear s.S = some S)
    (hcall : ioqGetln behind (s.unread.length + 1) { s with S := S } = some out) (fuel : ℕ) :
    readLoop behind readErr doLine (fuel + 1) s t =
      if out.1 = -1 then .stopped (readErr t)
      else if out.1 = 0 ∧ (out.2.S.s = none ∨ out.2.S.n = 0) then .ok (out.2.mem, t)
      else
        (doLine (held out.2.S) out.2.mem t).bind fun done =>
          if out.1 = 0 then .ok done.2
          else readLoop behind readErr doLine fuel
            { out.2 with S := putBack out.2.S done.1, mem := done.2.1 } done.2.2 := by
  rw [readLoop, hclear, Res.reading, Option.elim_some, hcall, Res.reading, Option.elim_some]

theorem allLines_turn {P : List UInt8 → Prop} {out : ℤ × State} (hclear : dynstrClear s.S = some S)
    (hcall : ioqGetln behind (s.unread.length + 1) { s with S := S } = some out) (fuel : ℕ) :
    AllLines behind doLine P (fuel + 1) s t ↔ (out.1 ≠ -1 →
      ¬ (out.1 = 0 ∧ (out.2.S.s = none ∨ out.2.S.n = 0)) →
        P (held out.2.S) ∧ ∀ done, doLine (held out.2.S) out.2.mem t = .ok done → out.1 ≠ 0 →
          AllLines behind doLine P fuel
            { out.2 with S := putBack out.2.S done.1, mem := done.2.1 } done.2.2) := by
  constructor
  · exact fun h => h S out hclear hcall
  · intro h S' out' hclear' hcall'
    obtain rfl := Option.some.inj (hclear.symm.trans hclear')
    obtain rfl := Option.some.inj (hcall.symm.trans hcall')
    exact h

theorem readLoop_overruns (h : Ready s) (hnul : 0 ∉ s.unread) (hunread : s.unread ≠ [])
    (hbehind : 0 ∉ behind) : readLoop behind readErr doLine fuel s t = .outside := by
  cases fuel with
  | zero => rfl
  | succ fuel =>
    obtain ⟨S, hclear, hready, -⟩ := clear_ready h
    rw [readLoop, hclear, Res.reading, Option.elim_some,
      getln_overruns (s := { s with S := S }) hready hnul hunread hbehind]
    rfl

theorem readLoop_empty (h : Ready s) (hunread : s.unread = []) (fuel : ℕ) :
    readLoop behind readErr doLine (fuel + 1) s t = .ok (s.mem, t) := by
  obtain ⟨S, hclear, hready, hn⟩ := clear_ready h
  obtain ⟨s', hcall, -, -, hS, hmem⟩ := getln_end hready hunread behind
  have hzero : ((0 : ℤ), s').1 = 0 ∧ (s'.S.s = none ∨ s'.S.n = 0) := ⟨rfl, .inr (by rw [hS]; exact hn)⟩
  have hgot : ¬ (0 : ℤ) = -1 := by decide
  rw [readLoop_turn hclear (hcall s.unread.length), if_neg hgot, if_pos hzero]
  exact congrArg (fun mem => Res.ok (mem, t)) hmem

end

/-! ## Runs of the loop -/

section
variable {ε τ : Type} {readErr : τ → ε} {doLine : DoLine ε τ} {t : τ}

/-- What the work on each line keeps holds at the end of the loop. -/
theorem readLoop_keeps {I : τ → Prop} {J : ε → Prop} (hread : ∀ t, I t → J (readErr t))
    (hstop : ∀ b mem t e, I t → doLine b mem t = .stopped e → J e)
    (hline : ∀ b mem t done, I t → doLine b mem t = .ok done → I done.2.2) (ht : I t) :
    (∀ e, readLoop behind readErr doLine fuel s t = .stopped e → J e) ∧
      ∀ a, readLoop behind readErr doLine fuel s t = .ok a → I a.2 := by
  induction fuel generalizing s t with
  | zero => exact ⟨fun e he => (by cases he), fun a ha => (by cases ha)⟩
  | succ fuel ih =>
    rw [readLoop]
    cases dynstrClear s.S with
    | none => exact ⟨fun e he => (by cases he), fun a ha => (by cases ha)⟩
    | some S =>
      rw [Res.reading, Option.elim_some]
      cases ioqGetln behind (s.unread.length + 1) { s with S := S } with
      | none => exact ⟨fun e he => (by cases he), fun a ha => (by cases ha)⟩
      | some out =>
        rw [Res.reading, Option.elim_some]
        by_cases hfail : out.1 = -1
        · rw [if_pos hfail]
          exact ⟨fun e he => (by cases he; exact hread t ht), fun a ha => (by cases ha)⟩
        · rw [if_neg hfail]
          by_cases hend : out.1 = 0 ∧ (out.2.S.s = none ∨ out.2.S.n = 0)
          · rw [if_pos hend]
            exact ⟨fun e he => (by cases he), fun a ha => (by cases ha; exact ht)⟩
          · rw [if_neg hend]
            cases hdone : doLine (held out.2.S) out.2.mem t with
            | outside => exact ⟨fun e he => (by cases he), fun a ha => (by cases ha)⟩
            | stopped e =>
              have hJ := hstop _ _ _ _ ht hdone
              exact ⟨fun e' he => (by cases he; exact hJ), fun a ha => (by cases ha)⟩
            | ok done =>
              have hI := hline _ _ _ _ ht hdone
              rw [Res.bind]
              by_cases hlast : out.1 = 0
              · rw [if_pos hlast]
                exact ⟨fun e he => (by cases he), fun a ha => (by cases ha; exact hI)⟩
              · rw [if_neg hlast]
                exact ih hI

end

/-! ## The lines -/

section
variable {ε τ β : Type} {readErr : τ → ε} {doLine : DoLine ε τ} {P : List UInt8 → Prop}
  {rel : τ → β → Prop} {halt : ε → β → Prop} {next : β → List UInt8 → β} {t : τ} {b : β}

/-- Where nothing has gone wrong, a result describes what is to come of the lines; an error for
want of memory tells how far the work got. -/
def Comes (halt : ε → β → Prop) (rel : τ → β → Prop) (b : β) (mem : Mem) {α : Type}
    (state : α → Mem × τ) (r : Res ε α) : Prop :=
  (∃ e, r = .stopped e ∧ halt e b ∧ false ∈ mem) ∨
    ∃ a, r = .ok a ∧ (state a).1 <:+ mem ∧ rel (state a).2 b

/-- The work on a line follows `next`, and keeps the size of the line's memory. -/
structure Follows (readErr : τ → ε) (doLine : DoLine ε τ) (P : List UInt8 → Prop)
    (rel : τ → β → Prop) (halt : ε → β → Prop) (next : β → List UInt8 → β) : Prop where
  size : ∀ l stale mem t done, 0 ∉ l → P (l ++ 0 :: stale) →
    doLine (l ++ 0 :: stale) mem t = .ok done → done.1.length = (l ++ 0 :: stale).length
  step : ∀ l stale mem t b, 0 ∉ l → P (l ++ 0 :: stale) → rel t b →
    Comes halt rel (next b l) mem Prod.snd (doLine (l ++ 0 :: stale) mem t)
  failed : ∀ t b, rel t b → halt (readErr t) b
  kept : ∀ e b l, halt e b → halt e (next b l)
  newline : ∀ b l, next b (l ++ [10]) = next b l
  empty : ∀ b, next b [] = b

theorem halt_foldl (h : Follows readErr doLine P rel halt next) {e : ε} (he : halt e b)
    (ls : List (List UInt8)) : halt e (ls.foldl next b) := by
  induction ls generalizing b with
  | nil => exact he
  | cons l ls ih => exact ih (h.kept e b l he)

theorem allLines_of (h : ∀ m, P m) : AllLines behind doLine P fuel s t := by
  induction fuel generalizing s t with
  | zero => trivial
  | succ fuel ih => exact fun S out _ _ _ _ => ⟨h _, fun done _ _ => ih⟩

/-- The rule of the loop: its lines are those of the file. -/
theorem readLoop_comes (h : Follows readErr doLine P rel halt next) (hs : Ready s)
    (hnul : 0 ∉ s.unread) (hbehind : 0 ∈ behind) (hfuel : s.unread.length < fuel) (hb : rel t b)
    (hall : AllLines behind doLine P fuel s t) :
    Comes halt rel ((s.unread.splitOn 10).foldl next b) s.mem id
      (readLoop behind readErr doLine fuel s t) := by
  induction fuel generalizing s t b with
  | zero => exact absurd hfuel (Nat.not_lt_zero _)
  | succ fuel ih =>
    obtain ⟨S, r, s', hclear, hcall, hnext⟩ := next_turn hs hnul hbehind
    have hturn := hall S (r, s') hclear hcall
    rw [readLoop_turn hclear hcall]
    cases hnext with
    | denied _ hmem => exact .inl ⟨readErr t, rfl, halt_foldl h (h.failed t b hb) _, hmem⟩
    | done _ hunread hmem hend =>
      have hgot : ¬ (0 : ℤ) = -1 := by decide
      rw [if_neg hgot, if_pos ⟨rfl, hend⟩, hunread, List.splitOn_nil, List.foldl_cons, h.empty]
      exact .inr ⟨_, rfl, hmem, hb⟩
    | line l rest stale _ hunread hl hready hrest hmem hheld =>
      have hgot : ¬ (1 : ℤ) = -1 := by decide
      have hmore : ¬ ((1 : ℤ) = 0 ∧ (s'.S.s = none ∨ s'.S.n = 0)) := fun hand => by
        cases hand.1
      obtain ⟨hlnul, hrnul⟩ := line_nul hunread hnul
      obtain ⟨hplain, hlater⟩ := hturn hgot hmore
      rw [hheld] at hplain
      rw [if_neg hgot, if_neg hmore, hunread, List.splitOn_append_cons_self_of_not_mem hl,
        List.foldl_cons, ← h.newline]
      rcases h.step (l ++ [10]) stale s'.mem t b hlnul hplain hb with
        ⟨e, he, hhalt, hfail⟩ | ⟨done, hdone, hleft, hrel⟩
      · rw [hheld, he]
        exact .inl ⟨e, rfl, halt_foldl h hhalt _, hmem.subset hfail⟩
      · have hsize := h.size _ _ _ _ _ hlnul hplain hdone
        rw [← hheld] at hdone hsize
        have hready' := putBack_ready hready hsize done.2.1
        have hshort : rest.length < fuel := by
          rw [hunread, List.length_append, List.length_cons] at hfuel
          omega
        rw [← hrest] at hshort hrnul
        have hone : (1 : ℤ) ≠ 0 := by decide
        rw [hdone, Res.bind, if_neg hone, ← hrest]
        rcases ih hready' hrnul hshort hrel (hlater done hdone hone) with
          ⟨e, he, hhalt, hfail⟩ | ⟨a, ha, hsuffix, hgood⟩
        · exact .inl ⟨e, he, hhalt, hmem.subset (hleft.subset hfail)⟩
        · exact .inr ⟨a, ha, (hsuffix.trans hleft).trans hmem, hgood⟩
    | last stale _ hunread hl hmore hmem hheld =>
      have hgot : ¬ (0 : ℤ) = -1 := by decide
      have hend : ¬ ((0 : ℤ) = 0 ∧ (s'.S.s = none ∨ s'.S.n = 0)) := fun hand => hmore hand.2
      obtain ⟨hplain, -⟩ := hturn hgot hend
      rw [hheld] at hplain
      rw [if_neg hgot, if_neg hend, List.splitOn_eq_singleton hl, List.foldl_cons, hheld]
      rcases h.step s.unread stale s'.mem t b hnul hplain hb with
        ⟨e, he, hhalt, hfail⟩ | ⟨done, hdone, hleft, hrel⟩
      · rw [he]
        exact .inl ⟨e, rfl, hhalt, hmem.subset hfail⟩
      · rw [hdone]
        exact .inr ⟨done.2, rfl, hleft.trans hmem, hrel⟩

end

/-- The state in which a file is opened -/
def opened (file : List UInt8) (answers : List ReadAns) (mem : Mem) : State :=
  start 8192 ⟨file, answers⟩ mem

theorem opened_ready (file : List UInt8) {answers : List ReadAns} (h : .error ∉ answers)
    (mem : Mem) : Ready (opened file answers mem) :=
  ⟨start_sound (by decide) (by decide) ⟨file, answers⟩ mem, h⟩

theorem opened_unread (file : List UInt8) (answers : List ReadAns) (mem : Mem) :
    (opened file answers mem).unread = file := IoqGet.unread_init 8192 ⟨file, answers⟩

end Perp.FileLines
