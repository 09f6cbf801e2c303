import Perp.IoqStream
import Perp.TinylogLines

set_option autoImplicit false

/-!
# Lines for syslog

`sissylog`: `do_log()` cuts its input into lines and the lines into pieces that
fit its buffer; `logline_post()` hands a piece to `syslog()`.
-/
namespace Perp.Sissylog
open Pkt IoqGet IoqStream TinylogPost TinylogLines

def loglineMax : ℕ := 800
def inbufSize : ℕ := 1024

inductive Priority where
  | emerg | alert | err | warning | notice | info | debug
  deriving DecidableEq, Repr

/-- One call of `syslog()` -/
structure Post where
  priority : Priority
  text : List UInt8
  deriving DecidableEq, Repr

def chars (s : List Char) : List UInt8 := s.map fun c => UInt8.ofNat c.toNat

/-- `cstr_contains()`: `s1` begins with `s2`. -/
def cstrContains : List UInt8 → List UInt8 → Bool
  | _, [] => true
  | [], _ :: _ => false
  | b :: s1, c :: s2 => c == b && cstrContains s1 s2

/-- The priority that `logline_post()` finds in the first piece of a line. -/
def priorityOf (text : List UInt8) : Priority :=
  if cstrContains text (chars ['a', 'l', 'e', 'r', 't', ':']) then .alert
  else if cstrContains text (chars ['e', 'r', 'r', 'o', 'r', ':']) then .err
  else if cstrContains text (chars ['w', 'a', 'r', 'n', 'i', 'n', 'g', ':']) then .warning
  else if cstrContains text (chars ['n', 'o', 't', 'i', 'c', 'e', ':']) then .notice
  else if cstrContains text (chars ['d', 'e', 'b', 'u', 'g', ':']) then .debug
  else .info

/-- The string that starts at the front of an array. -/
def cstr (k : List UInt8) : List UInt8 := k.takeWhile (· ≠ 0)

/-- `logline_post()`: `priority` is its static variable. -/
def loglinePost (priority : Priority) (logline : List UInt8) (flagContinue : Bool) :
    Priority × Post :=
  if flagContinue then (priority, ⟨priority, 43 :: cstr logline⟩)
  else (priorityOf (cstr logline), ⟨priorityOf (cstr logline), cstr logline⟩)

/-- A store into an array; none is a store outside it. -/
def store (k : List UInt8) (i : ℕ) (c : UInt8) : Option (List UInt8) :=
  if i < k.length then some (k.set i c) else none

/-- What `do_log()` works on, and what it has posted. -/
structure Logger where
  logline : List UInt8
  len : ℕ
  c : UInt8
  flagContinue : Bool
  /-- the static variable of `logline_post()` -/
  priority : Priority
  q : Ioq
  i : Input
  posts : List Post
  deriving DecidableEq, Repr

/-- The end of the piece in `logline`: it is posted and the buffer is empty again. -/
def posted (s : Logger) (flagContinue : Bool) : Option Logger :=
  (store s.logline s.len 0).map fun k =>
    { s with
      logline := k
      len := 0
      flagContinue := flagContinue
      priority := (loglinePost s.priority k s.flagContinue).1
      posts := s.posts ++ [(loglinePost s.priority k s.flagContinue).2] }

/-- One pass of the loop of `do_log()`, with the return of `ioq_GETC()`. -/
def doLogPass (s : Logger) : Option (ℤ × Logger) :=
  match ioqGetc s.q s.i s.c with
  | (r, c, q, i) =>
    let s := { s with q := q, i := i, c := c }
    if r < 1 then
      if s.len > 0 then (posted s false).map fun s => (r, s) else some (r, s)
    else if c = 10 then
      if s.len > 0 then (posted s false).map fun s => (r, s)
      else
        (store s.logline s.len 0).map fun k => (r, { s with logline := k, flagContinue := false })
    else
      (store s.logline s.len (filtered c)).bind fun k =>
        let s := { s with logline := k, len := s.len + 1, c := filtered c }
        if s.len = loglineMax then (posted s true).map fun s => (r, s) else some (r, s)

/-- `do_log()` in at most that many passes: the last return of `ioq_GETC()`. -/
def doLog : ℕ → Logger → Option (ℤ × Logger)
  | 0, s => some (1, s)
  | fuel + 1, s =>
    match doLogPass s with
    | none => none
    | some (r, s) => if r < 1 then some (r, s) else doLog fuel s

/-- `do_log()` as it is called: the buffer of the loop and the variables that it
does not set hold anything. -/
def start (logline : List UInt8) (c : UInt8) (priority : Priority) (i : Input) : Logger :=
  { logline := logline
    len := 0
    c := c
    flagContinue := false
    priority := priority
    q := ioqInit inbufSize
    i := i
    posts := [] }

/-- A line in pieces of the size of the buffer. -/
def pieces (text : List UInt8) : List (List UInt8) :=
  if text = [] then [] else text.take loglineMax :: pieces (text.drop loglineMax)
termination_by text.length
decreasing_by
  have := List.length_pos_iff.mpr ‹text ≠ []›
  rw [List.length_drop, loglineMax]
  omega

def further (p : Priority) (piece : List UInt8) : Post := ⟨p, 43 :: piece⟩

/-- The posts of one line: the first piece has its priority. -/
def linePosts (text : List UInt8) : List Post :=
  match pieces text with
  | [] => []
  | piece :: more => ⟨priorityOf piece, piece⟩ :: more.map (further (priorityOf piece))

/-- The posts that belong to a stream: one line after the other. -/
def expected (bytes : List UInt8) : List Post :=
  (runs bytes).flatMap fun run => linePosts (run.map filtered)

theorem pieces_nil : pieces [] = [] := by
  rw [pieces, if_pos rfl]

theorem pieces_cons {text : List UInt8} (h : text ≠ []) :
    pieces text = text.take loglineMax :: pieces (text.drop loglineMax) := by
  rw [pieces, if_neg h]

theorem pieces_flatten (text : List UInt8) : (pieces text).flatten = text := by
  induction text using pieces.induct with
  | case1 => simp [pieces_nil]
  | case2 text h ih => rw [pieces_cons h, List.flatten_cons, ih, List.take_append_drop]

theorem pieces_length (text : List UInt8) :
    (∀ piece ∈ pieces text, piece ≠ [] ∧ piece.length ≤ loglineMax) ∧
      ∀ piece ∈ (pieces text).dropLast, piece.length = loglineMax := by
  induction text using pieces.induct with
  | case1 => simp [pieces_nil]
  | case2 text h ih =>
    have hpos := List.length_pos_iff.mpr h
    have htake : text.take loglineMax ≠ [] := by
      apply List.ne_nil_of_length_pos
      rw [List.length_take, loglineMax]
      omega
    rw [pieces_cons h]
    refine ⟨fun piece hp => ?_, fun piece hp => ?_⟩
    · rcases List.mem_cons.mp hp with rfl | hp
      · exact ⟨htake, List.length_take_le _ _⟩
      · exact ih.1 piece hp
    · by_cases hnil : text.drop loglineMax = []
      · rw [hnil, pieces_nil] at hp
        exact absurd hp (by simp)
      · have hne : pieces (text.drop loglineMax) ≠ [] := by
          rw [pieces_cons hnil]
          exact List.cons_ne_nil _ _
        rw [List.dropLast_cons_of_ne_nil hne] at hp
        rcases List.mem_cons.mp hp with rfl | hp
        · have hlt : loglineMax < text.length := by
            by_contra hle
            exact hnil (List.drop_eq_nil_of_le (by omega))
          rw [List.length_take]
          omega
        · exact ih.2 piece hp

/-- What is posted of a line whose beginning has been posted, if `cont` says so. -/
def rest (cont : Option Priority) (text : List UInt8) : List Post :=
  match cont with
  | none => linePosts text
  | some p => (pieces text).map (further p)

/-- What is posted from here on: `text` stands in the buffer, `bytes` are to come. -/
def future (cont : Option Priority) (text : List UInt8) : List UInt8 → List Post
  | [] => rest cont text
  | b :: bytes =>
    if b = 10 then rest cont text ++ future none [] bytes
    else future cont (text ++ [filtered b]) bytes

theorem future_run {run : List UInt8} (h : 10 ∉ run) (cont : Option Priority) (text bytes : List UInt8) :
    future cont text (run ++ bytes) = future cont (text ++ run.map filtered) bytes := by
  induction run generalizing text with
  | nil => simp
  | cons b run ih =>
    have hb : b ≠ 10 := fun he => h (he ▸ List.mem_cons_self)
    rw [List.cons_append, future, if_neg hb, ih fun hm => h (List.mem_cons_of_mem _ hm)]
    simp

theorem linePosts_nil : linePosts [] = [] := by
  simp [linePosts, pieces_nil]

theorem expected_run (run : List UInt8) :
    (if run = [] then [] else [run]).flatMap (fun run => linePosts (run.map filtered)) =
      linePosts (run.map filtered) := by
  by_cases hr : run = []
  · simp [hr, linePosts_nil]
  · simp [hr]

/-- From an empty buffer on, what is posted are the lines of the stream. -/
theorem future_eq_expected (bytes : List UInt8) : future none [] bytes = expected bytes := by
  induction hn : bytes.length using Nat.strong_induction_on generalizing bytes with
  | _ n ih =>
    by_cases hnl : 10 ∈ bytes
    · obtain ⟨run, more, rfl, hrun⟩ := List.eq_append_cons_of_mem hnl
      have hlt : more.length < n := by
        rw [← hn, List.length_append, List.length_cons]
        omega
      rw [future_run hrun, future, if_pos rfl, ih _ hlt more rfl, expected, expected,
        runs_append hrun, List.flatMap_append, expected_run]
      rfl
    · have h := future_run hnl none [] []
      rw [List.append_nil] at h
      rw [h, expected, runs_last hnl, expected_run]
      rfl

def piecePost (cont : Option Priority) (text : List UInt8) : Post :=
  match cont with
  | none => ⟨priorityOf text, text⟩
  | some p => further p text

def piecePriority (cont : Option Priority) (text : List UInt8) : Priority :=
  cont.getD (priorityOf text)

theorem rest_full (cont : Option Priority) {text : List UInt8} (ht : text.length = loglineMax)
    (more : List UInt8) :
    rest cont (text ++ more) = piecePost cont text :: rest (some (piecePriority cont text)) more := by
  have hne : text ++ more ≠ [] := by
    apply List.ne_nil_of_length_pos
    rw [List.length_append, ht, loglineMax]
    omega
  have hp : pieces (text ++ more) = text :: pieces more := by
    rw [pieces_cons hne, List.take_left' ht, List.drop_left' ht]
  cases cont <;> simp [rest, linePosts, hp, piecePost, piecePriority]

theorem rest_last (cont : Option Priority) {text : List UInt8} (ht : text ≠ [])
    (hl : text.length ≤ loglineMax) : rest cont text = [piecePost cont text] := by
  have hp : pieces text = [text] := by
    rw [pieces_cons ht, List.take_of_length_le hl, List.drop_eq_nil_of_le hl, pieces_nil]
  cases cont <;> simp [rest, linePosts, hp, piecePost]

theorem rest_nil (cont : Option Priority) : rest cont [] = [] := by
  cases cont <;> simp [rest, linePosts_nil, pieces_nil]

/-- A full buffer is posted at once, whatever is to come. -/
theorem future_full (cont : Option Priority) {text : List UInt8} (ht : text.length = loglineMax)
    (more bytes : List UInt8) : future cont (text ++ more) bytes =
      piecePost cont text :: future (some (piecePriority cont text)) more bytes := by
  induction bytes generalizing more with
  | nil => exact rest_full cont ht more
  | cons b bytes ih =>
    rw [future, future]
    split
    · rw [rest_full cont ht more, List.cons_append]
    · rw [List.append_assoc, ih]

/-- The line that `do_log()` is in the middle of. -/
def cont (s : Logger) : Option Priority := if s.flagContinue then some s.priority else none

/-- `text` stands in the buffer of `do_log()`, and there is room for more. -/
structure Holds (s : Logger) (text : List UInt8) : Prop where
  valid : Valid s.q
  size : s.logline.length = loglineMax + 1
  len : s.len = text.length
  held : s.logline.take text.length = text
  nul : 0 ∉ text

theorem cstr_set {k text : List UInt8} (h : k.take text.length = text) (hl : text.length < k.length)
    (hn : 0 ∉ text) : cstr (k.set text.length 0) = text := by
  have hk : k.set text.length 0 = text ++ 0 :: k.drop (text.length + 1) := by
    rw [List.set_eq_take_append_cons_drop, if_pos hl, h]
  have hall : ∀ b ∈ text, decide (b ≠ 0) = true := by
    intro b hb
    simpa using fun h0 : b = 0 => hn (h0 ▸ hb)
  rw [hk, cstr, List.takeWhile_append_of_pos hall, List.takeWhile_cons_of_neg (by simp),
    List.append_nil]

theorem filtered_ne_zero (c : UInt8) : filtered c ≠ 0 := by
  have hall : ∀ n : Fin 256, filtered (UInt8.ofFin n) ≠ 0 := by decide +kernel
  simpa using hall c.toFin

theorem posted_spec {s : Logger} {text : List UInt8} (h : Holds s text)
    (hl : text.length ≤ loglineMax) (flag : Bool) : ∃ s', posted s flag = some s' ∧
      Holds s' [] ∧ s'.q = s.q ∧ s'.i = s.i ∧ s'.posts = s.posts ++ [piecePost (cont s) text] ∧
      cont s' = if flag then some (piecePriority (cont s) text) else none := by
  have hlt : text.length < s.logline.length := by
    have := h.size
    omega
  have hpost : loglinePost s.priority (s.logline.set text.length 0) s.flagContinue =
      (piecePriority (cont s) text, piecePost (cont s) text) := by
    cases hf : s.flagContinue <;>
      simp [loglinePost, cont, hf, cstr_set h.held hlt h.nul, piecePriority, piecePost, further]
  have hset : (s.logline.set text.length 0).length = loglineMax + 1 := by
    rw [List.length_set, h.size]
  refine ⟨{ s with
      logline := s.logline.set text.length 0
      len := 0
      flagContinue := flag
      priority := piecePriority (cont s) text
      posts := s.posts ++ [piecePost (cont s) text] }, ?_,
    ⟨h.valid, hset, rfl, rfl, List.not_mem_nil⟩, rfl, rfl, rfl, rfl⟩
  rw [posted, store, h.len, if_pos hlt, Option.map_some, hpost]

theorem doLogPass_end {s : Logger} {text : List UInt8} (h : Holds s text)
    (hl : text.length < loglineMax) {r : ℤ} {c : UInt8} {q : Ioq} {i : Input}
    (hget : ioqGetc s.q s.i s.c = (r, c, q, i)) (hr : r < 1) (hv : Valid q) :
    ∃ s', doLogPass s = some (r, s') ∧ s'.q = q ∧ s'.i = i ∧
      s'.posts = s.posts ++ rest (cont s) text := by
  by_cases hnil : text = []
  · have h0 : s.len = 0 := by rw [h.len, hnil, List.length_nil]
    refine ⟨{ s with q := q, i := i, c := c }, by simp [doLogPass, hget, hr, h0], rfl, rfl, ?_⟩
    rw [hnil, rest_nil, List.append_nil]
  · have h0 : s.len > 0 := by
      rw [h.len]
      exact List.length_pos_iff.mpr hnil
    obtain ⟨s', hpost, -, hq, hi, hposts, -⟩ := @posted_spec { s with q := q, i := i, c := c } text
      ⟨hv, h.size, h.len, h.held, h.nul⟩ (Nat.le_of_lt hl) false
    refine ⟨s', by simp [doLogPass, hget, hr, h0, hpost], hq, hi, ?_⟩
    rw [hposts, rest_last _ hnil (Nat.le_of_lt hl)]
    rfl

/-- A pass that takes the end of a line: the piece in the buffer is posted, if there is one. -/
theorem doLogPass_newline {s : Logger} {text : List UInt8} (h : Holds s text)
    (hl : text.length < loglineMax) {q : Ioq} {i : Input}
    (hget : ioqGetc s.q s.i s.c = (1, 10, q, i)) (hv : Valid q) :
    ∃ s', doLogPass s = some (1, s') ∧ Holds s' [] ∧ s'.q = q ∧ s'.i = i ∧ cont s' = none ∧
      s'.posts = s.posts ++ rest (cont s) text := by
  by_cases hnil : text = []
  · have h0 : s.len = 0 := by rw [h.len, hnil, List.length_nil]
    have hlt : 0 < s.logline.length := by
      rw [h.size]
      omega
    refine ⟨{ s with
        q := q, i := i, c := 10, logline := s.logline.set 0 0, flagContinue := false },
      by simp [doLogPass, hget, h0, store, hlt],
      ⟨hv, by simpa using h.size, h0, rfl, List.not_mem_nil⟩, rfl, rfl, rfl, ?_⟩
    rw [hnil, rest_nil, List.append_nil]
  · have h0 : s.len > 0 := by
      rw [h.len]
      exact List.length_pos_iff.mpr hnil
    obtain ⟨s', hpost, hholds, hq, hi, hposts, hcont⟩ := @posted_spec
      { s with q := q, i := i, c := 10 } text ⟨hv, h.size, h.len, h.held, h.nul⟩
      (Nat.le_of_lt hl) false
    refine ⟨s', by simp [doLogPass, hget, h0, ← hpost], hholds, hq, hi, hcont, ?_⟩
    rw [hposts, rest_last _ hnil (Nat.le_of_lt hl)]
    rfl

/-- A pass that takes a byte: what is posted and what will be posted stay the same. -/
theorem doLogPass_byte {s : Logger} {text : List UInt8} (h : Holds s text)
    (hl : text.length < loglineMax) {b : UInt8} {q : Ioq} {i : Input}
    (hget : ioqGetc s.q s.i s.c = (1, b, q, i)) (hv : Valid q) :
    ∃ s' text', doLogPass s = some (1, s') ∧ Holds s' text' ∧ text'.length < loglineMax ∧
      s'.q = q ∧ s'.i = i ∧ ∀ bytes, s.posts ++ future (cont s) text (b :: bytes) =
        s'.posts ++ future (cont s') text' bytes := by
  by_cases hb : b = 10
  · subst hb
    obtain ⟨s', hpass, hholds, hq, hi, hcont, hposts⟩ := doLogPass_newline h hl hget hv
    refine ⟨s', [], hpass, hholds, by decide, hq, hi, fun bytes => ?_⟩
    rw [future, if_pos rfl, hposts, hcont, List.append_assoc]
  · have hlt : text.length < s.logline.length := by
      rw [h.size]
      omega
    have hset : (s.logline.set text.length (filtered b)).take (text ++ [filtered b]).length =
        text ++ [filtered b] := by
      rw [List.length_append, List.length_singleton, List.take_succ_eq_append_getElem
        (by simpa using hlt), List.getElem_set_self, List.take_set_of_le (Nat.le_refl _), h.held]
    have hwith : Holds { s with
        q := q, i := i, logline := s.logline.set text.length (filtered b), len := s.len + 1,
        c := filtered b } (text ++ [filtered b]) := by
      refine ⟨hv, by simpa using h.size, by simp [h.len], hset, ?_⟩
      simpa [h.nul] using (filtered_ne_zero b).symm
    by_cases hfull : text.length + 1 = loglineMax
    · obtain ⟨s', hpost, hholds, hq, hi, hposts, hcont⟩ :=
        posted_spec hwith (by simp [hfull]) true
      refine ⟨s', [], by simp [doLogPass, hget, hb, store, h.len, hlt, hfull] at hpost ⊢; exact hpost,
        hholds, by decide, hq, hi, fun bytes => ?_⟩
      have hcut := @future_full (cont s) (text ++ [filtered b]) (by simp [hfull]) [] bytes
      rw [List.append_nil] at hcut
      rw [future, if_neg hb, hcut, hposts, hcont]
      simp [cont]
    · refine ⟨_, text ++ [filtered b], by simp [doLogPass, hget, hb, store, h.len, hlt, hfull],
        hwith, ?_, rfl, rfl, fun bytes => ?_⟩
      · simp
        omega
      · rw [future, if_neg hb]
        rfl

/-- `do_log()` from any point of a line on: `seen` is what it reads before the end
of the input, or before an error. -/
theorem doLog_run {n : ℕ} {s : Logger} {text : List UInt8} (h : Holds s text)
    (hl : text.length < loglineMax) (hn : (unread s.q s.i).length < n) :
    ∃ r s' seen, doLog n s = some (r, s') ∧ unread s.q s.i = seen ++ unread s'.q s'.i ∧
      s'.posts = s.posts ++ future (cont s) text seen ∧ r ≤ 0 ∧
      (r = 0 → unread s'.q s'.i = []) ∧ (r < 0 → .error ∈ s.i.answers) := by
  induction n generalizing s text with
  | zero => exact absurd hn (Nat.not_lt_zero _)
  | succ n ih =>
    obtain ⟨r, b, q, i, hget, hr, hf⟩ := @getc_faithful ⟨s.q, s.i⟩ h.valid s.c
    by_cases hend : r < 1
    · obtain ⟨s', hpass, hq, hi, hposts⟩ := doLogPass_end h hl hget hend hf.valid
      have hstream : unread s.q s.i = unread q i := by
        have := hf.stream
        rwa [if_neg (by omega), List.nil_append] at this
      refine ⟨r, s', [], by rw [doLog, hpass]; simp only [hend, if_true], ?_, hposts, by omega,
        fun h0 => ?_, hf.failed r rfl⟩
      · rw [hq, hi, List.nil_append]
        exact hstream
      · have hp := (hf.ended r rfl (by omega)).1
        rw [hq, hi, ← hstream, unread_of_empty _ hp]
        exact hf.eof (h0 ▸ rfl)
    · obtain rfl : r = 1 := by omega
      have hstream : unread s.q s.i = b :: unread q i := hf.stream
      obtain ⟨s', text', hpass, hholds, hl', hq, hi, hsame⟩ :=
        doLogPass_byte h hl hget hf.valid
      rw [hstream, List.length_cons] at hn
      obtain ⟨r, s'', seen, hrun, hseen, hposts, hr, hzero, hneg⟩ :=
        ih hholds hl' (by rw [hq, hi]; omega)
      refine ⟨r, s'', b :: seen, ?_, ?_, ?_, hr, hzero, fun h0 => ?_⟩
      · rw [doLog, hpass]
        exact hrun
      · rw [hstream, ← hq, ← hi, hseen, List.cons_append]
      · rw [hposts, hsame]
      · exact hf.answers (hi ▸ hneg h0)

/-- What `do_log()` hands to `syslog()` are the lines of its input in pieces, and
it stores nothing outside its buffer. -/
theorem doLog_posts {logline : List UInt8} (hlen : logline.length = loglineMax + 1) (c : UInt8)
    (priority : Priority) (i : Input) {n : ℕ} (hn : i.rest.length < n) :
    (∃ r s seen, doLog n (start logline c priority i) = some (r, s) ∧ r ≤ 0 ∧
      i.rest = seen ++ unread s.q s.i ∧ s.posts = expected seen ∧ (r = 0 → seen = i.rest) ∧
      (.error ∉ i.answers → r = 0)) ∧
    ∀ text, (pieces text).flatten = text ∧
      (∀ piece ∈ pieces text, piece ≠ [] ∧ piece.length ≤ loglineMax) ∧
      ∀ piece ∈ (pieces text).dropLast, piece.length = loglineMax := by
  refine ⟨?_, fun text => ⟨pieces_flatten text, pieces_length text⟩⟩
  have hu : unread (ioqInit inbufSize) i = i.rest := unread_init inbufSize i
  have hholds : Holds (start logline c priority i) [] :=
    ⟨valid_init (by decide), hlen, rfl, rfl, List.not_mem_nil⟩
  obtain ⟨r, s, seen, hrun, hseen, hposts, hr, hzero, hneg⟩ :=
    doLog_run hholds (by decide) (show (unread (ioqInit inbufSize) i).length < n by rwa [hu])
  have hseen : i.rest = seen ++ unread s.q s.i := hu.symm.trans hseen
  refine ⟨r, s, seen, hrun, hr, hseen, ?_, fun h0 => ?_, fun he => ?_⟩
  · rw [hposts]
    exact future_eq_expected seen
  · rw [hseen, hzero h0, List.append_nil]
  · by_contra hne
    exact he (hneg (by omega))

theorem doLog_posts_line : ∃ r s seen,
    doLog 3 (start (List.replicate 801 0) 0 .emerg ⟨[104, 105], [.chunk 1]⟩) = some (r, s) ∧ r ≤ 0 ∧
      [104, 105] = seen ++ unread s.q s.i ∧ s.posts = expected seen ∧ (r = 0 → seen = [104, 105]) ∧
      (.error ∉ [ReadAns.chunk 1] → r = 0) :=
  (doLog_posts List.length_replicate 0 .emerg ⟨[104, 105], [.chunk 1]⟩ (by decide)).1

end Perp.Sissylog
