import Mathlib.Algebra.Order.Ring.Nat
import Mathlib.Logic.Function.Basic
import Perp.Cstr

set_option autoImplicit false

/-!
# Growable buffers

The operations of `lasagna/dynbuf` on a set of buffers, with the bytes of an allocation that
have not been written.
-/
namespace Perp.Dynbufs
open Cstr

/-! ## The operations -/

/-- The bytes of an allocation; `none` is a byte that nothing has been stored in. -/
abbrev Cells := List (Option UInt8)

/-- `struct dynbuf`. A `buf` of `none` is NULL. -/
structure Dynbuf where
  buf : Option Cells
  n : ℕ
  p : ℕ
  deriving DecidableEq, Repr

/-- `dynbuf_INIT()`, and what `dynbuf_new()` makes -/
inductive Start where
  | init
  | new
  deriving DecidableEq, Repr

def Start.dynbuf : Start → Dynbuf
  | .init => ⟨none, 0, 0⟩
  | .new => ⟨some [none], 1, 0⟩

/-- `realloc()` that succeeds -/
def realloc (cells : Cells) (size : ℕ) : Cells :=
  cells.take size ++ List.replicate (size - cells.length) none

/-- `got` tells whether an allocation would succeed. -/
def dynbufNeed (got : Bool) (d : Dynbuf) (need : ℕ) : ℤ × Dynbuf :=
  if d.buf = none ∨ d.n < need then
    let need := need + (need / 4 + 8)
    if got then (0, { d with buf := some (realloc (d.buf.getD []) need), n := need }) else (-1, d)
  else (0, d)

def dynbufGrow (got : Bool) (d : Dynbuf) (add : ℕ) : ℤ × Dynbuf :=
  dynbufNeed got d (if d.buf = none then add else add + d.p)

/-- `buf_copy()` to the place `i` of the buffer, within its allocation -/
def bufCopy (d : Dynbuf) (i : ℕ) (src : Cells) : Option Dynbuf :=
  let cells := d.buf.getD []
  if i + src.length ≤ cells.length then
    some { d with buf := d.buf.map fun _ => cells.take i ++ src ++ cells.drop (i + src.length) }
  else none

def dynbufCopybuf (got : Bool) (d : Dynbuf) (src : Cells) : Option (ℤ × Dynbuf) :=
  let out := dynbufNeed got d (src.length + 1)
  if out.1 ≠ 0 then some (-1, out.2)
  else do
    let d ← bufCopy out.2 0 src
    let d := { d with p := src.length }
    let d ← bufCopy d d.p [some 90]
    return (0, d)

def dynbufPutbuf (got : Bool) (d : Dynbuf) (src : Cells) : Option (ℤ × Dynbuf) :=
  if d.n = 0 then dynbufCopybuf got d src
  else
    let out := dynbufGrow got d (src.length + 1)
    if out.1 ≠ 0 then some (-1, out.2)
    else do
      let d ← bufCopy out.2 out.2.p src
      let d := { d with p := d.p + src.length }
      let d ← bufCopy d d.p [some 81]
      return (0, d)

/-- `len` bytes from a buffer's start, within its allocation -/
def load (d : Dynbuf) (len : ℕ) : Option Cells :=
  let cells := d.buf.getD []
  if len ≤ cells.length then some (cells.take len) else none

def dynbufCopy (got : Bool) (d from_ : Dynbuf) : Option (ℤ × Dynbuf) := do
  dynbufCopybuf got d (← load from_ from_.n)

def dynbufPut (got : Bool) (d from_ : Dynbuf) : Option (ℤ × Dynbuf) := do
  dynbufPutbuf got d (← load from_ from_.n)

def dynbufCopys (got : Bool) (d : Dynbuf) (str : Text) : Option (ℤ × Dynbuf) :=
  dynbufCopybuf got d (str.bytes.map some)

def dynbufPuts (got : Bool) (d : Dynbuf) (str : Text) : Option (ℤ × Dynbuf) :=
  dynbufPutbuf got d (str.bytes.map some)

def dynbufPutnul (got : Bool) (d : Dynbuf) : Option (ℤ × Dynbuf) := dynbufPutbuf got d [some 0]

def dynbufClear (d : Dynbuf) : Dynbuf := { d with p := 0 }

/-! ## Runs -/

section
variable {ι : Type} [DecidableEq ι]

/-- An operation on the buffers of a set; the two of a copy or put are distinct. -/
inductive Op (ι : Type) where
  | copybuf (d : ι) (buf : List UInt8)
  | copy (d from_ : ι) (h : d ≠ from_)
  | copys (d : ι) (str : Text)
  | putbuf (d : ι) (buf : List UInt8)
  | put (d from_ : ι) (h : d ≠ from_)
  | puts (d : ι) (str : Text)
  | putnul (d : ι)
  | clear (d : ι)

/-- The buffer that an operation works on -/
def Op.target : Op ι → ι
  | .copybuf d _ | .copy d _ _ | .copys d _ | .putbuf d _ | .put d _ _ | .puts d _ | .putnul d
  | .clear d => d

def Op.call (got : Bool) (s : ι → Dynbuf) : Op ι → Option (ℤ × Dynbuf)
  | .copybuf d buf => dynbufCopybuf got (s d) (buf.map some)
  | .copy d from_ _ => dynbufCopy got (s d) (s from_)
  | .copys d str => dynbufCopys got (s d) str
  | .putbuf d buf => dynbufPutbuf got (s d) (buf.map some)
  | .put d from_ _ => dynbufPut got (s d) (s from_)
  | .puts d str => dynbufPuts got (s d) str
  | .putnul d => dynbufPutnul got (s d)
  | .clear d => some (0, dynbufClear (s d))

/-- One operation: its return and the buffers after it, none where it leaves an allocation -/
def step (s : ι → Dynbuf) (o : Op ι × Bool) : Option (ℤ × (ι → Dynbuf)) :=
  (o.1.call o.2 s).map fun out => (out.1, Function.update s o.1.target out.2)

/-! ## What they are for -/

def contents (d : Dynbuf) : Cells := (d.buf.getD []).take d.p

/-- What the contents of the target are to be -/
def Op.wanted (s : ι → Dynbuf) : Op ι → Cells
  | .copybuf _ buf => buf.map some
  | .copy _ from_ _ => contents (s from_)
  | .copys _ str => str.bytes.map some
  | .putbuf d buf => contents (s d) ++ buf.map some
  | .put d from_ _ => contents (s d) ++ contents (s from_)
  | .puts d str => contents (s d) ++ str.bytes.map some
  | .putnul d => contents (s d) ++ [some 0]
  | .clear _ => []

/-- A buffer is as its fields say, and all of its contents have been stored. -/
structure Sound (d : Dynbuf) : Prop where
  size : d.n = (d.buf.getD []).length
  used : d.buf ≠ none → d.p < d.n
  null : d.buf = none → d.p = 0
  stored : none ∉ contents d

/-- The operation has done what it is for, or no memory was to be had and nothing is changed. -/
def Effect (s : ι → Dynbuf) (o : Op ι × Bool) (r : ℤ) (s' : ι → Dynbuf) : Prop :=
  r = 0 ∧ contents (s' o.1.target) = o.1.wanted s ∧ (∀ i, i ≠ o.1.target → s' i = s i) ∨
    r = -1 ∧ o.2 = false ∧ s' = s

/-- All operations have their effect, and all buffers are sound in all states. -/
def Right : (ι → Dynbuf) → List (Op ι × Bool) → Prop
  | s, [] => ∀ i, Sound (s i)
  | s, o :: os => (∀ i, Sound (s i)) ∧
    ∃ r s', step s o = some (r, s') ∧ Effect s o r s' ∧ Right s' os

/-- No memory is to be had for `len` more bytes behind the first `p`. -/
def Denied (got : Bool) (d : Dynbuf) (p len : ℕ) : Prop :=
  (d.buf = none ∨ d.n < p + len + 1) ∧ got = false

/-- The other buffer of a copy or put has no allocation, or there is no memory for its size. -/
def Spared (s : ι → Dynbuf) (o : Op ι × Bool) : Prop :=
  match o.1 with
  | .copy d from_ _ => (s from_).buf = none ∨ Denied o.2 (s d) 0 (s from_).n
  | .put d from_ _ => (s from_).buf = none ∨ Denied o.2 (s d) (s d).p (s from_).n
  | _ => True

/-- So are all operations of the run. -/
def AllSpared : (ι → Dynbuf) → List (Op ι × Bool) → Prop
  | _, [] => True
  | s, o :: os => Spared s o ∧ ∀ r s', step s o = some (r, s') → AllSpared s' os

end

/-! ## One buffer -/

section
variable {got : Bool} {d : Dynbuf} {cells src : Cells} {n p i need : ℕ}

theorem need_denied (h : d.buf = none ∨ d.n < need) : dynbufNeed false d need = (-1, d) := by
  rw [dynbufNeed, if_pos h]
  rfl

/-- A larger allocation keeps what is stored. -/
theorem realloc_keeps {size : ℕ} (hsize : cells.length ≤ size) (hp : p ≤ cells.length) :
    (realloc cells size).length = size ∧ (realloc cells size).take p = cells.take p := by
  constructor
  · rw [realloc, List.length_append, List.length_take, List.length_replicate]
    omega
  · rw [realloc, List.take_of_length_le hsize, List.take_append_of_le_length hp]

theorem need_met (hd : Sound d) (h : ¬ ((d.buf = none ∨ d.n < need) ∧ got = false)) :
    ∃ cells : Cells, dynbufNeed got d need = (0, ⟨some cells, cells.length, d.p⟩) ∧
      need ≤ cells.length ∧ cells.take d.p = contents d := by
  by_cases hmore : d.buf = none ∨ d.n < need
  · have hgot : got = true := by
      cases got with
      | true => rfl
      | false => exact absurd ⟨hmore, rfl⟩ h
    have hp : d.p ≤ (d.buf.getD []).length := by
      rw [← hd.size]
      by_cases hbuf : d.buf = none
      · rw [hd.null hbuf]
        exact Nat.zero_le _
      · exact (hd.used hbuf).le
    have hsmall : (d.buf.getD []).length ≤ need + (need / 4 + 8) := by
      rw [← hd.size]
      rcases hmore with hbuf | hlt
      · rw [hd.size, hbuf]
        exact Nat.zero_le _
      · omega
    obtain ⟨hlen, htake⟩ := realloc_keeps hsmall hp
    refine ⟨realloc (d.buf.getD []) (need + (need / 4 + 8)), ?_, by omega, htake⟩
    rw [dynbufNeed, if_pos hmore, hlen, hgot]
    rfl
  · obtain ⟨hbuf, hlt⟩ := not_or.mp hmore
    obtain ⟨cells, hcells⟩ := Option.ne_none_iff_exists'.mp hbuf
    have hsize := hd.size
    rw [hcells, Option.getD_some] at hsize
    refine ⟨cells, ?_, by omega, ?_⟩
    · rw [dynbufNeed, if_neg hmore, ← hsize, ← hcells]
    · rw [contents, hcells]
      rfl

theorem bufCopy_met (h : i + src.length ≤ cells.length) :
    ∃ cells' : Cells, bufCopy ⟨some cells, n, p⟩ i src = some ⟨some cells', n, p⟩ ∧
      cells'.length = cells.length ∧ cells'.take (i + src.length) = cells.take i ++ src ∧
      cells'.take i = cells.take i := by
  refine ⟨cells.take i ++ src ++ cells.drop (i + src.length), ?_, ?_, ?_, ?_⟩
  · rw [bufCopy]
    exact if_pos h
  · simp only [List.length_append, List.length_take, List.length_drop]
    omega
  · have hlen : (cells.take i ++ src).length = i + src.length := by
      rw [List.length_append, List.length_take]
      omega
    rw [← hlen, List.take_left]
  · have hlen : (cells.take i).length = i := by
      rw [List.length_take]
      omega
    rw [List.append_assoc, List.take_append_of_le_length hlen.ge, List.take_take, Nat.min_self]

/-- A call that has returned 0 and left `want` as the contents -/
def Done (call : Option (ℤ × Dynbuf)) (want : Cells) : Prop :=
  ∃ (cells : Cells) (p : ℕ), call = some (0, ⟨some cells, cells.length, p⟩) ∧ p < cells.length ∧
    cells.take p = want

/-- Bytes at the place `i`, with the mark behind them -/
theorem store_done (mark : Option UInt8) (h : i + src.length + 1 ≤ cells.length) :
    ∃ cells', bufCopy ⟨some cells, cells.length, p⟩ i src = some ⟨some cells', cells.length, p⟩ ∧
      Done ((bufCopy ⟨some cells', cells.length, i + src.length⟩ (i + src.length) [mark]).bind
        fun d => some (0, d)) (cells.take i ++ src) := by
  obtain ⟨cells', hcopy, hlen, htake, -⟩ := bufCopy_met (n := cells.length) (p := p)
    (show i + src.length ≤ cells.length by omega)
  refine ⟨cells', hcopy, ?_⟩
  obtain ⟨cells'', hmark, hlen', -, htake'⟩ := bufCopy_met (n := cells.length) (p := i + src.length)
    (show i + src.length + [mark].length ≤ cells'.length by rw [hlen]; exact h)
  rw [hmark, Option.bind_some, ← htake, ← htake', ← hlen, ← hlen']
  exact ⟨cells'', _, rfl, by omega, rfl⟩

theorem copybuf_done (hd : Sound d) (h : ¬ Denied got d 0 src.length) :
    Done (dynbufCopybuf got d src) src := by
  rw [Denied, Nat.zero_add] at h
  obtain ⟨cells, hneed, hle, -⟩ := need_met hd h
  obtain ⟨cells', hcopy, hdone⟩ := store_done (i := 0) (p := d.p) (some 90)
    (by rw [Nat.zero_add]; exact hle)
  rw [List.take_zero, List.nil_append, Nat.zero_add] at hdone
  simp only [dynbufCopybuf, hneed, hcopy]
  exact hdone

theorem copybuf_denied (h : Denied got d 0 src.length) : dynbufCopybuf got d src = some (-1, d) := by
  obtain ⟨hmore, rfl⟩ := h
  rw [Nat.zero_add] at hmore
  rw [dynbufCopybuf, need_denied hmore]
  rfl

theorem Sound.empty (hd : Sound d) (hn : d.n = 0) : d.buf = none ∧ d.p = 0 ∧ contents d = [] := by
  have hbuf : d.buf = none := by
    by_contra hbuf
    have hlt := hd.used hbuf
    omega
  refine ⟨hbuf, hd.null hbuf, ?_⟩
  rw [contents, hbuf]
  exact List.take_nil

theorem putbuf_done (hd : Sound d) (h : ¬ Denied got d d.p src.length) :
    Done (dynbufPutbuf got d src) (contents d ++ src) := by
  by_cases hn : d.n = 0
  · obtain ⟨hbuf, hp, hempty⟩ := hd.empty hn
    rw [hp] at h
    rw [dynbufPutbuf, if_pos hn, hempty, List.nil_append]
    exact copybuf_done hd h
  · have hbuf : d.buf ≠ none := by
      intro hbuf
      have hsize := hd.size
      rw [hbuf] at hsize
      exact hn hsize
    have hadd : src.length + 1 + d.p = d.p + src.length + 1 := by omega
    obtain ⟨cells, hneed, hle, htake⟩ := need_met hd h
    obtain ⟨cells', hcopy, hdone⟩ := store_done (p := d.p) (some 81) hle
    rw [htake] at hdone
    simp only [dynbufPutbuf, if_neg hn, dynbufGrow, if_neg hbuf, hadd, hneed, hcopy]
    exact hdone

theorem putbuf_denied (hd : Sound d) (h : Denied got d d.p src.length) :
    dynbufPutbuf got d src = some (-1, d) := by
  by_cases hn : d.n = 0
  · obtain ⟨-, hp, -⟩ := hd.empty hn
    rw [hp] at h
    rw [dynbufPutbuf, if_pos hn]
    exact copybuf_denied h
  · obtain ⟨hmore, rfl⟩ := h
    have hbuf : d.buf ≠ none := by
      intro hbuf
      have hsize := hd.size
      rw [hbuf] at hsize
      exact hn hsize
    have hadd : src.length + 1 + d.p = d.p + src.length + 1 := by omega
    rw [dynbufPutbuf, if_neg hn, dynbufGrow, if_neg hbuf, hadd, need_denied hmore]
    rfl

theorem load_all (hd : Sound d) : load d d.n = some (d.buf.getD []) := by
  rw [load, hd.size]
  simp

/-- Where there is an allocation its size is not the length. -/
theorem Sound.lt (hd : Sound d) (hbuf : d.buf ≠ none) :
    (contents d).length < (d.buf.getD []).length := by
  have hlt := hd.used hbuf
  rw [hd.size] at hlt
  rw [contents, List.length_take]
  omega

theorem Sound.nothing (hd : Sound d) (hbuf : d.buf = none) :
    d.buf.getD [] = [] ∧ contents d = [] ∧ d.n = 0 := by
  have hsize := hd.size
  rw [contents, hbuf] at *
  exact ⟨rfl, List.take_nil, hsize⟩

theorem Sound.of_done {call : Option (ℤ × Dynbuf)} {want : Cells} (h : Done call want)
    (hwant : none ∉ want) : ∃ d, call = some (0, d) ∧ contents d = want ∧ Sound d := by
  obtain ⟨cells, p, hcall, hlt, htake⟩ := h
  refine ⟨⟨some cells, cells.length, p⟩, hcall, htake, ⟨rfl, fun _ => hlt, ?_, ?_⟩⟩
  · exact fun hbuf => absurd hbuf (Option.some_ne_none cells)
  · rw [← htake] at hwant
    exact hwant

theorem none_not_mem_map (bytes : List UInt8) : none ∉ bytes.map some := by
  simp

end

/-! ## One operation -/

section
variable {ι : Type} {s s' : ι → Dynbuf} {o : Op ι} {got : Bool} {r : ℤ} {d : ι} {src : Cells}

/-- A call of an operation is right, and leaves a sound buffer. -/
def Good (call : Option (ℤ × Dynbuf)) (got : Bool) (d : Dynbuf) (want : Cells) : Prop :=
  (∃ d', call = some (0, d') ∧ contents d' = want ∧ Sound d') ∨ got = false ∧ call = some (-1, d)

theorem copybuf_good {d : Dynbuf} (hd : Sound d) (hsrc : none ∉ src) :
    Good (dynbufCopybuf got d src) got d src := by
  by_cases h : Denied got d 0 src.length
  · exact .inr ⟨h.2, copybuf_denied h⟩
  · exact .inl (Sound.of_done (copybuf_done hd h) hsrc)

theorem putbuf_good {d : Dynbuf} (hd : Sound d) (hsrc : none ∉ src) :
    Good (dynbufPutbuf got d src) got d (contents d ++ src) := by
  by_cases h : Denied got d d.p src.length
  · exact .inr ⟨h.2, putbuf_denied hd h⟩
  · refine .inl (Sound.of_done (putbuf_done hd h) ?_)
    exact fun hmem => (List.mem_append.mp hmem).elim hd.stored hsrc

theorem call_good (hs : ∀ i, Sound (s i)) (hspared : Spared s (o, got)) :
    Good (o.call got s) got (s o.target) (o.wanted s) := by
  cases o with
  | copybuf d buf => exact copybuf_good (hs d) (none_not_mem_map buf)
  | copys d str => exact copybuf_good (hs d) (none_not_mem_map str.bytes)
  | putbuf d buf => exact putbuf_good (hs d) (none_not_mem_map buf)
  | puts d str => exact putbuf_good (hs d) (none_not_mem_map str.bytes)
  | putnul d => exact putbuf_good (hs d) (none_not_mem_map [0])
  | clear d =>
    refine .inl ⟨dynbufClear (s d), rfl, List.take_zero, (hs d).size, ?_, fun _ => rfl, ?_⟩
    · exact fun hbuf => Nat.lt_of_le_of_lt (Nat.zero_le _) ((hs d).used hbuf)
    · rw [contents, dynbufClear, List.take_zero]
      exact List.not_mem_nil
  | copy d from_ h =>
    simp only [Op.call, dynbufCopy, load_all (hs from_), Option.bind_eq_bind, Option.bind_some]
    rcases hspared with hnull | hdenied
    · obtain ⟨hcells, hempty, -⟩ := (hs from_).nothing hnull
      rw [hcells, Op.wanted, hempty]
      exact copybuf_good (hs d) List.not_mem_nil
    · rw [(hs from_).size] at hdenied
      exact .inr ⟨hdenied.2, copybuf_denied hdenied⟩
  | put d from_ h =>
    simp only [Op.call, dynbufPut, load_all (hs from_), Option.bind_eq_bind, Option.bind_some]
    rcases hspared with hnull | hdenied
    · obtain ⟨hcells, hempty, -⟩ := (hs from_).nothing hnull
      rw [hcells, Op.wanted, hempty]
      exact putbuf_good (hs d) List.not_mem_nil
    · rw [(hs from_).size] at hdenied
      exact .inr ⟨hdenied.2, putbuf_denied (hs d) hdenied⟩

variable [DecidableEq ι]

theorem step_effect (hs : ∀ i, Sound (s i)) (hspared : Spared s (o, got)) :
    ∃ r s', step s (o, got) = some (r, s') ∧ Effect s (o, got) r s' ∧ ∀ i, Sound (s' i) := by
  rcases call_good hs hspared with ⟨d', hcall, hwant, hsound⟩ | ⟨hgot, hcall⟩
  · refine ⟨0, Function.update s o.target d', ?_, .inl ⟨rfl, ?_, ?_⟩, ?_⟩
    · rw [step, hcall]
      rfl
    · rw [Function.update_self, hwant]
    · exact fun i hi => Function.update_of_ne hi d' s
    · intro i
      by_cases hi : i = o.target
      · rw [hi, Function.update_self]
        exact hsound
      · rw [Function.update_of_ne hi]
        exact hs i
  · refine ⟨-1, s, ?_, .inr ⟨rfl, hgot, rfl⟩, hs⟩
    rw [step, hcall]
    simp

/-- A call that leaves other contents than are wanted has not its effect. -/
theorem not_effect_of_done {want : Cells} (hdone : Done (o.call got s) want)
    (hne : want ≠ o.wanted s) (hstep : step s (o, got) = some (r, s')) :
    ¬ Effect s (o, got) r s' := by
  obtain ⟨cells, p, hcall, -, htake⟩ := hdone
  rw [step, hcall, Option.map_some] at hstep
  obtain ⟨rfl, rfl⟩ := Prod.mk.inj (Option.some.inj hstep)
  rintro (⟨-, hwant, -⟩ | ⟨hr, -⟩)
  · rw [Function.update_self] at hwant
    exact hne (htake.symm.trans hwant)
  · change (0 : ℤ) = -1 at hr
    exact absurd hr (by decide)

theorem spared_of_effect (hs : ∀ i, Sound (s i)) (hstep : step s (o, got) = some (r, s'))
    (h : Effect s (o, got) r s') : Spared s (o, got) := by
  cases o with
  | copy d from_ hne =>
    by_contra hspared
    obtain ⟨hbuf, hdenied⟩ := not_or.mp hspared
    rw [(hs from_).size] at hdenied
    have hlt := (hs from_).lt hbuf
    have hdone : Done ((Op.copy d from_ hne).call got s) ((s from_).buf.getD []) := by
      rw [Op.call, dynbufCopy, load_all (hs from_)]
      exact copybuf_done (hs d) hdenied
    refine not_effect_of_done hdone ?_ hstep h
    intro heq
    rw [Op.wanted] at heq
    rw [← heq] at hlt
    exact Nat.lt_irrefl _ hlt
  | put d from_ hne =>
    by_contra hspared
    obtain ⟨hbuf, hdenied⟩ := not_or.mp hspared
    rw [(hs from_).size] at hdenied
    have hlt := (hs from_).lt hbuf
    have hdone : Done ((Op.put d from_ hne).call got s)
        (contents (s d) ++ (s from_).buf.getD []) := by
      rw [Op.call, dynbufPut, load_all (hs from_)]
      exact putbuf_done (hs d) hdenied
    refine not_effect_of_done hdone ?_ hstep h
    intro heq
    rw [Op.wanted] at heq
    rw [List.append_cancel_left heq] at hlt
    exact Nat.lt_irrefl _ hlt
  | copybuf | copys | putbuf | puts | putnul | clear => trivial

/-! ## All operations -/

theorem Right.sound {os : List (Op ι × Bool)} (h : Right s os) : ∀ i, Sound (s i) := by
  cases os with
  | nil => exact h
  | cons o os => exact h.1

theorem right_iff (hs : ∀ i, Sound (s i)) (os : List (Op ι × Bool)) :
    Right s os ↔ AllSpared s os := by
  induction os generalizing s with
  | nil => exact iff_of_true hs trivial
  | cons o os ih =>
    rw [Right, AllSpared]
    constructor
    · rintro ⟨-, r, s', hstep, heffect, hrest⟩
      refine ⟨spared_of_effect hs hstep heffect, ?_⟩
      intro r' t ht
      rw [hstep] at ht
      obtain ⟨-, rfl⟩ := Prod.mk.inj (Option.some.inj ht)
      exact (ih hrest.sound).mp hrest
    · rintro ⟨hspared, hrest⟩
      obtain ⟨r, s', hstep, heffect, hs'⟩ := step_effect hs hspared
      exact ⟨hs, r, s', hstep, heffect, (ih hs').mpr (hrest r s' hstep)⟩

theorem start_sound (start : Start) : Sound start.dynbuf := by
  cases start with
  | init => exact ⟨rfl, fun h => absurd rfl h, fun _ => rfl, List.not_mem_nil⟩
  | new => exact ⟨rfl, fun _ => Nat.zero_lt_one, fun _ => rfl, List.not_mem_nil⟩

end

/-- From new buffers, every operation of a run does what it is for and keeps all buffers sound
exactly when no buffer with an allocation is copied or put into another. -/
theorem dynbuf_right {ι : Type} [DecidableEq ι] (start : ι → Start) (os : List (Op ι × Bool)) :
    Right (fun i => (start i).dynbuf) os ↔ AllSpared (fun i => (start i).dynbuf) os :=
  right_iff (fun i => start_sound (start i)) os

/-- One byte is put into the first of two buffers, and that copied into the second: its length
is ten. -/
theorem dynbuf_copies_allocation : ¬ ∀ (start : Bool → Start) (os : List (Op Bool × Bool)),
    Right (fun i => (start i).dynbuf) os := by
  intro h
  have hright := h (fun _ => .init)
    [(.putbuf false [65], true), (.copy true false Bool.noConfusion, true)]
  obtain ⟨-, hnext⟩ := (right_iff (fun _ => start_sound .init) _).mp hright
  rcases (hnext _ _ rfl).1 with hbuf | hdenied
  · exact absurd hbuf (by decide)
  · exact absurd hdenied.2 (by decide)

end Perp.Dynbufs
