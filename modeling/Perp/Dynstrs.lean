import Perp.Inplace
import Perp.IoqGetln

set_option autoImplicit false

/-!
# Growable strings

The operations of `lasagna/dynstr` on a set of strings, where an allocation always succeeds.
-/
namespace Perp.Dynstrs
open Cstr (Text)
open Dynbufs (Cells realloc bufCopy)
open IoqGetln (Dynstr dynstrNeed dynstrGrow strPut cstrLen dynstrPutn)

/-! ## The operations -/

/-- Where the first NUL of a string stands; none is a byte that nothing has been stored in, or
the end of the allocation. -/
def nulPos : Cells → Option ℕ
  | [] => none
  | c :: cells => c.bind fun c => if c = 0 then some 0 else (nulPos cells).map (· + 1)

/-- `cstr_copy()` to `&S->s[i]`, and its return; none is also a read through NULL. -/
def cstrCopy (S : Dynstr) (i : ℕ) (src : Option Cells) : Option (Dynstr × ℕ) := do
  let src ← src
  let n ← nulPos src
  let S ← strPut S i (src.take (n + 1))
  return (S, n)

def dynstrPut (S from_ : Dynstr) : Option (ℤ × Dynstr) :=
  let out := dynstrGrow [] S from_.n
  if out.1 = -1 then some (-1, out.2.1)
  else (cstrCopy out.2.1 out.2.1.n from_.s).map fun r => (0, { r.1 with n := r.1.n + r.2 })

def cells (str : Text) : Cells := str.bytes.map some ++ [some 0]

def dynstrPuts (S : Dynstr) (str : Text) : Option (ℤ × Dynstr) :=
  (cstrLen (str.bytes ++ [0])).bind fun grow =>
    let out := dynstrGrow [] S grow
    if out.1 = -1 then some (-1, out.2.1)
    else (cstrCopy out.2.1 out.2.1.n (some (cells str))).map fun r => (0, { r.1 with n := r.1.n + r.2 })

def dynstrPutc (S : Dynstr) (c : UInt8) : Option (ℤ × Dynstr) :=
  let out := dynstrGrow [] S 1
  if out.1 = -1 then some (-1, out.2.1)
  else do
    let S ← strPut out.2.1 out.2.1.n [some c]
    let S := { S with n := S.n + 1 }
    let S ← strPut S S.n [some 0]
    return (0, S)

/-- `dynstr_vputs()`, of one string or more -/
def dynstrVputs (S : Dynstr) (s0 : Text) : List Text → Option (ℤ × Dynstr)
  | [] => dynstrPuts S s0
  | s :: args =>
    (dynstrPuts S s0).bind fun out => if out.1 = -1 then some out else dynstrVputs out.2 s args

def dynstrCopy (S from_ : Dynstr) : Option (ℤ × Dynstr) :=
  let out := dynstrNeed [] S from_.n
  if out.1 = -1 then some (-1, out.2.1)
  else (cstrCopy out.2.1 0 from_.s).map fun r => (0, { r.1 with n := r.2 })

def dynstrCopys (S : Dynstr) (str : Text) : Option (ℤ × Dynstr) :=
  (cstrLen (str.bytes ++ [0])).bind fun need =>
    let out := dynstrNeed [] S need
    if out.1 = -1 then some (-1, out.2.1)
    else (cstrCopy out.2.1 0 (some (cells str))).map fun r => (0, { r.1 with n := r.2 })

/-- The byte at a place of the string, which must have been stored -/
def byteOf (S : Dynstr) (i : ℕ) : Option UInt8 := ((S.s.getD [])[i]?).join

def dynstrChop (S : Dynstr) : Option (ℤ × Dynstr) :=
  if S.n > 0 then
    (byteOf S (S.n - 1)).bind fun c =>
      if c = 10 then (strPut S (S.n - 1) [some 0]).map fun S => (0, { S with n := S.n - 1 })
      else some (0, S)
  else some (0, S)

/-- `dynstr_CLEAR()` -/
def dynstrClear (S : Dynstr) : Option (ℤ × Dynstr) :=
  let S := { S with n := 0 }
  if S.k ≠ 0 then (strPut S 0 [some 0]).map fun S => (0, S) else some (0, S)

/-! ## Runs -/

section
variable {ι : Type}

/-- An operation on the strings of a set; the two of a put or copy are distinct. -/
inductive Op (ι : Type) where
  | put (d from_ : ι) (h : d ≠ from_)
  | puts (d : ι) (str : Text)
  | putn (d : ι) (str : Text) (n : ℕ)
  | putc (d : ι) (c : UInt8) (h : c ≠ 0)
  | vputs (d : ι) (s0 : Text) (args : List Text)
  | copy (d from_ : ι) (h : d ≠ from_)
  | copys (d : ι) (str : Text)
  | chop (d : ι)
  | clear (d : ι)

/-- The string that an operation works on -/
def Op.target : Op ι → ι
  | .put d _ _ | .puts d _ | .putn d _ _ | .putc d _ _ | .vputs d _ _ | .copy d _ _ | .copys d _
  | .chop d | .clear d => d

def Op.call (s : ι → Dynstr) : Op ι → Option (ℤ × Dynstr)
  | .put d from_ _ => dynstrPut (s d) (s from_)
  | .puts d str => dynstrPuts (s d) str
  | .putn d str n => (dynstrPutn [] (s d) (str.bytes ++ [0]) n).map fun out => (out.1, out.2.1)
  | .putc d c _ => dynstrPutc (s d) c
  | .vputs d s0 args => dynstrVputs (s d) s0 args
  | .copy d from_ _ => dynstrCopy (s d) (s from_)
  | .copys d str => dynstrCopys (s d) str
  | .chop d => dynstrChop (s d)
  | .clear d => dynstrClear (s d)

variable [DecidableEq ι]

/-- One operation: the strings after it; none where it fails, reads what is not there or
leaves an allocation. -/
def step (s : ι → Dynstr) (o : Op ι) : Option (ι → Dynstr) :=
  (o.call s).bind fun out => if out.1 = 0 then some (Function.update s o.target out.2) else none

/-- `dynstr_INIT()` for all of them -/
def init : ι → Dynstr := fun _ => ⟨none, 0, 0⟩

/-! ## What they are for -/

/-- A string is NULL, and empty, or ends in its only NUL. -/
def Holds (S : Dynstr) (str : List UInt8) : Prop :=
  0 ∉ str ∧ (S = ⟨none, 0, 0⟩ ∧ str = [] ∨
    ∃ tail : Cells, S.s = some (str.map some ++ some 0 :: tail) ∧ S.n = str.length ∧
      S.k = str.length + 1 + tail.length)

/-- A newline at the end is taken away. -/
def chopped (str : List UInt8) : List UInt8 := if str.getLast? = some 10 then str.dropLast else str

/-- What the target of an operation is to hold -/
def Op.wanted (a : ι → List UInt8) : Op ι → List UInt8
  | .put d from_ _ => a d ++ a from_
  | .puts d str => a d ++ str.bytes
  | .putn d str n => a d ++ str.bytes.take n
  | .putc d c _ => a d ++ [c]
  | .vputs d s0 args => a d ++ s0.bytes ++ args.flatMap Text.bytes
  | .copy _ from_ _ => a from_
  | .copys _ str => str.bytes
  | .chop d => chopped (a d)
  | .clear _ => []

/-- The strings after an operation are what they are to be, and the run goes on so. -/
def Right : (ι → Dynstr) → (ι → List UInt8) → List (Op ι) → Prop
  | s, a, [] => ∀ i, Holds (s i) (a i)
  | s, a, o :: os => (∀ i, Holds (s i) (a i)) ∧
    ∃ s', step s o = some s' ∧ Right s' (Function.update a o.target (o.wanted a)) os

/-- The other string of a put or copy is not NULL. -/
def Sourced (s : ι → Dynstr) : Op ι → Prop
  | .put _ from_ _ | .copy _ from_ _ => (s from_).s ≠ none
  | _ => True

def AllSourced : (ι → Dynstr) → List (Op ι) → Prop
  | _, [] => True
  | s, o :: os => Sourced s o ∧ ∀ s', step s o = some s' → AllSourced s' os

end

/-! ## One string -/

section
variable {S : Dynstr} {str bytes : List UInt8} {pre tail src : Cells} {n k g need : ℕ}

theorem strPut_at (pre tail src : Cells) (n k : ℕ) (h : src.length ≤ tail.length) :
    strPut ⟨some (pre ++ tail), n, k⟩ pre.length src =
      some ⟨some (pre ++ src ++ tail.drop src.length), n, k⟩ := by
  have hfits : pre.length + src.length ≤ (pre ++ tail).length := by
    rw [List.length_append]
    omega
  have hdrop : (pre ++ tail).drop (pre.length + src.length) = tail.drop src.length := by
    rw [← List.drop_drop, List.drop_left]
  have hcopy : bufCopy ⟨some (pre ++ tail), k, n⟩ pre.length src =
      some ⟨some (pre ++ src ++ tail.drop src.length), k, n⟩ := by
    rw [bufCopy, ← hdrop]
    simp only [Option.getD_some, if_pos hfits, Option.map_some, List.take_left]
  rw [strPut, hcopy]
  rfl

theorem nulPos_eq (h : 0 ∉ bytes) (rest : Cells) :
    nulPos (bytes.map some ++ some 0 :: rest) = some bytes.length := by
  induction bytes with
  | nil => rfl
  | cons c bytes ih =>
    have hc : c ≠ 0 := fun hc => h (List.mem_cons.mpr (.inl hc.symm))
    rw [List.map_cons, List.cons_append, nulPos, Option.bind_some, if_neg hc,
      ih fun hmem => h (List.mem_cons_of_mem c hmem)]
    rfl

theorem cstrCopy_at (h : 0 ∉ bytes) (hroom : bytes.length < tail.length) (pre rest : Cells) (n k : ℕ) :
    cstrCopy ⟨some (pre ++ tail), n, k⟩ pre.length (some (bytes.map some ++ some 0 :: rest)) =
      some (⟨some (pre ++ bytes.map some ++ some 0 :: tail.drop (bytes.length + 1)), n, k⟩,
        bytes.length) := by
  have hlen : (bytes.map some ++ [some (0 : UInt8)]).length = bytes.length + 1 := by
    rw [List.length_append, List.length_map, List.length_singleton]
  have htake : (bytes.map some ++ some 0 :: rest).take (bytes.length + 1) = bytes.map some ++ [some 0] := by
    have hsplit : bytes.map some ++ some 0 :: rest = bytes.map some ++ [some 0] ++ rest := by
      rw [List.append_assoc, List.singleton_append]
    rw [hsplit, ← hlen, List.take_left]
  have hput := strPut_at pre tail (bytes.map some ++ [some 0]) n k (by rw [hlen]; exact hroom)
  rw [hlen] at hput
  rw [cstrCopy]
  simp only [Option.bind_eq_bind, Option.bind_some, nulPos_eq h, htake, hput]
  simp

theorem Holds.built (h : Holds S str) : IoqGetln.Built S ∧ IoqGetln.contents S = str.map some := by
  obtain ⟨_, ⟨rfl, rfl⟩ | ⟨tail, hs, hn, hk⟩⟩ := h
  · exact ⟨⟨rfl, fun hs => absurd rfl hs, fun _ => rfl⟩, rfl⟩
  · refine ⟨⟨?_, ?_, ?_⟩, ?_⟩
    · rw [hs, hk, Option.getD_some, List.length_append, List.length_map, List.length_cons]
      omega
    · intro _
      omega
    · intro hnone
      rw [hs] at hnone
      cases hnone
    · rw [IoqGetln.contents, hs, hn, Option.getD_some, List.take_left' (List.length_map some)]

/-- Room for so many bytes and a NUL, behind what the string holds -/
theorem grow_room (h : Holds S str) (g : ℕ) :
    ∃ tail : Cells, g + 1 ≤ tail.length ∧
      dynstrGrow [] S g = (0, ⟨some (str.map some ++ tail), str.length, str.length + tail.length⟩, []) := by
  have hdenied : ¬ IoqGetln.Denied [] S g := fun hd => absurd hd.2 (by decide)
  have hlen : S.n = str.length := by
    obtain ⟨_, ⟨rfl, rfl⟩ | ⟨tail, _, hn, _⟩⟩ := h
    · rfl
    · exact hn
  obtain ⟨cells, allocs, mem, hgrow, hle, htake, hmem, _⟩ := IoqGetln.grow_done h.built.1 hdenied
  obtain rfl : mem = [] := (List.append_eq_nil_iff.mp hmem.symm).2
  have hcells : cells = str.map some ++ cells.drop str.length := by
    rw [← h.built.2, ← htake, hlen, List.take_append_drop]
  use cells.drop str.length
  have htotal : str.length + (cells.drop str.length).length = cells.length := by
    rw [List.length_drop]
    omega
  constructor
  · rw [List.length_drop]
    omega
  · rw [hgrow, htotal, ← hcells, hlen]

/-- Room for so many bytes and a NUL -/
theorem need_room (h : Holds S str) (need : ℕ) :
    ∃ cells : Cells, need + 1 ≤ cells.length ∧
      dynstrNeed [] S need = (0, ⟨some cells, S.n, cells.length⟩, []) := by
  have hbuilt := h.built.1
  by_cases hmore : S.s = none ∨ S.k < need + 1
  · have hsmall : (S.s.getD []).length ≤ need + 1 := by
      rcases hmore with hs | hk
      · rw [hs]
        exact Nat.zero_le _
      · rw [← hbuilt.size]
        omega
    have hlen := (Dynbufs.realloc_keeps hsmall (Nat.zero_le _)).1
    refine ⟨realloc (S.s.getD []) (need + 1), hlen.ge, ?_⟩
    rw [dynstrNeed, if_pos hmore, hlen]
    rfl
  · obtain ⟨hs, hk⟩ := not_or.mp hmore
    obtain ⟨cells, hcells⟩ := Option.ne_none_iff_exists'.mp hs
    have hsize := hbuilt.size
    rw [hcells, Option.getD_some] at hsize
    refine ⟨cells, by omega, ?_⟩
    rw [dynstrNeed, if_neg hmore, ← hsize, ← hcells]

/-- A call that has returned 0, and what its string holds then -/
def Good (call : Option (ℤ × Dynstr)) (want : List UInt8) : Prop :=
  ∃ S, call = some (0, S) ∧ Holds S want

theorem not_mem_append (hs : 0 ∉ str) (hb : 0 ∉ bytes) : 0 ∉ str ++ bytes := fun h =>
  (List.mem_append.mp h).elim hs hb

theorem append_good (hs : 0 ∉ str) (hb : 0 ∉ bytes) (hroom : bytes.length < tail.length) (rest : Cells) :
    Good ((cstrCopy ⟨some (str.map some ++ tail), str.length, str.length + tail.length⟩ str.length
      (some (bytes.map some ++ some 0 :: rest))).map fun r => (0, { r.1 with n := r.1.n + r.2 }))
      (str ++ bytes) := by
  have hcopy := cstrCopy_at hb hroom (str.map some) rest str.length (str.length + tail.length)
  rw [List.length_map] at hcopy
  rw [hcopy]
  refine ⟨_, rfl, not_mem_append hs hb, .inr ⟨tail.drop (bytes.length + 1), ?_, ?_, ?_⟩⟩
  · rw [List.map_append]
  · rw [List.length_append]
  · change str.length + tail.length = _
    rw [List.length_append, List.length_drop]
    omega

theorem Holds.cells (h : Holds S str) (hs : S.s ≠ none) :
    ∃ rest : Cells, S.s = some (str.map some ++ some 0 :: rest) ∧ S.n = str.length := by
  obtain ⟨_, ⟨rfl, _⟩ | ⟨tail, hcells, hn, _⟩⟩ := h
  · exact absurd rfl hs
  · exact ⟨tail, hcells, hn⟩

theorem put_good {from_ : Dynstr} (h : Holds S str) (hfrom : Holds from_ bytes) (hs : from_.s ≠ none) :
    Good (dynstrPut S from_) (str ++ bytes) := by
  obtain ⟨rest, hcells, hn⟩ := hfrom.cells hs
  obtain ⟨tail, hroom, hgrow⟩ := grow_room h from_.n
  rw [hn] at hroom
  rw [dynstrPut, hgrow, hcells]
  exact append_good h.1 hfrom.1 hroom rest

theorem cstrLen_text (str : Text) : cstrLen (str.bytes ++ [0]) = some str.bytes.length := by
  have hidx : (str.bytes ++ [0]).idxOf 0 = str.bytes.length := by
    rw [List.idxOf_append_of_notMem str.nul, List.idxOf_cons_self]
    rfl
  rw [IoqGetln.cstrLen_of_mem (List.mem_append_right _ List.mem_cons_self), hidx]

theorem puts_good (h : Holds S str) (text : Text) : Good (dynstrPuts S text) (str ++ text.bytes) := by
  obtain ⟨tail, hroom, hgrow⟩ := grow_room h text.bytes.length
  have happend := append_good h.1 text.nul hroom []
  rw [dynstrPuts, cstrLen_text]
  simp only [Option.bind_some, hgrow]
  exact happend

theorem vputs_good (h : Holds S str) (s0 : Text) (args : List Text) :
    Good (dynstrVputs S s0 args) (str ++ s0.bytes ++ args.flatMap Text.bytes) := by
  induction args generalizing S str s0 with
  | nil =>
    rw [List.flatMap_nil, List.append_nil]
    exact puts_good h s0
  | cons s args ih =>
    obtain ⟨S', hputs, hS'⟩ := puts_good h s0
    have hrest := ih hS' s
    rw [List.flatMap_cons, ← List.append_assoc, dynstrVputs, hputs]
    exact hrest

/-- Bytes with a NUL behind them, as `dynstr_putn()` and `dynstr_putc()` store them -/
theorem store_holds (hs : 0 ∉ str) (hb : 0 ∉ bytes) (hroom : bytes.length + 1 ≤ tail.length) :
    ∃ S₁ S₂, strPut ⟨some (str.map some ++ tail), str.length, str.length + tail.length⟩ str.length
        (bytes.map some) = some S₁ ∧
      strPut { S₁ with n := S₁.n + bytes.length } (S₁.n + bytes.length) [some 0] = some S₂ ∧
      Holds S₂ (str ++ bytes) := by
  have hfirst := strPut_at (str.map some) tail (bytes.map some) str.length (str.length + tail.length)
    (by rw [List.length_map]; omega)
  rw [List.length_map, List.length_map] at hfirst
  have hsecond := strPut_at (str.map some ++ bytes.map some) (tail.drop bytes.length) [some 0]
    (str.length + bytes.length) (str.length + tail.length)
    (by rw [List.length_drop, List.length_singleton]; omega)
  rw [List.length_append, List.length_map, List.length_map] at hsecond
  refine ⟨_, _, hfirst, hsecond, not_mem_append hs hb, .inr ⟨(tail.drop bytes.length).drop 1, ?_, ?_, ?_⟩⟩
  · simp
  · rw [List.length_append]
  · change str.length + tail.length = _
    rw [List.length_append, List.length_drop, List.length_drop]
    omega

theorem putc_good (h : Holds S str) {c : UInt8} (hc : c ≠ 0) : Good (dynstrPutc S c) (str ++ [c]) := by
  obtain ⟨tail, hroom, hgrow⟩ := grow_room h 1
  have hb : 0 ∉ [c] := fun hmem => hc (List.mem_singleton.mp hmem).symm
  obtain ⟨S₁, S₂, hfirst, hsecond, hholds⟩ := store_holds h.1 hb hroom
  refine ⟨S₂, ?_, hholds⟩
  rw [List.map_singleton] at hfirst
  rw [List.length_singleton] at hsecond
  rw [dynstrPutc, hgrow]
  simp [hfirst, hsecond]

theorem putn_good (h : Holds S str) (text : Text) (n : ℕ) :
    Good ((dynstrPutn [] S (text.bytes ++ [0]) n).map fun out => (out.1, out.2.1))
      (str ++ text.bytes.take n) := by
  have hle : (text.bytes.take n).length ≤ text.bytes.length := List.length_take_le' n _
  have hmin : (if n < text.bytes.length then n else text.bytes.length) = (text.bytes.take n).length := by
    rw [List.length_take]
    split <;> omega
  have htake : (text.bytes ++ [0]).take (text.bytes.take n).length = text.bytes.take n := by
    rw [List.take_append_of_le_length hle]
    exact (List.prefix_iff_eq_take.mp (List.take_prefix n text.bytes)).symm
  obtain ⟨tail, hroom, hgrow⟩ := grow_room h (text.bytes.take n).length
  have hb : 0 ∉ text.bytes.take n := fun hmem => text.nul (List.mem_of_mem_take hmem)
  obtain ⟨S₁, S₂, hfirst, hsecond, hholds⟩ := store_holds h.1 hb hroom
  have hzero : ¬ (0 : ℤ) = -1 := by decide
  refine ⟨S₂, ?_, hholds⟩
  rw [dynstrPutn, cstrLen_text]
  simp only [Option.bind_eq_bind, Option.bind_some, hmin, hgrow, if_neg hzero, htake, hfirst, hsecond]
  rfl

theorem overwrite_good (hb : 0 ∉ bytes) (hroom : bytes.length < tail.length) (n : ℕ) (rest : Cells) :
    Good ((cstrCopy ⟨some tail, n, tail.length⟩ 0 (some (bytes.map some ++ some 0 :: rest))).map fun r =>
      (0, { r.1 with n := r.2 })) bytes := by
  have hcopy := cstrCopy_at hb hroom [] rest n tail.length
  rw [List.nil_append, List.nil_append, List.length_nil] at hcopy
  rw [hcopy]
  refine ⟨_, rfl, hb, .inr ⟨tail.drop (bytes.length + 1), rfl, rfl, ?_⟩⟩
  change tail.length = _
  rw [List.length_drop]
  omega

theorem copy_good (h : Holds S str) {src : Dynstr} (hsrc : Holds src bytes) (hs : src.s ≠ none) :
    Good (dynstrCopy S src) bytes := by
  obtain ⟨rest, hcells, hn⟩ := hsrc.cells hs
  obtain ⟨cells, hroom, hneed⟩ := need_room h src.n
  rw [hn] at hroom
  rw [dynstrCopy, hneed, hcells]
  exact overwrite_good hsrc.1 hroom S.n rest

theorem copys_good (h : Holds S str) (text : Text) : Good (dynstrCopys S text) text.bytes := by
  obtain ⟨cells, hroom, hneed⟩ := need_room h text.bytes.length
  have hover := overwrite_good text.nul hroom S.n []
  rw [dynstrCopys, cstrLen_text]
  simp only [Option.bind_some, hneed]
  exact hover

theorem chop_good (h : Holds S str) : Good (dynstrChop S) (chopped str) := by
  obtain ⟨hnul, ⟨rfl, rfl⟩ | ⟨tail, hs, hn, hk⟩⟩ := h
  · exact ⟨_, rfl, hnul, .inl ⟨rfl, rfl⟩⟩
  · rcases List.eq_nil_or_concat' str with rfl | ⟨pre, c, rfl⟩
    · have hzero : ¬ S.n > 0 := by
        rw [hn]
        exact Nat.lt_irrefl 0
      rw [dynstrChop, if_neg hzero]
      exact ⟨S, rfl, hnul, .inr ⟨tail, hs, hn, hk⟩⟩
    · rw [List.length_append, List.length_singleton] at hn hk
      have hpos : S.n > 0 := by omega
      have hpred : S.n - 1 = (pre.map some).length := by
        rw [hn, List.length_map]
        rfl
      have hcells : (pre ++ [c]).map some ++ some 0 :: tail = pre.map some ++ some c :: some 0 :: tail := by
        simp
      have hbyte : byteOf S (S.n - 1) = some c := by
        rw [byteOf, hs, hcells, hpred, Option.getD_some, Inplace.get_at]
        rfl
      have hput := strPut_at (pre.map some) (some c :: some 0 :: tail) [some 0] S.n S.k (by simp)
      have hself : S = ⟨some (pre.map some ++ some c :: some 0 :: tail), S.n, S.k⟩ := by
        rw [← hcells, ← hs]
      rw [dynstrChop, if_pos hpos, hbyte, Option.bind_some, chopped, List.getLast?_concat]
      by_cases hc : c = 10
      · have hlast : some c = some 10 := congrArg some hc
        rw [List.length_map] at hpred hput
        rw [if_pos hc, if_pos hlast, List.dropLast_concat, hpred, hself, hput]
        refine ⟨_, rfl, fun hmem => hnul (List.mem_append_left _ hmem), .inr ⟨some 0 :: tail, ?_, hpred, ?_⟩⟩
        · simp
        · change S.k = _
          rw [List.length_cons]
          omega
      · have hlast : ¬ some c = some 10 := fun h => hc (Option.some.inj h)
        rw [if_neg hc, if_neg hlast]
        refine ⟨S, rfl, hnul, .inr ⟨tail, hs, ?_, ?_⟩⟩ <;>
          · rw [List.length_append, List.length_singleton]
            omega

theorem clear_good (h : Holds S str) : Good (dynstrClear S) [] := by
  obtain ⟨hnul, ⟨rfl, rfl⟩ | ⟨tail, hs, hn, hk⟩⟩ := h
  · exact ⟨_, rfl, hnul, .inl ⟨rfl, rfl⟩⟩
  · have hput := strPut_at [] (str.map some ++ some 0 :: tail) [some 0] 0 S.k
      (by rw [List.length_append, List.length_cons, List.length_cons, List.length_nil]; omega)
    have hne : S.k ≠ 0 := by omega
    rw [List.nil_append, List.nil_append, List.length_nil, ← hs] at hput
    rw [dynstrClear]
    simp only [if_pos hne, hput, Option.map_some]
    refine ⟨_, rfl, List.not_mem_nil, .inr ⟨(str.map some ++ some 0 :: tail).drop 1, rfl, rfl, ?_⟩⟩
    change S.k = _
    rw [List.length_drop, List.length_append, List.length_map, List.length_cons, List.length_nil]
    omega

end

/-! ## Runs of operations -/

section
variable {ι : Type} {s s' : ι → Dynstr} {a : ι → List UInt8} {o : Op ι}

theorem call_good (hs : ∀ i, Holds (s i) (a i)) (hsrc : Sourced s o) : Good (o.call s) (o.wanted a) := by
  cases o with
  | put d from_ h => exact put_good (hs d) (hs from_) hsrc
  | puts d str => exact puts_good (hs d) str
  | putn d str n => exact putn_good (hs d) str n
  | putc d c h => exact putc_good (hs d) h
  | vputs d s0 args => exact vputs_good (hs d) s0 args
  | copy d from_ h => exact copy_good (hs d) (hs from_) hsrc
  | copys d str => exact copys_good (hs d) str
  | chop d => exact chop_good (hs d)
  | clear d => exact clear_good (hs d)

/-- An operation that takes its bytes through NULL has no result. -/
theorem call_null (hs : ∀ i, Holds (s i) (a i)) (h : ¬ Sourced s o) : o.call s = none := by
  cases o with
  | put d from_ hne =>
    have hnull : (s from_).s = none := not_not.mp h
    obtain ⟨tail, _, hgrow⟩ := grow_room (hs d) (s from_).n
    rw [Op.call, dynstrPut, hgrow, hnull]
    rfl
  | copy d from_ hne =>
    have hnull : (s from_).s = none := not_not.mp h
    obtain ⟨cells, _, hneed⟩ := need_room (hs d) (s from_).n
    rw [Op.call, dynstrCopy, hneed, hnull]
    rfl
  | puts | putn | putc | vputs | copys | chop | clear => exact absurd trivial h

variable [DecidableEq ι]

theorem step_holds (hs : ∀ i, Holds (s i) (a i)) (hsrc : Sourced s o) :
    ∃ s', step s o = some s' ∧ ∀ i, Holds (s' i) (Function.update a o.target (o.wanted a) i) := by
  obtain ⟨S, hcall, hS⟩ := call_good hs hsrc
  refine ⟨Function.update s o.target S, ?_, ?_⟩
  · rw [step, hcall, Option.bind_some]
    exact if_pos rfl
  · intro i
    by_cases hi : i = o.target
    · rw [hi, Function.update_self, Function.update_self]
      exact hS
    · rw [Function.update_of_ne hi, Function.update_of_ne hi]
      exact hs i

theorem right_iff (hs : ∀ i, Holds (s i) (a i)) (os : List (Op ι)) : Right s a os ↔ AllSourced s os := by
  induction os generalizing s a with
  | nil => exact iff_of_true hs trivial
  | cons o os ih =>
    constructor
    · rintro ⟨_, s', hstep, hright⟩
      have hsrc : Sourced s o := by
        by_contra hnot
        rw [step, call_null hs hnot] at hstep
        cases hstep
      obtain ⟨s₁, hstep₁, hs₁⟩ := step_holds hs hsrc
      obtain rfl : s' = s₁ := Option.some.inj (hstep.symm.trans hstep₁)
      refine ⟨hsrc, ?_⟩
      intro s₂ hstep₂
      obtain rfl : s' = s₂ := Option.some.inj (hstep.symm.trans hstep₂)
      exact (ih hs₁).mp hright
    · rintro ⟨hsrc, hrest⟩
      obtain ⟨s₁, hstep₁, hs₁⟩ := step_holds hs hsrc
      exact ⟨hs, s₁, hstep₁, (ih hs₁).mpr (hrest s₁ hstep₁)⟩

/-- Runs from the start are right as long as nothing is taken from a string that is NULL. -/
theorem dynstr_run_iff (os : List (Op ι)) : Right init (fun _ => []) os ↔ AllSourced init os :=
  right_iff (fun _ => ⟨List.not_mem_nil, .inl ⟨rfl, rfl⟩⟩) os

end

/-- An untouched string is appended to another. -/
theorem dynstr_put_reads_null :
    ¬ Right (init : Bool → Dynstr) (fun _ => []) [.put true false (by decide)] := by
  rintro ⟨_, s', hstep, _⟩
  cases hstep

end Perp.Dynstrs
