import Mathlib.Algebra.Order.Ring.Nat
import Perp.Cstr

set_option autoImplicit false

/-!
# The search for a program

`execvx()`: the elements of a search path are tried in order.
-/
namespace Perp.Execvx
open Cstr

def ENOENT : ℤ := 2
def EPERM : ℤ := 1
def EACCES : ℤ := 13
def EISDIR : ℤ := 21
def ENAMETOOLONG : ℤ := 36

/-- `EXECVX_PATH` is `/bin:/usr/bin`. -/
def execvxPath : List UInt8 := [47, 98, 105, 110, 58, 47, 117, 115, 114, 47, 98, 105, 110]

/-- What has been given to `execve()`, `errno` and `last_errno`, and whether the program has
been replaced -/
structure Search where
  tried : List (List UInt8)
  errno : ℤ
  lastErrno : ℤ
  replaced : Bool
  deriving DecidableEq, Repr

section code
variable (pathMax : ℕ) (answer : ℕ → Option ℤ) (prog : List UInt8)

/-- The call number `i` succeeds, or fails with the `errno` of `answer i`. -/
def execve (path : List UInt8) (x : Search) : Search :=
  match answer x.tried.length with
  | none => { x with tried := x.tried ++ [path], replaced := true }
  | some e => { x with tried := x.tried ++ [path], errno := e }

/-- One path is tried; the search goes on at `nextpath` or is left. -/
def attempt (tpath : List UInt8) (x : Search) : Search × Bool :=
  if pathMax < tpath.length then ({ x with errno := ENAMETOOLONG }, true)
  else
    let x := execve answer tpath x
    if x.replaced then (x, false)
    else if x.errno ≠ ENOENT then
      ({ x with lastErrno := x.errno },
        x.errno = EACCES || x.errno = EPERM || x.errno = EISDIR)
    else (x, true)

/-- Where the search goes on: a last colon is left to stand for the current directory. -/
def nextpath (path : List UInt8) (tok : ℕ) : List UInt8 :=
  if tok = 0 then path.tail
  else
    let path := path.drop tok
    if path.head? = some 58 ∧ path.tail ≠ [] then path.tail else path

def tpath (path : List UInt8) (tok : ℕ) : List UInt8 :=
  (if 0 < tok then path.take tok else [46]) ++ 47 :: prog

theorem nextpath_length {path : List UInt8} (h : path ≠ []) (tok : ℕ) :
    (nextpath path tok).length < path.length := by
  have hpos := List.length_pos_iff.mpr h
  simp only [nextpath]
  split_ifs with htok <;> simp only [List.length_tail, List.length_drop] <;> omega

def loop (path : List UInt8) (x : Search) : Search :=
  if path = [] then x
  else
    let tok := cstrPos path 58
    let out := attempt pathMax answer (tpath prog path tok) x
    if out.2 then loop (nextpath path tok) out.1 else out.1
termination_by path.length
decreasing_by exact nextpath_length (by assumption) _

/-- The return, none where the program has been replaced, and what has been done.
`env` is `PATH` of the environment. -/
def execvx (errno : ℤ) (search env : Option (List UInt8)) : Option ℤ × Search :=
  let x : Search := ⟨[], errno, 0, false⟩
  if prog = [] then (some (-1), { x with errno := ENOENT })
  else
    let x :=
      if cstrPos prog 47 < prog.length then execve answer prog x
      else
        let x := loop pathMax answer prog (search.getD (env.getD execvxPath)) x
        if x.lastErrno ≠ 0 then { x with errno := x.lastErrno } else x
    (if x.replaced then none else some (-1), x)

end code

/-! ## The order of the search -/

/-- The elements that are tried: of two empty ones at the end the last is left out. -/
def tries : List (List UInt8) → List (List UInt8)
  | [] => []
  | [[], []] => [[]]
  | e :: es => e :: tries es

/-- An element in front of the program; an empty one is the current directory. -/
def candidate (prog e : List UInt8) : List UInt8 := (if e = [] then [46] else e) ++ 47 :: prog

def soft (e : ℤ) : Bool := e = ENOENT || e = EACCES || e = EPERM || e = EISDIR

/-- The paths that are given to `execve()`, the next call being number `i`: up to the first
that succeeds or fails with another `errno` -/
def attempts (answer : ℕ → Option ℤ) : ℕ → List (List UInt8) → List (List UInt8)
  | _, [] => []
  | i, p :: ps => p :: if (answer i).any soft then attempts answer (i + 1) ps else []

/-- The last failure of `n` calls other than `ENOENT` -/
def lastFailure (answer : ℕ → Option ℤ) (n : ℕ) : Option ℤ :=
  (((List.range n).filterMap answer).filter (· ≠ ENOENT)).getLast?

/-! ## The elements -/

section
variable {pathMax : ℕ} {answer : ℕ → Option ℤ} {prog path e : List UInt8} {es : List (List UInt8)}
  {x : Search}

theorem tpath_eq (prog path : List UInt8) :
    tpath prog path (cstrPos path 58) = candidate prog (path.take (cstrPos path 58)) := by
  rw [tpath, candidate]
  by_cases h : path.take (cstrPos path 58) = []
  · rw [if_pos h, (take_cstrPos_eq_nil path 58).mp h]
    rfl
  · have hpos : 0 < cstrPos path 58 := by
      apply Nat.pos_of_ne_zero
      exact fun hzero => h ((take_cstrPos_eq_nil path 58).mpr hzero)
    rw [if_neg h, if_pos hpos]

theorem tries_cons (h : e ≠ [] ∨ es ≠ [[]]) : tries (e :: es) = e :: tries es := by
  rw [tries]
  rintro rfl rfl
  simp at h

/-- One element further on: the search is at its end, or before the other elements. -/
theorem tries_step (h : path ≠ []) :
    tries (path.splitOn 58) = path.take (cstrPos path 58) ::
      if nextpath path (cstrPos path 58) = [] then []
      else tries ((nextpath path (cstrPos path 58)).splitOn 58) := by
  have hmem := not_mem_take_cstrPos path 58
  have hsplit := List.take_append_drop (cstrPos path 58) path
  by_cases hrest : path.drop (cstrPos path 58) = []
  · -- the last element
    have hend : nextpath path (cstrPos path 58) = [] := by
      simp only [nextpath, hrest]
      split_ifs with htok
      · rw [htok, List.drop_zero] at hrest
        exact absurd hrest h
      · rfl
      · rfl
    rw [hrest, List.append_nil] at hsplit
    rw [if_pos hend, hsplit, List.splitOn_eq_singleton (hsplit ▸ hmem)]
    exact tries_cons (.inl h)
  · obtain ⟨t, ht⟩ := drop_cstrPos hrest
    rw [ht] at hsplit
    have hes : path.splitOn 58 = path.take (cstrPos path 58) :: t.splitOn 58 := by
      conv_lhs => rw [← hsplit]
      exact List.splitOn_append_cons_self_of_not_mem hmem t
    rw [hes]
    by_cases htok : cstrPos path 58 = 0
    · have htail : nextpath path (cstrPos path 58) = t := by
        rw [nextpath, if_pos htok]
        rw [htok, List.drop_zero] at ht
        rw [ht, List.tail_cons]
      rw [htail, htok, List.take_zero]
      by_cases hnil : t = []
      · rw [if_pos hnil, hnil]
        rfl
      · rw [if_neg hnil]
        apply tries_cons
        apply Or.inr
        intro hone
        have hback : [58].intercalate (t.splitOn 58) = t := List.intercalate_splitOn 58
        rw [hone] at hback
        exact hnil hback.symm
    · have hne : path.take (cstrPos path 58) ≠ [] :=
        fun hnil => htok ((take_cstrPos_eq_nil path 58).mp hnil)
      rw [tries_cons (.inl hne)]
      by_cases hnil : t = []
      · -- a colon is left to be visited again
        have hcolon : nextpath path (cstrPos path 58) = [58] := by
          simp only [nextpath, if_neg htok, ht, hnil]
          rfl
        rw [hcolon, hnil]
        rfl
      · have htail : nextpath path (cstrPos path 58) = t := by
          simp only [nextpath, if_neg htok, ht]
          rw [if_pos ⟨rfl, hnil⟩, List.tail_cons]
        rw [htail, if_neg hnil]

/-- The paths are tried one after the other. -/
def tryAll (pathMax : ℕ) (answer : ℕ → Option ℤ) : List (List UInt8) → Search → Search
  | [], x => x
  | p :: ps, x =>
    if (attempt pathMax answer p x).2 then tryAll pathMax answer ps (attempt pathMax answer p x).1
    else (attempt pathMax answer p x).1

theorem loop_eq (h : path ≠ []) (x : Search) : loop pathMax answer prog path x =
    tryAll pathMax answer ((tries (path.splitOn 58)).map (candidate prog)) x := by
  induction hk : path.length using Nat.strongRecOn generalizing path x with
  | ind k ih =>
    rw [loop, if_neg h]
    dsimp only
    rw [tpath_eq, tries_step h, List.map_cons, tryAll]
    by_cases hon : (attempt pathMax answer (candidate prog (path.take (cstrPos path 58))) x).2 = true
    · rw [if_pos hon, if_pos hon]
      by_cases hnil : nextpath path (cstrPos path 58) = []
      · rw [if_pos hnil, hnil, loop, if_pos rfl]
        rfl
      · rw [if_neg hnil]
        exact ih _ (hk ▸ nextpath_length h _) hnil _ rfl
    · rw [if_neg hon, if_neg hon]

/-! ## The tries -/

theorem attempt_skip {p : List UInt8} (h : pathMax < p.length) :
    attempt pathMax answer p x = ({ x with errno := ENAMETOOLONG }, true) := by
  rw [attempt, if_pos h]

theorem attempt_none {p : List UInt8} (h : ¬ pathMax < p.length)
    (hanswer : answer x.tried.length = none) :
    attempt pathMax answer p x = ({ x with tried := x.tried ++ [p], replaced := true }, false) := by
  simp only [attempt, if_neg h, execve, hanswer, if_true]

/-- The search after a call that failed -/
def Search.failed (x : Search) (p : List UInt8) (e : ℤ) : Search where
  tried := x.tried ++ [p]
  errno := e
  lastErrno := if e = ENOENT then x.lastErrno else e
  replaced := x.replaced

theorem attempt_some {p : List UInt8} {e : ℤ} (h : ¬ pathMax < p.length) (hx : x.replaced = false)
    (hanswer : answer x.tried.length = some e) :
    attempt pathMax answer p x = (x.failed p e, soft e) := by
  simp only [attempt, if_neg h, execve, hanswer, hx, Bool.false_eq_true, if_false]
  by_cases he : e = ENOENT
  · simp [Search.failed, hx, he, soft]
  · simp [Search.failed, hx, he, soft]

theorem lastFailure_succ (answer : ℕ → Option ℤ) (n : ℕ) : lastFailure answer (n + 1) =
    if (answer n).all (· = ENOENT) then lastFailure answer n else answer n := by
  rw [lastFailure, List.range_succ, List.filterMap_append, List.filter_append]
  cases hanswer : answer n with
  | none =>
    rw [List.filterMap_cons_none hanswer, List.filterMap_nil, List.filter_nil, List.append_nil]
    rfl
  | some e =>
    rw [List.filterMap_cons_some hanswer, List.filterMap_nil]
    by_cases he : e = ENOENT
    · simp [he, lastFailure]
    · simp [he]

/-- So far all calls have failed softly. -/
structure Going (answer : ℕ → Option ℤ) (x : Search) : Prop where
  replaced : x.replaced = false
  soft : ∀ i < x.tried.length, (answer i).any soft = true
  last : x.lastErrno = (lastFailure answer x.tried.length).getD 0

/-- What is known when the search is left -/
structure Left (answer : ℕ → Option ℤ) (x : Search) : Prop where
  replaced : x.replaced = true ↔ ∃ i < x.tried.length, answer i = none
  errno : x.replaced = false → ∀ e ∈ lastFailure answer x.tried.length,
    (if x.lastErrno ≠ 0 then x.lastErrno else x.errno) = e

theorem Going.left (h : Going answer x) : Left answer x := by
  constructor
  · rw [h.replaced]
    apply iff_of_false Bool.false_ne_true
    rintro ⟨i, hi, hnone⟩
    have hsoft := h.soft i hi
    rw [hnone] at hsoft
    exact Bool.false_ne_true hsoft
  · intro _ e he
    have hlast := h.last
    rw [he, Option.getD_some] at hlast
    have hmem := List.mem_of_getLast? he
    rw [List.mem_filter, List.mem_filterMap] at hmem
    obtain ⟨i, hi, hanswer⟩ := hmem.1
    have hsoft := h.soft i (List.mem_range.mp hi)
    rw [hanswer] at hsoft
    have hne : e ≠ 0 := by
      rintro rfl
      exact absurd hsoft (by decide)
    rw [if_pos (hlast ▸ hne), hlast]

theorem Search.failed_length (x : Search) (p : List UInt8) (e : ℤ) :
    (x.failed p e).tried.length = x.tried.length + 1 := by
  rw [Search.failed, List.length_append, List.length_singleton]

theorem going_failed {e : ℤ} (h : Going answer x) (hanswer : answer x.tried.length = some e)
    (hsoft : soft e = true) (p : List UInt8) : Going answer (x.failed p e) := by
  constructor
  · exact h.replaced
  · intro i hi
    rw [Search.failed_length] at hi
    rcases Nat.lt_succ_iff_lt_or_eq.mp hi with hi | rfl
    · exact h.soft i hi
    · rw [hanswer]
      exact hsoft
  · rw [Search.failed_length, lastFailure_succ, hanswer, Search.failed, h.last]
    by_cases he : e = ENOENT
    · simp [he]
    · simp [he]

/-- A failure that is not soft is the last one. -/
theorem left_failed {e : ℤ} (h : Going answer x) (hanswer : answer x.tried.length = some e)
    (hhard : ¬ soft e = true) (p : List UInt8) : Left answer (x.failed p e) := by
  have he : e ≠ ENOENT := by
    rintro rfl
    exact hhard rfl
  constructor
  · rw [Search.failed, h.replaced]
    apply iff_of_false Bool.false_ne_true
    rintro ⟨i, hi, hnone⟩
    rw [List.length_append, List.length_singleton] at hi
    rcases Nat.lt_succ_iff_lt_or_eq.mp hi with hi | rfl
    · have hs := h.soft i hi
      rw [hnone] at hs
      exact Bool.false_ne_true hs
    · rw [hanswer] at hnone
      exact Option.some_ne_none e hnone
  · intro _ d hd
    rw [Search.failed_length, lastFailure_succ, hanswer] at hd
    simp only [Option.all_some, he, decide_false, Bool.false_eq_true, if_false] at hd
    obtain rfl := Option.some.inj hd
    rw [Search.failed, if_neg he]
    exact ite_self _

theorem tryAll_spec (ps : List (List UInt8)) (h : Going answer x) :
    (tryAll pathMax answer ps x).tried = x.tried ++
        attempts answer x.tried.length (ps.filter (·.length ≤ pathMax)) ∧
      Left answer (tryAll pathMax answer ps x) := by
  induction ps generalizing x with
  | nil => exact ⟨(List.append_nil _).symm, h.left⟩
  | cons p ps ih =>
    rw [tryAll]
    by_cases hlong : pathMax < p.length
    · rw [attempt_skip hlong, List.filter_cons_of_neg (by simpa using hlong), if_pos rfl]
      exact ih ⟨h.replaced, h.soft, h.last⟩
    · rw [List.filter_cons_of_pos (by simpa using hlong), attempts]
      cases hanswer : answer x.tried.length with
      | none =>
        rw [attempt_none hlong hanswer, if_neg Bool.false_ne_true]
        refine ⟨rfl, ⟨iff_of_true rfl ⟨x.tried.length, ?_, hanswer⟩, fun hr => absurd hr (by simp)⟩⟩
        rw [List.length_append, List.length_singleton]
        exact Nat.lt_succ_self _
      | some e =>
        rw [attempt_some hlong h.replaced hanswer]
        by_cases hsoft : soft e = true
        · obtain ⟨htried, hleft⟩ := ih (going_failed h hanswer hsoft p)
          simp only [hsoft, Option.any_some, if_true]
          rw [htried, Search.failed_length, Search.failed, List.append_assoc]
          exact ⟨rfl, hleft⟩
        · simp only [hsoft, Option.any_some, Bool.false_eq_true, if_false]
          exact ⟨rfl, left_failed h hanswer hsoft p⟩

theorem tries_nonempty (es : List (List UInt8)) :
    (tries es).filter (· ≠ []) = es.filter (· ≠ []) := by
  fun_induction tries es with
  | case1 => rfl
  | case2 => rfl
  | case3 e es _ ih => rw [List.filter_cons, List.filter_cons, ih]

theorem tries_last (es : List (List UInt8)) : (tries es).getLast? = es.getLast? := by
  fun_induction tries es with
  | case1 => rfl
  | case2 => rfl
  | case3 e es _ ih => rw [List.getLast?_cons, List.getLast?_cons, ih]

end

/-- A program without a slash is tried in the elements of the search path: in order, each
element that is not empty once, and a current directory at the end at least once. Only paths
that are too long are passed over. -/
theorem execvx_search (pathMax : ℕ) (answer : ℕ → Option ℤ) (errno : ℤ) (prog search : Text)
    (env : Option (List UInt8)) (hprog : prog.bytes ≠ []) (hslash : 47 ∉ prog.bytes)
    (hsearch : search.bytes ≠ []) :
    let elements := search.bytes.splitOn 58
    let paths := ((tries elements).map (candidate prog.bytes)).filter (·.length ≤ pathMax)
    let out := execvx pathMax answer prog.bytes errno (some search.bytes) env
    out.2.tried = attempts answer 0 paths ∧
      (out.1 = none ↔ ∃ i < out.2.tried.length, answer i = none) ∧ (out.1 = none ∨ out.1 = some (-1)) ∧
      (out.1 ≠ none → ∀ e ∈ lastFailure answer out.2.tried.length, out.2.errno = e) ∧
      (tries elements).filter (· ≠ []) = elements.filter (· ≠ []) ∧
      (tries elements).getLast? = elements.getLast? := by
  have hpos : ¬ cstrPos prog.bytes 47 < prog.bytes.length := by
    intro hlt
    have hne : prog.bytes.drop (cstrPos prog.bytes 47) ≠ [] := by
      rw [ne_eq, List.drop_eq_nil_iff]
      omega
    obtain ⟨t, ht⟩ := drop_cstrPos hne
    exact hslash (List.mem_of_mem_drop (ht ▸ List.mem_cons_self))
  have hstart : Going answer ⟨[], errno, 0, false⟩ :=
    ⟨rfl, fun i hi => absurd hi (Nat.not_lt_zero i), rfl⟩
  obtain ⟨htried, hleft⟩ := @tryAll_spec pathMax answer _
    ((tries (search.bytes.splitOn 58)).map (candidate prog.bytes)) hstart
  rw [← loop_eq hsearch] at htried hleft
  simp only [execvx, if_neg hprog, if_neg hpos, Option.getD_some]
  generalize loop pathMax answer prog.bytes search.bytes ⟨[], errno, 0, false⟩ = y at htried hleft
  have hreplaced : ∀ y : Search,
      (if y.lastErrno ≠ 0 then { y with errno := y.lastErrno } else y).replaced = y.replaced := by
    intro y
    split_ifs <;> rfl
  have hsame : ∀ y : Search,
      (if y.lastErrno ≠ 0 then { y with errno := y.lastErrno } else y).tried = y.tried := by
    intro y
    split_ifs <;> rfl
  have herrno : ∀ y : Search,
      (if y.lastErrno ≠ 0 then { y with errno := y.lastErrno } else y).errno =
        if y.lastErrno ≠ 0 then y.lastErrno else y.errno := by
    intro y
    split_ifs <;> rfl
  rw [hreplaced, hsame, herrno]
  refine ⟨htried, ?_, ?_, ?_, tries_nonempty _, tries_last _⟩
  · rw [← hleft.replaced]
    cases y.replaced <;> simp
  · cases y.replaced <;> simp
  · intro hret
    apply hleft.errno
    cases hy : y.replaced with
    | false => rfl
    | true => simp [hy] at hret

/-- `p` is looked for in `a:`, and not found. -/
theorem execvx_search_p : (47 : UInt8) ∉ [112] ∧
    (execvx 4096 (fun _ => some ENOENT) [112] 0 (some [97, 58]) none).2.tried =
      attempts (fun _ => some ENOENT) 0
        (((tries ([97, 58].splitOn 58)).map (candidate [112])).filter (·.length ≤ 4096)) :=
  ⟨by decide, (execvx_search 4096 (fun _ => some ENOENT) 0 ⟨[112], by decide⟩ ⟨[97, 58], by decide⟩
    none (by decide) (by decide) (by decide)).1⟩

/-- Nothing is tried for an empty name. -/
theorem execvx_empty : ¬ ∀ prog search : Text, 47 ∉ prog.bytes → search.bytes ≠ [] →
    (execvx 4096 (fun _ => some ENOENT) prog.bytes 0 (some search.bytes) none).2.tried =
      attempts (fun _ => some ENOENT) 0
        (((tries (search.bytes.splitOn 58)).map (candidate prog.bytes)).filter
          (·.length ≤ 4096)) := by
  intro h
  have htried := h ⟨[], by decide⟩ ⟨[97], by decide⟩ (by decide) (by decide)
  exact absurd htried (by decide)

end Perp.Execvx
