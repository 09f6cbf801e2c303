import Mathlib.Algebra.Order.Ring.Nat
import Mathlib.Data.List.Basic

set_option autoImplicit false

/-!
# Gathered output

`lasagna/outvec`: buffers that wait in an array for one `writev()`, and how a write of a part
of them is resumed.
-/
namespace Perp.OutvecFlush

/-! ## The functions -/

/-- How a `writev()` goes; `again` is -1 with EINTR or EAGAIN, `error` any other -1. -/
inductive Writev where
  | again
  | error
  | wrote (w : ℕ)
  deriving DecidableEq, Repr

structure Fd where
  out : List UInt8
  writes : List Writev
  deriving DecidableEq, Repr

/-- `struct iovec[]`; `none` is an element nothing has been stored in. -/
abbrev Vec := List (Option (List UInt8))

structure Outvec where
  fd : Fd
  vec : Vec
  n : ℕ
  max : ℕ
  deriving DecidableEq, Repr

/-- `writev()` takes no more than it is given, and all of that when the script is used up. -/
def writev (fd : Fd) (bufs : List (List UInt8)) : Writev × Fd :=
  match fd.writes with
  | [] => (.wrote bufs.flatten.length, ⟨fd.out ++ bufs.flatten, []⟩)
  | .wrote w :: writes =>
    let w := min w bufs.flatten.length
    (.wrote w, ⟨fd.out ++ bufs.flatten.take w, writes⟩)
  | ret :: writes => (ret, ⟨fd.out, writes⟩)

/-- `v[i]`, which is there for `i < nvec` -/
def elem (v : Vec) (nvec i : ℕ) : Option (List UInt8) :=
  if i < nvec then (v[i]?).join else none

/-- The elements that `writev()` is given with `&v[i], nvec - i` -/
def gather (v : Vec) (nvec i : ℕ) : Option (List (List UInt8)) :=
  (List.range' i (nvec - i)).mapM (elem v nvec)

/-- The loop over the finished elements: what is left of the count, and the index -/
def skip (v : Vec) (nvec w i : ℕ) : Option (ℕ × ℕ) :=
  if _hi : i < nvec then
    (elem v nvec i).bind fun buf =>
      if buf.length ≤ w then skip v nvec (w - buf.length) (i + 1) else some (w, i)
  else some (w, i)
  termination_by nvec - i

/-- After a `writev()` of `w` bytes: the vector with its current element trimmed, and the index -/
def resume (v : Vec) (nvec w i : ℕ) : Option (Vec × ℕ) := do
  if 0 < w then
    let (w, i) ← skip v nvec w i
    if 0 < w then
      let buf ← elem v nvec i
      return (v.set i (some (buf.drop w)), i)
    return (v, i)
  return (v, i)

/-- The loop of `outvec_flush()`, one turn a `writev()`. -/
def flushLoop : ℕ → Fd → Vec → ℕ → ℕ → Option (ℤ × Fd × Vec)
  | 0, _, _, _, _ => none
  | fuel + 1, fd, v, nvec, i =>
    if i < nvec then do
      let bufs ← gather v nvec i
      let out := writev fd bufs
      match out.1 with
      | .again => flushLoop fuel out.2 v nvec i
      | .error => return (-1, out.2, v)
      | .wrote w =>
        let (v, i) ← resume v nvec w i
        flushLoop fuel out.2 v nvec i
    else some (0, fd, v)

def outvecFlush (fuel : ℕ) (vec : Outvec) : Option (ℤ × Outvec) := do
  let (r, fd, v) ← flushLoop fuel vec.fd vec.vec vec.n 0
  if r = -1 then return (-1, { vec with fd := fd, vec := v })
  return (0, { vec with fd := fd, vec := v, n := 0 })

def outvecPut (fuel : ℕ) (vec : Outvec) (buf : List UInt8) : Option (ℤ × Outvec) := do
  let out ← if vec.n < vec.max then some (0, vec) else outvecFlush fuel vec
  if out.1 = -1 then return (-1, out.2)
  let vec := out.2
  if vec.n < vec.vec.length then
    return (0, { vec with vec := vec.vec.set vec.n (some buf), n := vec.n + 1 })
  none

inductive Op where
  | put (buf : List UInt8)
  | flush
  deriving DecidableEq, Repr

def step (fuel : ℕ) (vec : Outvec) : Op → Option (ℤ × Outvec)
  | .put buf => outvecPut fuel vec buf
  | .flush => outvecFlush fuel vec

/-! ## What they are for -/

/-- What has been written and what is still waiting -/
abbrev Stream := List UInt8 × List (List UInt8)

/-- The buffers of `s` wait in a vector of `max` elements, and no `writev()` to come fails. -/
structure Holds (max : ℕ) (vec : Outvec) (s : Stream) : Prop where
  out : vec.fd.out = s.1
  array : ∃ spare, vec.vec = s.2.map some ++ spare
  count : vec.n = s.2.length
  room : vec.max = max
  size : vec.vec.length = max
  quiet : .error ∉ vec.fd.writes

/-- A flush writes what is waiting, once; a put makes room with a flush when all is in use. -/
def Op.effect (max : ℕ) (s : Stream) : Op → Stream
  | .put buf => if s.2.length < max then (s.1, s.2 ++ [buf]) else (s.1 ++ s.2.flatten, [buf])
  | .flush => (s.1 ++ s.2.flatten, [])

/-- All operations end, return 0 and do what they are for. -/
def Right (max : ℕ) : Outvec → Stream → List Op → Prop
  | vec, s, [] => Holds max vec s
  | vec, s, o :: os => Holds max vec s ∧
    ∃ fuel vec', step fuel vec o = some (0, vec') ∧ Right max vec' (o.effect max s) os

/-- Whenever something waits at a flush, one of its buffers has a byte. A put into a full
vector flushes, and there is something waiting. -/
def Moving (max : ℕ) : List (List UInt8) → List Op → Prop
  | _, [] => True
  | bufs, .flush :: os => (bufs = [] ∨ bufs.flatten ≠ []) ∧ Moving max [] os
  | bufs, .put buf :: os =>
    if bufs.length < max then Moving max (bufs ++ [buf]) os
    else bufs.flatten ≠ [] ∧ Moving max [buf] os

/-! ## The vector from an index on -/

/-- From its element `i` up to `nvec` the vector holds `bufs`. -/
structure View (v : Vec) (nvec i : ℕ) (bufs : List (List UInt8)) : Prop where
  split : ∃ gone spare, v = gone ++ (bufs.map some ++ spare) ∧ gone.length = i
  count : nvec = i + bufs.length

variable {v : Vec} {nvec i w fuel : ℕ} {bufs : List (List UInt8)} {buf : List UInt8} {fd : Fd}

theorem View.elem (h : View v nvec i (buf :: bufs)) : elem v nvec i = some buf := by
  obtain ⟨gone, spare, rfl, rfl⟩ := h.split
  have hlt : gone.length < nvec := by
    rw [h.count, List.length_cons]
    omega
  rw [OutvecFlush.elem, if_pos hlt, List.getElem?_append_right (Nat.le_refl _), Nat.sub_self]
  rfl

theorem View.next (h : View v nvec i (buf :: bufs)) : View v nvec (i + 1) bufs := by
  obtain ⟨gone, spare, rfl, rfl⟩ := h.split
  refine ⟨⟨gone ++ [some buf], spare, ?_, ?_⟩, ?_⟩
  · rw [List.append_assoc]
    rfl
  · rw [List.length_append]
    rfl
  · rw [h.count, List.length_cons]
    omega

theorem View.set (h : View v nvec i (buf :: bufs)) (buf' : List UInt8) :
    View (v.set i (some buf')) nvec i (buf' :: bufs) := by
  obtain ⟨gone, spare, rfl, rfl⟩ := h.split
  refine ⟨⟨gone, spare, ?_, rfl⟩, h.count⟩
  rw [List.set_append_right _ _ (Nat.le_refl _), Nat.sub_self]
  rfl

theorem View.gather (h : View v nvec i bufs) : gather v nvec i = some bufs := by
  have hlen : nvec - i = bufs.length := by
    rw [h.count]
    omega
  rw [OutvecFlush.gather, hlen]
  clear hlen
  induction bufs generalizing i with
  | nil => rfl
  | cons buf bufs ih =>
    rw [List.length_cons, List.range'_succ, List.mapM_cons, h.elem, ih h.next]
    rfl

/-- The loop stops behind the last finished element, within the first that is not finished. -/
theorem View.skip (h : View v nvec i bufs) (hw : w ≤ bufs.flatten.length) :
    ∃ w' i' rest, skip v nvec w i = some (w', i') ∧ View v nvec i' rest ∧
      bufs.flatten.drop w = rest.flatten.drop w' ∧
      (rest = [] ∧ w' = 0 ∨ ∃ buf tail, rest = buf :: tail ∧ w' < buf.length) := by
  induction bufs generalizing i w with
  | nil =>
    have hw0 : w = 0 := Nat.le_zero.mp hw
    have hend : ¬ i < nvec := by
      rw [h.count]
      exact Nat.lt_irrefl _
    refine ⟨w, i, [], ?_, h, rfl, .inl ⟨rfl, hw0⟩⟩
    rw [OutvecFlush.skip, dif_neg hend]
  | cons buf bufs ih =>
    have hlt : i < nvec := by
      rw [h.count, List.length_cons]
      omega
    rw [OutvecFlush.skip, dif_pos hlt, h.elem, Option.bind_some]
    by_cases hdone : buf.length ≤ w
    · rw [List.flatten_cons, List.length_append] at hw
      obtain ⟨w', i', rest, hskip, hview, hdrop, hstop⟩ :=
        ih h.next (show w - buf.length ≤ bufs.flatten.length by omega)
      refine ⟨w', i', rest, ?_, hview, ?_, hstop⟩
      · rw [if_pos hdone]
        exact hskip
      · rw [← hdrop, List.flatten_cons, List.drop_append, List.drop_eq_nil_of_le hdone,
          List.nil_append]
    · refine ⟨w, i, buf :: bufs, ?_, h, rfl, .inr ⟨buf, bufs, rfl, by omega⟩⟩
      rw [if_neg hdone]

/-- A vector at which a `writev()` makes progress, or nothing is left -/
def Live (bufs : List (List UInt8)) : Prop := bufs = [] ∨ bufs.flatten ≠ []

/-- After a `writev()` the loop goes on with the bytes that have not been written. -/
theorem View.resume (h : View v nvec i bufs) (hw : w ≤ bufs.flatten.length) (hlive : Live bufs) :
    ∃ v' i' rest, resume v nvec w i = some (v', i') ∧ View v' nvec i' rest ∧
      v'.length = v.length ∧ rest.flatten = bufs.flatten.drop w ∧ Live rest := by
  by_cases hpos : 0 < w
  · obtain ⟨w', i', rest, hskip, hview, hdrop, hstop⟩ := h.skip hw
    rw [OutvecFlush.resume, if_pos hpos, hskip]
    rcases hstop with ⟨rfl, rfl⟩ | ⟨buf, tail, rfl, hlt⟩
    · exact ⟨v, i', [], rfl, hview, rfl, hdrop.symm, .inl rfl⟩
    · have hleft : (buf.drop w' :: tail).flatten = bufs.flatten.drop w := by
        rw [hdrop, List.flatten_cons, List.flatten_cons, List.drop_append_of_le_length hlt.le]
      have hbyte : (buf.drop w' :: tail).flatten ≠ [] := by
        rw [List.flatten_cons]
        intro hnil
        have hlen := List.drop_eq_nil_iff.mp (List.append_eq_nil_iff.mp hnil).1
        omega
      by_cases hrest : 0 < w'
      · refine ⟨v.set i' (some (buf.drop w')), i', buf.drop w' :: tail, ?_, hview.set _,
          List.length_set, hleft, .inr hbyte⟩
        simp [hrest, hview.elem]
      · have hzero : w' = 0 := by omega
        rw [hzero, List.drop_zero] at hleft hbyte
        refine ⟨v, i', buf :: tail, ?_, hview, rfl, hleft, .inr hbyte⟩
        simp [hrest]
  · have hzero : w = 0 := by omega
    refine ⟨v, i, bufs, ?_, h, rfl, ?_, hlive⟩
    · rw [OutvecFlush.resume, if_neg hpos]
      rfl
    · rw [hzero, List.drop_zero]

/-! ## A flush -/

theorem flushLoop_end (h : View v nvec i []) :
    flushLoop (fuel + 1) fd v nvec i = some (0, fd, v) := by
  have hend : ¬ i < nvec := by
    rw [h.count]
    exact Nat.lt_irrefl _
  rw [flushLoop, if_neg hend]

/-- A flush that can make progress ends: the script is used up turn by turn, and then one
`writev()` takes the rest. -/
theorem flushLoop_live (h : View v nvec i bufs) (hlive : Live bufs) (hquiet : .error ∉ fd.writes) :
    ∃ fuel fd' v', flushLoop fuel fd v nvec i = some (0, fd', v') ∧
      fd'.out = fd.out ++ bufs.flatten ∧ .error ∉ fd'.writes ∧ v'.length = v.length := by
  obtain ⟨out, writes⟩ := fd
  induction writes generalizing out v i bufs with
  | nil =>
    rcases hlive with rfl | hbyte
    · exact ⟨1, ⟨out, []⟩, v, flushLoop_end h, (List.append_nil _).symm, hquiet, rfl⟩
    · obtain ⟨v', i', rest, hresume, hview, hlen, hrest, hlive'⟩ :=
        h.resume (Nat.le_refl _) (.inr hbyte)
      rw [List.drop_length] at hrest
      have hnil : rest = [] := hlive'.resolve_right (not_not.mpr hrest)
      rw [hnil] at hview
      have hlt : i < nvec := by
        rw [h.count]
        cases bufs with
        | nil => exact absurd rfl hbyte
        | cons buf bufs =>
          rw [List.length_cons]
          omega
      refine ⟨2, ⟨out ++ bufs.flatten, []⟩, v', ?_, rfl, hquiet, hlen⟩
      rw [flushLoop, if_pos hlt, h.gather]
      simp only [writev, hresume, Option.bind_eq_bind, Option.bind_some]
      exact flushLoop_end hview
  | cons ret writes ih =>
    have hquiet' : .error ∉ writes := fun hmem => hquiet (List.mem_cons_of_mem _ hmem)
    cases bufs with
    | nil =>
      exact ⟨1, ⟨out, ret :: writes⟩, v, flushLoop_end h, (List.append_nil _).symm, hquiet, rfl⟩
    | cons buf bufs =>
      have hlt : i < nvec := by
        rw [h.count, List.length_cons]
        omega
      cases ret with
      | error => exact absurd List.mem_cons_self hquiet
      | again =>
        obtain ⟨fuel, fd', v', hloop, hrest⟩ := ih h hlive out hquiet'
        refine ⟨fuel + 1, fd', v', ?_, hrest⟩
        rw [flushLoop, if_pos hlt, h.gather]
        exact hloop
      | wrote w =>
        obtain ⟨v', i', rest, hresume, hview, hlen, hrest, hlive'⟩ :=
          h.resume (Nat.min_le_right w (buf :: bufs).flatten.length) hlive
        obtain ⟨fuel, fd', v'', hloop, hout, hquiet'', hlen'⟩ := ih hview hlive'
          (out ++ (buf :: bufs).flatten.take (min w (buf :: bufs).flatten.length)) hquiet'
        refine ⟨fuel + 1, fd', v'', ?_, ?_, hquiet'', hlen'.trans hlen⟩
        · rw [flushLoop, if_pos hlt, h.gather]
          simp only [writev, hresume, Option.bind_eq_bind, Option.bind_some]
          exact hloop
        · rw [hout, hrest, List.append_assoc, List.take_append_drop]

/-- With empty buffers only, `writev()` returns 0 again and again. -/
theorem flushLoop_stuck (h : View v nvec i bufs) (hne : bufs ≠ []) (hempty : bufs.flatten = [])
    (hquiet : .error ∉ fd.writes) : flushLoop fuel fd v nvec i = none := by
  induction fuel generalizing fd with
  | zero => rfl
  | succ fuel ih =>
    obtain ⟨out, writes⟩ := fd
    have hlt : i < nvec := by
      rw [h.count]
      have hpos := List.length_pos_iff.mpr hne
      omega
    rw [flushLoop, if_pos hlt, h.gather]
    cases writes with
    | nil =>
      simp only [writev, hempty, resume, Option.bind_eq_bind, Option.bind_some]
      exact ih hquiet
    | cons ret writes =>
      have hquiet' : .error ∉ writes := fun hmem => hquiet (List.mem_cons_of_mem _ hmem)
      cases ret with
      | error => exact absurd List.mem_cons_self hquiet
      | again => exact ih hquiet'
      | wrote w =>
        simp only [writev, hempty, List.length_nil, Nat.min_zero, resume, Option.bind_eq_bind,
          Option.bind_some]
        exact ih hquiet'

/-! ## Runs -/

variable {max : ℕ} {vec vec' : Outvec} {s : Stream} {o : Op} {os : List Op}

theorem Holds.view (h : Holds max vec s) : View vec.vec vec.n 0 s.2 := by
  obtain ⟨spare, harray⟩ := h.array
  exact ⟨⟨[], spare, harray, rfl⟩, by rw [h.count, Nat.zero_add]⟩

theorem Holds.flush (h : Holds max vec s) (hlive : Live s.2) :
    ∃ fuel vec', outvecFlush fuel vec = some (0, vec') ∧
      Holds max vec' (s.1 ++ s.2.flatten, []) := by
  obtain ⟨fuel, fd, v, hloop, hout, hquiet, hlen⟩ := flushLoop_live h.view hlive h.quiet
  refine ⟨fuel, { vec with fd := fd, vec := v, n := 0 }, ?_, ?_⟩
  · rw [outvecFlush, hloop]
    rfl
  · rw [h.out] at hout
    exact ⟨hout, ⟨v, rfl⟩, rfl, h.room, hlen.trans h.size, hquiet⟩

theorem Holds.flush_stuck (h : Holds max vec s) (hdead : ¬ Live s.2) :
    outvecFlush fuel vec = none := by
  obtain ⟨hne, hempty⟩ := not_or.mp hdead
  rw [outvecFlush, flushLoop_stuck h.view hne (not_not.mp hempty) h.quiet]
  rfl

theorem Holds.store (h : Holds max vec s) (hroom : s.2.length < max) (buf : List UInt8) :
    Holds max { vec with vec := vec.vec.set vec.n (some buf), n := vec.n + 1 }
      (s.1, s.2 ++ [buf]) := by
  obtain ⟨spare, harray⟩ := h.array
  have hsize := h.size
  refine ⟨h.out, ?_, ?_, h.room, ?_, h.quiet⟩
  · cases spare with
    | nil =>
      rw [harray, List.append_nil, List.length_map] at hsize
      omega
    | cons old spare =>
      refine ⟨spare, ?_⟩
      have hlen : (s.2.map some).length = s.2.length := List.length_map some
      change vec.vec.set vec.n (some buf) = (s.2 ++ [buf]).map some ++ spare
      rw [harray, h.count, ← hlen, List.set_append_right _ _ (Nat.le_refl _), Nat.sub_self,
        List.map_append, List.append_assoc]
      rfl
  · change vec.n + 1 = (s.2 ++ [buf]).length
    rw [h.count, List.length_append]
    rfl
  · exact (List.length_set).trans hsize

/-- What has to hold of the buffers that wait for an operation to do what it is for -/
def Op.Moves (max : ℕ) (bufs : List (List UInt8)) : Op → Prop
  | .flush => Live bufs
  | .put _ => bufs.length < max ∨ bufs.flatten ≠ []

theorem moving_cons (max : ℕ) (s : Stream) (o : Op) (os : List Op) :
    Moving max s.2 (o :: os) ↔ o.Moves max s.2 ∧ Moving max (o.effect max s).2 os := by
  cases o with
  | flush => exact Iff.rfl
  | put buf =>
    rw [Moving, Op.Moves, Op.effect]
    by_cases hroom : s.2.length < max
    · rw [if_pos hroom, if_pos hroom]
      exact (and_iff_right (.inl hroom)).symm
    · rw [if_neg hroom, if_neg hroom, or_iff_right hroom]

theorem step_moves (h : Holds max vec s) (hmoves : o.Moves max s.2) :
    ∃ fuel vec', step fuel vec o = some (0, vec') ∧
      Holds max vec' (o.effect max s) := by
  cases o with
  | flush => exact h.flush hmoves
  | put buf =>
    by_cases hroom : s.2.length < max
    · have hn : vec.n < vec.max := by rw [h.count, h.room]; exact hroom
      have hstore := h.store hroom buf
      refine ⟨0, { vec with vec := vec.vec.set vec.n (some buf), n := vec.n + 1 }, ?_, ?_⟩
      · rw [step, outvecPut, if_pos hn]
        simp [h.size, h.room ▸ hn]
      · rw [Op.effect, if_pos hroom]
        exact hstore
    · have hbyte := hmoves.resolve_left hroom
      have hn : ¬ vec.n < vec.max := by rw [h.count, h.room]; exact hroom
      obtain ⟨fuel, vec', hflush, hheld⟩ := h.flush (.inr hbyte)
      -- something waits, and so the vector is not one without elements
      have hone : 0 < max := by
        have hpos := List.length_pos_iff.mpr (fun hnil : s.2 = [] => hbyte (by rw [hnil]; rfl))
        obtain ⟨spare, harray⟩ := h.array
        rw [← h.size, harray, List.length_append, List.length_map]
        omega
      have hstore := hheld.store hone buf
      refine ⟨fuel, { vec' with vec := vec'.vec.set vec'.n (some buf), n := vec'.n + 1 }, ?_, ?_⟩
      · rw [step, outvecPut, if_neg hn, hflush]
        simp [hheld.size, hheld.count, hone]
      · rw [Op.effect, if_neg hroom]
        exact hstore

theorem moves_of_step (h : Holds max vec s) (hstep : step fuel vec o = some (0, vec')) :
    o.Moves max s.2 := by
  by_contra hmoves
  cases o with
  | flush =>
    rw [step, h.flush_stuck hmoves] at hstep
    cases hstep
  | put buf =>
    obtain ⟨hroom, hempty⟩ := not_or.mp hmoves
    have hn : ¬ vec.n < vec.max := by rw [h.count, h.room]; exact hroom
    rw [step, outvecPut, if_neg hn] at hstep
    by_cases hnone : s.2 = []
    · -- a vector without elements: the flush succeeds, and there is no place for the buffer
      have hview := h.view
      rw [hnone] at hview
      have hlen : vec.vec.length = 0 := by
        rw [h.size]
        rw [hnone] at hroom
        exact Nat.le_zero.mp (not_lt.mp hroom)
      cases fuel with
      | zero => cases hstep
      | succ fuel =>
        rw [outvecFlush, flushLoop_end hview] at hstep
        simp [hlen] at hstep
    · rw [h.flush_stuck (not_or.mpr ⟨hnone, hempty⟩)] at hstep
      cases hstep

theorem Right.holds (h : Right max vec s os) : Holds max vec s := by
  cases os with
  | nil => exact h
  | cons o os => exact h.1

theorem right_iff (h : Holds max vec s) (os : List Op) :
    Right max vec s os ↔ Moving max s.2 os := by
  induction os generalizing vec s with
  | nil => exact iff_of_true h trivial
  | cons o os ih =>
    rw [Right, moving_cons]
    constructor
    · rintro ⟨-, fuel, vec', hstep, hright⟩
      exact ⟨moves_of_step h hstep, (ih hright.holds).mp hright⟩
    · rintro ⟨hmoves, hmoving⟩
      obtain ⟨fuel, vec', hstep, hheld⟩ := step_moves h hmoves
      exact ⟨h, fuel, vec', hstep, (ih hheld).mpr hmoving⟩

/-- The vector with `bufs` in it, and `spare` behind them -/
def start (out : List UInt8) (writes : List Writev) (bufs : List (List UInt8)) (spare : Vec) :
    Outvec :=
  ⟨⟨out, writes⟩, bufs.map some ++ spare, bufs.length, bufs.length + spare.length⟩

theorem start_holds (out : List UInt8) (writes : {writes : List Writev // .error ∉ writes})
    (bufs : List (List UInt8)) (spare : Vec) :
    Holds (bufs.length + spare.length) (start out writes.val bufs spare) (out, bufs) := by
  refine ⟨rfl, ⟨spare, rfl⟩, rfl, rfl, ?_, writes.property⟩
  rw [start, List.length_append, List.length_map]

/-- Every flush of a run ends and writes what waits once exactly when no flush, asked for or
made to have room, finds only empty buffers waiting. -/
theorem outvec_right (out : List UInt8) (writes : {writes : List Writev // .error ∉ writes})
    (bufs : List (List UInt8)) (spare : Vec) (os : List Op) :
    Right (bufs.length + spare.length) (start out writes.val bufs spare) (out, bufs) os ↔
      Moving (bufs.length + spare.length) bufs os :=
  right_iff (start_holds out writes bufs spare) os

/-- One empty buffer, and the loop goes round for ever. -/
theorem outvecFlush_empty : ¬ ∀ (out : List UInt8)
    (writes : {writes : List Writev // .error ∉ writes}) (bufs : List (List UInt8)) (spare : Vec)
    (os : List Op),
    Right (bufs.length + spare.length) (start out writes.val bufs spare) (out, bufs) os := by
  intro h
  have hright := h [] ⟨[], List.not_mem_nil⟩ [[]] [] [.flush]
  have hmoving := (right_iff (start_holds [] ⟨[], List.not_mem_nil⟩ [[]] []) _).mp hright
  rcases hmoving.1 with hnil | hbyte
  · exact List.cons_ne_nil _ _ hnil
  · exact hbyte rfl

end Perp.OutvecFlush
