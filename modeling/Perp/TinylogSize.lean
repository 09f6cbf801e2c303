import Perp.TinylogLines

set_option autoImplicit false

/-!
# The size of the log

No `current` grows to `current_max`, and the size that tinylog keeps is that of
the file.
-/
namespace Perp.TinylogSize
open Pkt IoqGet TinylogPost TinylogLines

theorem maxOf_bounds (size : Option UInt32) :
    2 * loglineMax ≤ maxOf size ∧ maxOf size < 2 ^ 32 := by
  cases size with
  | none => decide
  | some n =>
    have hn := n.toNat_lt
    simp only [maxOf]
    split
    · decide
    · simp only [loglineMax] at *
      omega

theorem collect_length (pos : ℕ) {fuel : ℕ} {line : List UInt8} {c : UInt8} {q : Ioq} {i : Input}
    (h : pos + line.length ≤ loglineMax) :
    pos + (collect pos fuel line c q i).2.1.length ≤ loglineMax := by
  induction fuel generalizing line c q i with
  | zero => exact h
  | succ fuel ih =>
    simp only [collect]
    split
    · exact h
    split
    · exact h
    split
    · next hl =>
      apply ih
      rw [List.length_append, List.length_singleton]
      omega
    · exact ih h

/-- What `do_log()` posts is no longer than a log line and its newline. -/
theorem posting_length {s : Logger} {line : List UInt8} (h : posting s = some line) :
    line.length ≤ loglineMax + 1 := by
  have hpos : startpos s.t.wantstamp + 0 ≤ loglineMax := by cases s.t.wantstamp <;> decide
  have hcol := @collect_length (startpos s.t.wantstamp) ((unread s.q s.i).length + 1) [] s.c s.q s.i
    hpos
  obtain ⟨r, body, c, q, i, hbody⟩ : ∃ r body c q i, collected s = (r, body, c, q, i) :=
    ⟨_, _, _, _, _, rfl⟩
  have hcol' : startpos s.t.wantstamp + body.length ≤ loglineMax := by
    rw [collected] at hbody
    rwa [hbody] at hcol
  simp only [posting, hbody] at h
  split at h
  · cases h
  split at h
  · cases h
    simp only [logline, List.length_append, stamp_length, List.length_singleton]
    omega
  · cases h

/-- A line that fits under the maximum is taken from it without a wrap. -/
theorem sizeSub_eq {a b : ℕ} (h : b ≤ a) (ha : a < 2 ^ 64) : sizeSub a b = a - b := by
  simp only [sizeSub]
  omega

structure Sized (t : Tinylog) : Prop where
  size : t.currentSize = t.current.size
  /-- `st_size` was an `off_t` -/
  small : t.currentSize < 2 ^ 63
  max : 2 * loglineMax ≤ t.currentMax ∧ t.currentMax < 2 ^ 32
  /-- a file that this process has created or written to is below the maximum -/
  below : ∀ f ∈ t.files, f.found = [] ∨ f.written ≠ [] → f.size < t.currentMax

theorem sized_start (o : Options) (found : Option Found) : Sized (initCurrent o found) := by
  have hmax := maxOf_bounds o.size
  obtain ⟨bytes, hbytes, hlt⟩ : ∃ bytes, (initCurrent o found).current = ⟨bytes, []⟩ ∧
      (initCurrent o found).currentSize = bytes.length ∧ bytes.length < 2 ^ 63 := by
    refine ⟨_, rfl, rfl, ?_⟩
    cases found with
    | none => exact Nat.two_pow_pos 63
    | some f =>
      have := f.size_lt
      dsimp only
      split
      · decide
      split
      · decide
      · exact this
  refine ⟨?_, hlt.1 ▸ hlt.2, hmax, ?_⟩
  · rw [hlt.1, hbytes]
    rfl
  · intro f hf hnew
    obtain rfl : f = ⟨bytes, []⟩ := by simpa [Tinylog.files, initCurrent, ← hbytes] using hf
    have hnil : bytes = [] := by simpa using hnew
    subst hnil
    have hpos : 0 < 2 * loglineMax := by decide
    exact Nat.lt_of_lt_of_le hpos hmax.1

/-- After `tinylog_rotate()` the open file is either empty or as it was before. -/
theorem sized_rotate {t : Tinylog} (h : Sized t) :
    Sized (tinylogRotate t) ∧ (tinylogRotate t).currentSize = 0 := by
  have hpos : 0 < 2 * loglineMax := by decide
  simp only [tinylogRotate]
  split
  · next hz => exact ⟨⟨h.size, h.small, h.max, h.below⟩, Nat.eq_zero_of_not_pos hz⟩
  · refine ⟨⟨rfl, by simp, h.max, ?_⟩, rfl⟩
    intro f hf hnew
    rcases List.mem_append.mp hf with hf | hf
    · exact h.below f hf hnew
    · obtain rfl := List.mem_singleton.mp hf
      exact Nat.lt_of_lt_of_le hpos h.max.1

/-- The open file takes a line that it has room for. -/
theorem sized_write {t : Tinylog} (h : Sized t) {line : List UInt8}
    (hroom : t.currentSize + line.length < t.currentMax) :
    Sized { t with
      current := { t.current with written := t.current.written ++ line }
      currentSize := (t.currentSize + line.length) % 2 ^ 64 } := by
  have hmax := h.max.2
  have hmod : (t.currentSize + line.length) % 2 ^ 64 = t.currentSize + line.length :=
    Nat.mod_eq_of_lt (by omega)
  have hsize : (⟨t.current.found, t.current.written ++ line⟩ : LogFile).size =
      t.currentSize + line.length := by
    rw [h.size, LogFile.size, LogFile.size, List.length_append, Nat.add_assoc]
  refine ⟨hmod.trans hsize.symm, ?_, h.max, ?_⟩
  · dsimp only
    omega
  · intro f hf hnew
    rcases List.mem_append.mp hf with hf | hf
    · exact h.below f (List.mem_append_left _ hf) hnew
    · obtain rfl := List.mem_singleton.mp hf
      rw [hsize]
      exact hroom

theorem sized_post {t : Tinylog} (h : Sized t) (turn : Turn) {line : List UInt8}
    (hl : line.length ≤ loglineMax + 1) : Sized (tinylogPost t turn line) := by
  have hmax := h.max
  have hline : line.length < t.currentMax := by
    simp only [loglineMax] at *
    omega
  have hsub := sizeSub_eq (Nat.le_of_lt hline) (by omega)
  have hflag : Sized { t with flagrotate := t.flagrotate + turn.hups } :=
    ⟨h.size, h.small, h.max, h.below⟩
  simp only [tinylogPost, writeAll_eq]
  split
  · obtain ⟨hr, hz⟩ := sized_rotate hflag
    have hm : (tinylogRotate { t with flagrotate := t.flagrotate + turn.hups }).currentMax =
        t.currentMax := by
      simp only [tinylogRotate]
      split <;> rfl
    exact sized_write hr (by rw [hz, hm]; omega)
  · next hno =>
    simp only [wantsRotate, hsub, Bool.or_eq_true, decide_eq_true_eq, not_or] at hno
    exact sized_write hflag (by dsimp only; omega)

theorem sized_pass {s : Logger} (h : Sized s.t) : Sized (doLogPass s).t := by
  simp only [doLogPass]
  split
  · exact h
  · next hp => exact sized_post h _ (posting_length hp)

theorem sized_doLog (n : ℕ) {s : Logger} (h : Sized s.t) : Sized (doLog n s).t := by
  induction n generalizing s with
  | zero => exact h
  | succ n ih =>
    rw [doLog]
    split
    · exact ih (sized_pass h)
    · exact h

end Perp.TinylogSize
