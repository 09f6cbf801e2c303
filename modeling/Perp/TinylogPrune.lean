import Mathlib.Data.UInt
import Mathlib.Data.List.Perm.Basic
import Mathlib.Tactic.Common

set_option autoImplicit false

/-!
# Pruning of log archives

`tinylog_prune()` scans the log directory and unlinks the archive with the least
name. Its scan takes any name of 23 bytes or more with an underscore and a `T`
in the right places for an archive, and a second pass of its loop would read
from the directory stream that the first one has closed.
-/
namespace Perp.TinylogPrune

/-- A directory as `readdir()` lists it. -/
structure Dir where
  names : List (List UInt8)
  nodup : names.Nodup
  noNul : ∀ d ∈ names, 0 ∉ d

/-- The system calls of `tinylog_prune()` that fail: `readdir()` does so after
that many entries. -/
structure Failing where
  opendir : Bool
  readdir : Option ℕ
  unlink : Bool
  deriving DecidableEq, Repr

def noFailing : Failing := ⟨false, none, false⟩

/-- `sizeof target` -/
def targetSize : ℕ := 80

/-- The initial `target`, "_z" -/
def target0 : List UInt8 := [95, 122]

def cstrCmp : List UInt8 → List UInt8 → ℤ
  | [], [] => 0
  | [], b :: _ => -b.toNat
  | a :: _, [] => a.toNat
  | a :: s, b :: t => if a ≠ b then a.toNat - b.toNat else cstrCmp s t

/-- The test of the scan: `n` is the truth value of `cstr_len(d_name) >= 23`, so
that its comparison with `sizeof target` always holds. -/
def smells (d : List UInt8) : Bool :=
  let n := if d.length ≥ 23 then 1 else 0
  d.head? = some 95 && n ≠ 0 && d[9]? = some 84 && n < targetSize

structure Scan where
  count : ℕ
  target : List UInt8
  deriving DecidableEq, Repr

/-- One name of the scan. None is undefined behaviour: an overflow of `count` or
of `target`. -/
def scanName (s : Scan) (d : List UInt8) : Option Scan :=
  if smells d then
    if s.count + 1 = 2 ^ 31 then none
    else if cstrCmp d s.target < 0 then
      if d.length + 1 > targetSize then none else some ⟨s.count + 1, d⟩
    else some ⟨s.count + 1, s.target⟩
  else some s

/-- `tinylog_prune()`: the return value and the names that are left. None is
undefined behaviour. -/
def tinylogPrune (keepMax : UInt32) (f : Failing) (dir : List (List UInt8)) :
    Option (ℤ × List (List UInt8)) :=
  let keep : ℤ := keepMax.toInt32.toInt
  if f.opendir then some (-1, dir)
  else
    match (match f.readdir with | none => dir | some k => dir.take k).foldlM scanName ⟨0, target0⟩ with
    | none => none
    | some s =>
      if f.readdir ≠ none then some (-1, dir)
      else if (s.count : ℤ) ≤ keep then some (0, dir)
      else if f.unlink || s.target ∉ dir then some (-1, dir)
      -- the next pass begins with `readdir()` on the closed stream
      else if (s.count : ℤ) - 1 > keep then none
      else some (0, dir.erase s.target)

section
variable {a b t d : List UInt8} {names : List (List UInt8)}

theorem cstrCmp_neg (ha : 0 ∉ a) (hb : 0 ∉ b) : cstrCmp a b < 0 ↔ a < b := by
  induction a generalizing b with
  | nil =>
    cases b with
    | nil => simp [cstrCmp]
    | cons y b =>
      have hy : y.toNat ≠ 0 := by
        intro h
        have hy0 : y = 0 := UInt8.toNat_inj.mp h
        exact hb (hy0 ▸ List.mem_cons_self)
      simp only [cstrCmp, List.nil_lt_cons, iff_true]
      omega
  | cons x a ih =>
    cases b with
    | nil => simp [cstrCmp]
    | cons y b =>
      have htail := ih (fun h => ha (List.mem_cons_of_mem _ h)) fun h => hb (List.mem_cons_of_mem _ h)
      rw [List.cons_lt_cons_iff]
      by_cases hxy : x = y
      · simp [cstrCmp, hxy, htail]
      · simp only [cstrCmp, ne_eq, hxy, not_false_eq_true, if_true, false_and, or_false,
          UInt8.lt_iff_toNat_lt]
        omega

/-- The lesser name, if it smells like an archive. -/
def lower (t d : List UInt8) : List UInt8 := if smells d ∧ d < t then d else t

/-- The target after the scan -/
def least (t : List UInt8) (names : List (List UInt8)) : List UInt8 := names.foldl lower t

theorem least_cons : least t (d :: names) = least (lower t d) names := rfl

theorem lower_le : ¬ t < lower t d := by
  unfold lower
  grind

theorem lower_le_name (h : smells d) : ¬ d < lower t d := by
  unfold lower
  grind

theorem least_le (t : List UInt8) (names : List (List UInt8)) : ¬ t < least t names := by
  induction names generalizing t with
  | nil => exact List.lt_irrefl t
  | cons d names ih =>
    have h := ih (lower t d)
    have hl := lower_le (t := t) (d := d)
    rw [least_cons]
    grind

/-- No name that smells like an archive is less than the target. -/
theorem least_le_name (hd : d ∈ names) (h : smells d) : ¬ d < least t names := by
  induction names generalizing t with
  | nil => simp at hd
  | cons e names ih =>
    rw [least_cons]
    rcases List.mem_cons.mp hd with rfl | hd
    · have hle := least_le (lower t d) names
      have hl := lower_le_name (t := t) h
      grind
    · exact ih hd

theorem least_mem (t : List UInt8) (names : List (List UInt8)) :
    least t names = t ∨ (least t names ∈ names ∧ smells (least t names)) := by
  induction names generalizing t with
  | nil => exact .inl rfl
  | cons d names ih =>
    rw [least_cons]
    rcases ih (lower t d) with h | ⟨hm, hs⟩
    · rw [h]
      unfold lower
      split
      · next hd => exact .inr ⟨List.mem_cons_self, hd.1⟩
      · exact .inl rfl
    · exact .inr ⟨List.mem_cons_of_mem _ hm, hs⟩

/-- A name too long for the target is copied into it: it is less than `t` and
than every name before it that smells like an archive. -/
def Overlong (t : List UInt8) (names : List (List UInt8)) : Prop :=
  ∃ before d after, names = before ++ d :: after ∧ smells d ∧ targetSize ≤ d.length ∧ d < t ∧
    ∀ e ∈ before, smells e → d < e

theorem overlong_cons : Overlong t (d :: names) ↔
    (smells d ∧ targetSize ≤ d.length ∧ d < t) ∨ Overlong (lower t d) names := by
  constructor
  · rintro ⟨before, e, after, hsplit, hs, hlen, hlt, hbefore⟩
    cases before with
    | nil =>
      obtain ⟨rfl, rfl⟩ := List.cons.inj hsplit
      exact .inl ⟨hs, hlen, hlt⟩
    | cons c before =>
      obtain ⟨rfl, rfl⟩ := List.cons.inj hsplit
      refine .inr ⟨before, e, after, rfl, hs, hlen, ?_, fun c hc => hbefore c (List.mem_cons_of_mem _ hc)⟩
      unfold lower
      split
      · next h => exact hbefore _ List.mem_cons_self h.1
      · exact hlt
  · rintro (⟨hs, hlen, hlt⟩ | ⟨before, e, after, rfl, hs, hlen, hlt, hbefore⟩)
    · exact ⟨[], d, names, rfl, hs, hlen, hlt, by simp⟩
    · have hl := lower_le (t := t) (d := d)
      refine ⟨d :: before, e, after, rfl, hs, hlen, by grind, fun c hc hsc => ?_⟩
      rcases List.mem_cons.mp hc with rfl | hc
      · have hn := lower_le_name (t := t) hsc
        grind
      · exact hbefore c hc hsc

/-- A name that is no overflow takes the scan on. -/
theorem scanName_spec (ht : 0 ∉ t) (hd : 0 ∉ d) {k : ℕ} (hk : smells d → k + 1 ≠ 2 ^ 31)
    (ho : ¬ (smells d ∧ targetSize ≤ d.length ∧ d < t)) :
    scanName ⟨k, t⟩ d = some ⟨k + List.countP smells [d], lower t d⟩ := by
  by_cases hs : smells d
  · by_cases hlt : d < t
    · have hlen : ¬ d.length + 1 > targetSize := fun h => ho ⟨hs, Nat.le_of_lt_succ h, hlt⟩
      simp only [scanName, hs, if_true, hk hs, if_false, cstrCmp_neg hd ht, hlt, hlen, lower]
      simp [hs]
    · simp only [scanName, hs, if_true, hk hs, if_false, cstrCmp_neg hd ht, hlt, lower]
      simp [hs]
  · simp [scanName, hs, lower]

theorem scanName_none (ht : 0 ∉ t) (hd : 0 ∉ d) {k : ℕ}
    (h : smells d ∧ (k + 1 = 2 ^ 31 ∨ (targetSize ≤ d.length ∧ d < t))) :
    scanName ⟨k, t⟩ d = none := by
  obtain ⟨hs, hk | ⟨hlen, hlt⟩⟩ := h
  · simp only [scanName, hs, if_true, hk]
  · have hover : d.length + 1 > targetSize := Nat.lt_succ_of_le hlen
    simp only [scanName, hs, if_true, cstrCmp_neg hd ht, hlt, hover]
    split <;> rfl

theorem lower_noNul (ht : 0 ∉ t) (hd : 0 ∉ d) : 0 ∉ lower t d := by
  unfold lower
  split
  · exact hd
  · exact ht

/-- The scan counts the names that smell like an archive and keeps the least,
unless it overflows. -/
theorem scan_spec (ht : 0 ∉ t) (hn : ∀ d ∈ names, 0 ∉ d) {k : ℕ} (hk : k < 2 ^ 31) :
    (Overlong t names ∨ 2 ^ 31 ≤ k + names.countP smells →
      names.foldlM scanName ⟨k, t⟩ = none) ∧
    (¬ Overlong t names → k + names.countP smells < 2 ^ 31 →
      names.foldlM scanName ⟨k, t⟩ = some ⟨k + names.countP smells, least t names⟩) := by
  induction names generalizing k t with
  | nil =>
    refine ⟨?_, fun _ _ => rfl⟩
    rintro (⟨before, d, after, hsplit, -⟩ | hover)
    · simp at hsplit
    · simp only [List.countP_nil] at hover
      omega
  | cons d names ih =>
    have hd := hn d List.mem_cons_self
    have hcount : (d :: names).countP smells = [d].countP smells + names.countP smells := by
      rw [← List.singleton_append, List.countP_append]
    rw [List.foldlM_cons, overlong_cons, hcount, least_cons]
    by_cases hbad : smells d ∧ (k + 1 = 2 ^ 31 ∨ (targetSize ≤ d.length ∧ d < t))
    · rw [scanName_none ht hd hbad]
      refine ⟨fun _ => rfl, fun ho hc => ?_⟩
      obtain ⟨hs, hk1 | hlong⟩ := hbad
      · simp only [List.countP_singleton, hs, if_true] at hc
        omega
      · exact absurd (.inl ⟨hs, hlong⟩) ho
    · have hs1 : smells d → k + 1 ≠ 2 ^ 31 := fun hs h => hbad ⟨hs, .inl h⟩
      have ho1 : ¬ (smells d ∧ targetSize ≤ d.length ∧ d < t) := fun h => hbad ⟨h.1, .inr h.2⟩
      have hk1 : k + [d].countP smells < 2 ^ 31 := by
        by_cases hs : smells d
        · have := hs1 hs
          simp only [List.countP_singleton, hs, if_true]
          omega
        · simpa [List.countP_singleton, hs] using hk
      rw [scanName_spec ht hd hs1 ho1, ← Nat.add_assoc]
      obtain ⟨hbad', hgood⟩ := ih (lower_noNul ht hd) (fun e he => hn e (List.mem_cons_of_mem _ he)) hk1
      refine ⟨fun h => hbad' ?_, fun ho hc => hgood (fun h => ho (.inr h)) hc⟩
      exact h.imp_left fun h => h.resolve_left ho1

end

/-- The byte at place `i` of an ISO-8601 stamp, "yyyymmddThhmmss.uuuuuu" -/
def stampByte (i : ℕ) (c : UInt8) : Bool :=
  if i = 8 then c = 84 else if i = 15 then c = 46 else 48 ≤ c && c ≤ 57

/-- The name of a log archive: an underscore, a stamp, and any suffix. -/
def isArchive (d : List UInt8) : Bool :=
  d[0]? = some 95 && 23 ≤ d.length && d.length < targetSize &&
    (List.range 22).all fun i => stampByte i (d.getD (i + 1) 0)

/-- The archives with a name greater than `d`. -/
def greater (d : List UInt8) (dir : List (List UInt8)) : ℕ :=
  dir.countP fun e => isArchive e && d < e

/-- The call has returned 0, and has left every name that is not of an archive
and the `keepMax` greatest of those that are. -/
def Pruned (keepMax : ℕ) (dir : List (List UInt8)) (result : Option (ℤ × List (List UInt8))) : Prop :=
  ∃ left, result = some (0, left) ∧ ∀ d, d ∈ left ↔
    d ∈ dir ∧ (isArchive d → greater d dir < keepMax)

/-- When `tinylog_prune()` works: `keep_max` is a positive `int`, no overlong name
gets into the target, and there is at most one name too many that smells like an
archive, and then only archives do. -/
def Prunable (keepMax : UInt32) (dir : List (List UInt8)) : Prop :=
  keepMax.toNat < 2 ^ 31 ∧ dir.countP smells < 2 ^ 31 ∧ ¬ Overlong target0 dir ∧
    (dir.countP smells ≤ keepMax.toNat ∨
      (dir.countP smells = keepMax.toNat + 1 ∧ ∀ d ∈ dir, smells d → isArchive d))

theorem isArchive_smells {d : List UInt8} (h : isArchive d) : smells d := by
  simp only [isArchive, Bool.and_eq_true, decide_eq_true_eq, List.all_eq_true, List.mem_range] at h
  obtain ⟨⟨⟨h0, h23⟩, hlen⟩, hstamp⟩ := h
  have hT := hstamp 8 (by decide)
  have h9 : 9 < d.length := by omega
  have h9T : d[9] = 84 := by simpa [stampByte, List.getD_eq_getElem?_getD, h9] using hT
  have hhead : d.head? = some 95 := by rw [List.head?_eq_getElem?, h0]
  simp [smells, hhead, h23, h9, h9T, targetSize]

/-- Archives come before the initial target. -/
theorem isArchive_lt {d : List UInt8} (h : isArchive d) : d < target0 := by
  simp only [isArchive, Bool.and_eq_true, decide_eq_true_eq, List.all_eq_true, List.mem_range] at h
  obtain ⟨⟨⟨h0, h23⟩, -⟩, hstamp⟩ := h
  have h1 := hstamp 0 (by decide)
  match d, h0, h1 with
  | a :: b :: d, h0, h1 =>
    obtain rfl : a = 95 := by simpa using h0
    simp only [stampByte, List.getD_cons_succ, List.getD_cons_zero] at h1
    have hb : b < 122 := by
      simp at h1
      exact UInt8.lt_of_le_of_lt h1.2 (by decide)
    exact List.cons_lt_cons_iff.mpr (.inr ⟨rfl, List.cons_lt_cons_iff.mpr (.inl hb)⟩)
  | [_], _, _ => simp at h23
  | [], _, _ => simp at h23

section
variable {dir : List (List UInt8)} {d : List UInt8}

theorem countP_isArchive_le : dir.countP isArchive ≤ dir.countP smells :=
  List.countP_mono_left fun _ _ => isArchive_smells

theorem greater_erase {m : List UInt8} (hm : m ∈ dir) (hmd : ¬ d < m) :
    greater d dir = greater d (dir.erase m) := by
  rw [greater, (List.perm_cons_erase hm).countP_eq, List.countP_cons_of_neg (by simp [hmd])]
  rfl

/-- An archive is not among those that are greater. -/
theorem greater_lt (hd : d ∈ dir) (ha : isArchive d) : greater d dir < dir.countP isArchive := by
  rw [greater_erase hd (List.lt_irrefl d), (List.perm_cons_erase hd).countP_eq isArchive,
    List.countP_cons_of_pos ha]
  apply Nat.lt_succ_of_le
  exact List.countP_mono_left fun e _ he => (Bool.and_eq_true_iff.mp he).1

theorem countP_erase_archive (hd : d ∈ dir) (ha : isArchive d) :
    (dir.erase d).countP isArchive + 1 = dir.countP isArchive := by
  rw [(List.perm_cons_erase hd).countP_eq isArchive, List.countP_cons_of_pos ha]

/-- The least archive has all others above it. -/
theorem greater_least {m : List UInt8} (hn : dir.Nodup) (hm : m ∈ dir) (ha : isArchive m)
    (hleast : ∀ e ∈ dir, isArchive e → ¬ e < m) : greater m dir + 1 = dir.countP isArchive := by
  rw [greater_erase hm (List.lt_irrefl m), ← countP_erase_archive hm ha, greater]
  congr 1
  apply List.countP_congr
  intro e he
  have hmem := List.mem_of_mem_erase he
  have hne : e ≠ m := fun h => (hn.not_mem_erase) (h ▸ he)
  simp only [Bool.and_eq_true, decide_eq_true_eq, and_iff_left_iff_imp]
  intro hae
  have hnlt := hleast e hmem hae
  grind

/-- Without the least archive the rest keep their places. -/
theorem greater_lt_erase {m : List UInt8} (hm : m ∈ dir) (ham : isArchive m) (hd : d ∈ dir)
    (ha : isArchive d) (hne : d ≠ m) (hle : ¬ d < m) : greater d dir + 1 < dir.countP isArchive := by
  have hlt := @greater_lt (dir.erase m) d ((List.mem_erase_of_ne hne).mpr hd) ha
  rw [greater_erase hm hle, ← countP_erase_archive hm ham]
  omega

end

section
variable {keepMax : UInt32} {dir : Dir}

theorem prune_fault (h : Overlong target0 dir.names ∨ 2 ^ 31 ≤ dir.names.countP smells) :
    tinylogPrune keepMax noFailing dir.names = none := by
  have hscan := (scan_spec (k := 0) (t := target0) (by decide) dir.noNul (by decide)).1
    (by rwa [Nat.zero_add])
  simp [tinylogPrune, noFailing, hscan]

theorem prune_scanned (ho : ¬ Overlong target0 dir.names) (hc : dir.names.countP smells < 2 ^ 31) :
    tinylogPrune keepMax noFailing dir.names =
      if (dir.names.countP smells : ℤ) ≤ keepMax.toInt32.toInt then some (0, dir.names)
      else if least target0 dir.names ∉ dir.names then some (-1, dir.names)
      else if (dir.names.countP smells : ℤ) - 1 > keepMax.toInt32.toInt then none
      else some (0, dir.names.erase (least target0 dir.names)) := by
  have hscan := (scan_spec (k := 0) (t := target0) (by decide) dir.noNul (by decide)).2 ho
    (by rwa [Nat.zero_add])
  rw [Nat.zero_add] at hscan
  simp [tinylogPrune, noFailing, hscan]

/-- `int keep` is `keep_max`, or negative. -/
theorem keep_cases (keepMax : UInt32) :
    (keepMax.toNat < 2 ^ 31 ∧ keepMax.toInt32.toInt = keepMax.toNat) ∨
      (2 ^ 31 ≤ keepMax.toNat ∧ keepMax.toInt32.toInt < 0) := by
  have hlt := keepMax.toNat_lt
  have hint : keepMax.toInt32.toInt = keepMax.toBitVec.toInt := rfl
  rw [hint, BitVec.toInt_eq_toNat_cond, UInt32.toNat_toBitVec]
  split <;> omega

/-- Nothing is unlinked when there are no names too many. -/
theorem pruned_kept (hc : dir.names.countP smells ≤ keepMax.toNat) :
    Pruned keepMax.toNat dir.names (some (0, dir.names)) := by
  refine ⟨dir.names, rfl, fun d => ⟨fun hd => ⟨hd, fun ha => ?_⟩, And.left⟩⟩
  have hlt := greater_lt hd ha
  have hle := @countP_isArchive_le dir.names
  omega

/-- The least name goes when it is of an archive and the only one too many. -/
theorem pruned_least (hc : dir.names.countP isArchive = keepMax.toNat + 1)
    (hm : least target0 dir.names ∈ dir.names) (ha : isArchive (least target0 dir.names)) :
    Pruned keepMax.toNat dir.names (some (0, dir.names.erase (least target0 dir.names))) := by
  have hle : ∀ e ∈ dir.names, isArchive e → ¬ e < least target0 dir.names :=
    fun e he hae => least_le_name he (isArchive_smells hae)
  refine ⟨_, rfl, fun d => ⟨fun hd => ?_, fun ⟨hd, hkeep⟩ => ?_⟩⟩
  · have hmem := List.mem_of_mem_erase hd
    refine ⟨hmem, fun had => ?_⟩
    have hne : d ≠ least target0 dir.names := by
      intro h
      rw [h] at hd
      exact dir.nodup.not_mem_erase hd
    have hlt := greater_lt_erase hm ha hmem had hne (hle d hmem had)
    omega
  · refine (List.mem_erase_of_ne fun h => ?_).mpr hd
    have hall := greater_least dir.nodup hm ha hle
    have hlt := hkeep (h ▸ ha)
    rw [h] at hlt
    omega

/-- A name that is lost is of an archive, and there are too many. -/
theorem lost_archive {left : List (List UInt8)} {keep : ℕ} {d : List UInt8}
    (h : Pruned keep dir.names (some (0, left))) (hd : d ∈ dir.names) (hleft : d ∉ left) :
    isArchive d ∧ keep < dir.names.countP isArchive := by
  obtain ⟨left', heq, hiff⟩ := h
  obtain rfl : left = left' := by simpa using heq
  have hlost : ¬ (isArchive d → greater d dir.names < keep) := fun hk => hleft ((hiff d).mpr ⟨hd, hk⟩)
  rw [Classical.not_imp] at hlost
  obtain ⟨ha, hk⟩ := hlost
  have hlt := greater_lt hd ha
  exact ⟨ha, by omega⟩

/-- One call of `tinylog_prune()` keeps just the `keep_max` greatest archives, and
every name that is not of an archive, if and only if the directory is `Prunable`. -/
theorem tinylogPrune_iff (keepMax : UInt32) (dir : Dir) :
    Pruned keepMax.toNat dir.names (tinylogPrune keepMax noFailing dir.names) ↔
      Prunable keepMax dir.names := by
  by_cases hfault : Overlong target0 dir.names ∨ 2 ^ 31 ≤ dir.names.countP smells
  · rw [prune_fault hfault]
    constructor
    · rintro ⟨left, h, -⟩
      simp at h
    · rintro ⟨-, hc, ho, -⟩
      rcases hfault with h | h
      · exact absurd h ho
      · omega
  rw [not_or, Nat.not_le] at hfault
  obtain ⟨ho, hc⟩ := hfault
  rw [prune_scanned ho hc]
  have hcount := @countP_isArchive_le dir.names
  have hkeep := keep_cases keepMax
  generalize keepMax.toInt32.toInt = keep at hkeep
  constructor
  · intro hpruned
    split at hpruned
    · exact ⟨by omega, hc, ho, .inl (by omega)⟩
    split at hpruned
    · obtain ⟨left, h, -⟩ := hpruned
      simp at h
    next hmem =>
    rw [not_not] at hmem
    split at hpruned
    · obtain ⟨left, h, -⟩ := hpruned
      simp at h
    obtain ⟨ha, hlt⟩ := lost_archive hpruned hmem dir.nodup.not_mem_erase
    refine ⟨by omega, hc, ho, .inr ⟨by omega, fun d hd hs => ?_⟩⟩
    by_contra hna
    -- a name that only smells like an archive leaves room for all archives
    have hless : dir.names.countP isArchive < dir.names.countP smells := by
      rw [(List.perm_cons_erase hd).countP_eq isArchive, (List.perm_cons_erase hd).countP_eq smells,
        List.countP_cons_of_neg hna, List.countP_cons_of_pos hs]
      exact Nat.lt_succ_of_le countP_isArchive_le
    omega
  · rintro ⟨hk, -, -, hle | ⟨hone, hall⟩⟩
    · rw [if_pos (by omega)]
      exact pruned_kept hle
    · have hsame : dir.names.countP isArchive = dir.names.countP smells := by
        apply List.countP_congr
        exact fun d hd => ⟨isArchive_smells, hall d hd⟩
      -- some name smells like an archive, so it is one and below the initial target
      obtain ⟨d, hd, hs⟩ := List.countP_pos_iff.mp (by omega : 0 < dir.names.countP smells)
      have hlt := isArchive_lt (hall d hd hs)
      have hnle := least_le_name (t := target0) hd hs
      have hmem : least target0 dir.names ∈ dir.names ∧ smells (least target0 dir.names) := by
        rcases least_mem target0 dir.names with h | h
        · rw [h] at hnle
          exact absurd hlt hnle
        · exact h
      rw [if_neg (by omega), if_neg (not_not.mpr hmem.1), if_neg (by omega)]
      exact pruned_least (hsame.trans hone) hmem.1 (hall _ hmem.1 hmem.2)

end

/-- The archive of the second `n` of a minute -/
def archive (n : UInt8) : List UInt8 :=
  [95, 50, 48, 48, 57, 48, 50, 49, 51, 84, 50, 51, 51, 49, 51, 48 + n, 46, 48, 48, 48, 48, 48, 48, 46, 115]

/-- Of three archives, with `-k 1`, the first pass removes one, and the second
reads from a closed stream. -/
theorem tinylogPrune_surplus :
    ¬ Pruned 1 [archive 0, archive 1, archive 2]
      (tinylogPrune 1 noFailing [archive 0, archive 1, archive 2]) := by
  have hfault : tinylogPrune 1 noFailing [archive 0, archive 1, archive 2] = none := by decide +kernel
  rw [hfault]
  rintro ⟨left, h, -⟩
  simp at h

end Perp.TinylogPrune
