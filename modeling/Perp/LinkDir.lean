import Mathlib.Data.List.Nodup
import Mathlib.Data.Nat.Notation
import Mathlib.Tactic.Common

set_option autoImplicit false

/-!
# Directories of hard links

A directory maps names to numbered files. A file may stand under several names,
and is lost with the last one.
-/
namespace Perp.LinkDir

universe u
variable {ν : Type u}

/-- The names of a directory with their files. -/
abbrev Names (ν : Type u) := List (ν × ℕ)

/-- A name stands for one file. -/
def Single (d : Names ν) : Prop := (d.map Prod.fst).Nodup

/-- The link count -/
def nlink (d : Names ν) (i : ℕ) : ℕ := d.countP (·.2 = i)

/-- A new name for the file `i`. -/
def link (d : Names ν) (n : ν) (i : ℕ) : Names ν := (n, i) :: d

section
variable {d : Names ν} {n m : ν} {i j : ℕ}

theorem Single.eq (hs : Single d) (hi : (n, i) ∈ d) (hj : (n, j) ∈ d) : i = j :=
  (Prod.mk.inj (List.inj_on_of_nodup_map hs hi hj rfl)).2

@[simp] theorem mem_link : (m, i) ∈ link d n j ↔ (m = n ∧ i = j) ∨ (m, i) ∈ d := by
  simp [link]

theorem nlink_pos : 0 < nlink d i ↔ ∃ n, (n, i) ∈ d := by
  rw [nlink, List.countP_pos_iff]
  constructor
  · rintro ⟨⟨n, j⟩, hm, hj⟩
    obtain rfl : j = i := by simpa using hj
    exact ⟨n, hm⟩
  · rintro ⟨n, hm⟩
    exact ⟨(n, i), hm, by simp⟩

end

variable [DecidableEq ν]

def lookup (d : Names ν) (n : ν) : Option ℕ := (d.find? (·.1 = n)).map Prod.snd

def unlink (d : Names ν) (n : ν) : Names ν := d.filter (·.1 ≠ n)

/-- `rename()`: two names of the same file are left alone. -/
def rename (d : Names ν) (a b : ν) : Names ν :=
  match lookup d a with
  | none => d
  | some i => if lookup d b = some i then d else (b, i) :: unlink (unlink d b) a

variable {d : Names ν} {n m a b : ν} {i j : ℕ}

theorem lookup_mem (h : lookup d n = some i) : (n, i) ∈ d := by
  obtain ⟨⟨m, j⟩, hfind, rfl⟩ := Option.map_eq_some_iff.mp h
  have hm : m = n := by simpa using List.find?_some hfind
  exact hm ▸ List.mem_of_find?_eq_some hfind

theorem Single.lookup_iff (hs : Single d) : lookup d n = some i ↔ (n, i) ∈ d := by
  refine ⟨lookup_mem, fun h => ?_⟩
  cases hl : lookup d n with
  | none =>
    have hnone := List.find?_eq_none.mp (Option.map_eq_none_iff.mp hl) (n, i) h
    simp at hnone
  | some j => rw [hs.eq (lookup_mem hl) h]

theorem lookup_none (h : lookup d n = none) : (n, i) ∉ d := by
  intro hi
  have hnone := List.find?_eq_none.mp (Option.map_eq_none_iff.mp h) (n, i) hi
  simp at hnone

@[simp] theorem mem_unlink : (m, i) ∈ unlink d n ↔ (m, i) ∈ d ∧ m ≠ n := by
  simp [unlink]

theorem mem_rename (hs : Single d) (ha : (a, i) ∈ d) (hb : (b, i) ∉ d) :
    (m, j) ∈ rename d a b ↔ (m = b ∧ j = i) ∨ ((m, j) ∈ d ∧ m ≠ b ∧ m ≠ a) := by
  simp [rename, hs.lookup_iff.mpr ha, hs.lookup_iff, hb, and_assoc]

theorem single_unlink (hs : Single d) (n : ν) : Single (unlink d n) :=
  hs.sublist (List.filter_sublist.map _)

theorem single_link (hs : Single d) (h : lookup d n = none) (i : ℕ) : Single (link d n i) := by
  refine List.nodup_cons.mpr ⟨fun hm => ?_, hs⟩
  obtain ⟨⟨m, j⟩, hmem, rfl⟩ := List.mem_map.mp hm
  exact lookup_none h hmem

theorem single_rename (hs : Single d) (a b : ν) : Single (rename d a b) := by
  unfold rename
  split
  · exact hs
  · split
    · exact hs
    · refine List.nodup_cons.mpr ⟨fun hm => ?_, single_unlink (single_unlink hs b) a⟩
      obtain ⟨⟨m, j⟩, hmem, rfl⟩ := List.mem_map.mp hm
      simp at hmem

/-- A file whose link count is not 1 has another name. -/
theorem other_name (hs : Single d) (hi : (n, i) ∈ d) (h : nlink d i ≠ 1) :
    ∃ m, m ≠ n ∧ (m, i) ∈ d := by
  have hsplit : nlink d i = 1 + nlink (d.erase (n, i)) i := by
    rw [nlink, (List.perm_cons_erase hi).countP_eq, List.countP_cons_of_pos (by simp), Nat.add_comm]
    rfl
  obtain ⟨m, hm⟩ := nlink_pos.mp (show 0 < nlink (d.erase (n, i)) i by omega)
  refine ⟨m, fun heq => ?_, List.mem_of_mem_erase hm⟩
  rw [heq] at hm
  exact hs.of_map.not_mem_erase hm

end Perp.LinkDir
