import Mathlib.Data.List.DropRight
import Perp.Inplace

set_option autoImplicit false

/-!
# Trimming strings

`cstr_ltrim()`, `cstr_rtrim()` and `cstr_trim()`, in the memory from the start of a string.
-/
namespace Perp.CstrTrim
open Inplace

/-! ## The functions -/

/-- `isspace()` of the C locale -/
def isspace (c : UInt8) : Bool := c = 32 || 9 ≤ c && c ≤ 13

/-- `while(*sX && isspace(*sX)) ++sX`: how far it goes -/
def skip : List UInt8 → Option ℕ
  | [] => none
  | c :: b => if c ≠ 0 ∧ isspace c = true then (skip b).map (· + 1) else some 0

/-- `while(*sN) ++sN` -/
def toNul : List UInt8 → Option ℕ
  | [] => none
  | c :: b => if c ≠ 0 then (toNul b).map (· + 1) else some 0

/-- `while(*sX) *sN++ = *sX++;`, and the NUL behind it -/
def moveDown : ℕ → List UInt8 → ℕ → ℕ → Option (List UInt8)
  | 0, _, _, _ => none
  | fuel + 1, b, sN, sX =>
    b[sX]?.bind fun c =>
      if c ≠ 0 then (store b sN c).bind fun b => moveDown fuel b (sN + 1) (sX + 1)
      else store b sN 0

def cstrLtrim (b : List UInt8) : Option (List UInt8) :=
  (skip b).bind fun sX => if sX ≠ 0 then moveDown (b.length + 1) b 0 sX else some b

/-- The loop of `cstr_rtrim()`. It ends at the first byte, which it leaves. -/
def rtrimLoop : ℕ → List UInt8 → Option (List UInt8)
  | 0, b => some b
  | sN + 1, b =>
    b[sN + 1]?.bind fun c =>
      if isspace c = true then (store b (sN + 1) 0).bind (rtrimLoop sN) else some b

def cstrRtrim (b : List UInt8) : Option (List UInt8) :=
  (toNul b).bind fun sN => rtrimLoop (if sN > 0 then sN - 1 else sN) b

def cstrTrim (b : List UInt8) : Option (List UInt8) := (cstrRtrim b).bind cstrLtrim

/-! ## What they are for -/

def ltrimmed (s : List UInt8) : List UInt8 := s.dropWhile isspace

def rtrimmed (s : List UInt8) : List UInt8 := s.rdropWhile isspace

def trimmed (s : List UInt8) : List UInt8 := ltrimmed (rtrimmed s)

def Blank (s : List UInt8) : Prop := ∀ c ∈ s, isspace c = true

instance (s : List UInt8) : Decidable (Blank s) := List.decidableBAll _ s

/-- A function leaves of a string what it is to keep, and the memory behind the string as it
was; a second call leaves it so; and a blank string begins with its NUL. -/
structure Trims (f : List UInt8 → Option (List UInt8)) (kept : List UInt8 → List UInt8)
    (s rest : List UInt8) : Prop where
  result : ∃ junk, junk.length + (kept s).length = s.length ∧
    f (s ++ 0 :: rest) = some (kept s ++ 0 :: (junk ++ rest))
  again : ∀ b, f (s ++ 0 :: rest) = some b → ∃ junk, f b = some (kept s ++ 0 :: junk)
  blank : Blank s → ∀ b, f (s ++ 0 :: rest) = some b → b.head? = some 0

/-- A string with the memory behind it -/
structure Line where
  bytes : List UInt8
  nul : 0 ∉ bytes
  rest : List UInt8

def AllTrim (s : Line) : Prop :=
  Trims cstrLtrim ltrimmed s.bytes s.rest ∧ Trims cstrRtrim rtrimmed s.bytes s.rest ∧
    Trims cstrTrim trimmed s.bytes s.rest

/-! ## The walks -/

variable {s t rest : List UInt8} {c : UInt8}

theorem skip_eq (h : 0 ∉ s) : skip (s ++ 0 :: rest) = some (s.takeWhile isspace).length := by
  induction s with
  | nil => rfl
  | cons c s ih =>
    have hc : c ≠ 0 := fun hc => h (List.mem_cons.mpr (.inl hc.symm))
    by_cases hspace : isspace c = true
    · rw [List.cons_append, skip, if_pos ⟨hc, hspace⟩, ih fun hmem => h (List.mem_cons_of_mem c hmem),
        List.takeWhile_cons_of_pos hspace]
      rfl
    · rw [List.cons_append, skip, if_neg fun hboth => hspace hboth.2,
        List.takeWhile_cons_of_neg hspace]
      rfl

theorem toNul_eq (h : 0 ∉ s) : toNul (s ++ 0 :: rest) = some s.length := by
  induction s with
  | nil => rfl
  | cons c s ih =>
    have hc : c ≠ 0 := fun hc => h (List.mem_cons.mpr (.inl hc.symm))
    rw [List.cons_append, toNul, if_pos hc, ih fun hmem => h (List.mem_cons_of_mem c hmem)]
    rfl

/-- What stands behind the NUL of a string when its leading blanks are gone: the end of the old
string, with its NUL -/
def leftBehind (s : List UInt8) : List UInt8 := (s ++ [0]).drop ((ltrimmed s).length + 1)

/-- The two cursors have what is kept in front of them, and between them as many bytes of
the old string as are to go. -/
theorem moveDown_eq {fuel : ℕ} (kept gap todo rest : List UInt8) (hnul : 0 ∉ todo)
    (hfuel : todo.length < fuel) :
    moveDown fuel (kept ++ gap ++ todo ++ 0 :: rest) kept.length (kept.length + gap.length) =
      some (kept ++ todo ++ 0 :: ((gap ++ todo ++ [0]).drop (todo.length + 1) ++ rest)) := by
  induction todo generalizing fuel kept gap with
  | nil =>
    cases fuel with
    | zero => cases hfuel
    | succ fuel =>
      have hget := get_at (kept ++ gap) rest 0
      rw [List.length_append] at hget
      rw [moveDown, List.append_nil, hget, Option.bind_some, if_neg fun h => h rfl, store_tail]
      simp
  | cons c todo ih =>
    cases fuel with
    | zero => cases hfuel
    | succ fuel =>
      have hc : c ≠ 0 := fun hc => hnul (List.mem_cons.mpr (.inl hc.symm))
      have hget := get_at (kept ++ gap) (todo ++ 0 :: rest) c
      have hgap : (gap ++ [c]).tail.length = gap.length := by
        rw [List.length_tail, List.length_append]
        rfl
      have htail : (gap ++ [c]).tail ++ todo ++ [0] = (gap ++ c :: todo ++ [0]).drop 1 := by
        rw [List.drop_one, List.append_assoc, ← List.tail_append_of_ne_nil (by simp)]
        simp
      have hmoved := ih (kept ++ [c]) (gap ++ [c]).tail
        (fun hmem => hnul (List.mem_cons_of_mem c hmem)) (Nat.lt_of_succ_lt_succ hfuel)
      rw [List.length_append] at hget
      rw [List.length_append, List.length_singleton, hgap, List.append_assoc _ todo, htail,
        List.drop_drop, Nat.add_comm 1] at hmoved
      rw [moveDown, List.append_assoc, List.cons_append, hget, Option.bind_some, if_pos hc, store_tail,
        Option.bind_some, Nat.add_right_comm, hmoved]
      simp

theorem ltrim_exact (h : 0 ∉ s) (rest : List UInt8) :
    cstrLtrim (s ++ 0 :: rest) = some (ltrimmed s ++ 0 :: (leftBehind s ++ rest)) := by
  have hsplit := List.takeWhile_append_dropWhile (p := isspace) (l := s)
  rw [cstrLtrim, skip_eq h, Option.bind_some, leftBehind]
  by_cases hnone : (s.takeWhile isspace).length = 0
  · rw [List.length_eq_zero_iff.mp hnone, List.nil_append] at hsplit
    rw [if_neg fun hn => hn hnone, ltrimmed, hsplit, List.drop_of_length_le]
    · rfl
    · rw [List.length_append]
      exact Nat.le_refl _
  · have hnul : 0 ∉ s.dropWhile isspace := fun hmem => h (List.dropWhile_subset isspace hmem)
    have hfuel : (s.dropWhile isspace).length < (s ++ 0 :: rest).length + 1 := by
      have hlen := congrArg List.length hsplit
      rw [List.length_append] at hlen
      rw [List.length_append]
      omega
    have hmoved := moveDown_eq [] (s.takeWhile isspace) (s.dropWhile isspace) rest hnul hfuel
    rw [List.nil_append, hsplit, List.length_nil, Nat.zero_add, List.nil_append] at hmoved
    rw [if_pos hnone, hmoved]
    rfl

theorem leftBehind_length (s : List UInt8) :
    (leftBehind s).length + (ltrimmed s).length = s.length := by
  have hle := (List.dropWhile_suffix (l := s) isspace).length_le
  rw [leftBehind, List.length_drop, List.length_append, List.length_singleton]
  rw [ltrimmed]
  omega

theorem ltrim_eq (h : 0 ∉ s) (rest : List UInt8) :
    ∃ junk, junk.length + (ltrimmed s).length = s.length ∧
      cstrLtrim (s ++ 0 :: rest) = some (ltrimmed s ++ 0 :: (junk ++ rest)) :=
  ⟨leftBehind s, leftBehind_length s, ltrim_exact h rest⟩

theorem rtrimLoop_eq (c : UInt8) (s tail : List UInt8) :
    ∃ n, n + (rtrimmed s).length = s.length ∧
      rtrimLoop s.length (c :: (s ++ tail)) = some (c :: (rtrimmed s ++ List.replicate n 0 ++ tail)) := by
  induction s using List.reverseRecOn generalizing tail with
  | nil => exact ⟨0, rfl, rfl⟩
  | append_singleton s d ih =>
    have hget := get_at (c :: s) tail d
    have hstore := store_at (c :: s) tail d 0
    rw [List.length_cons] at hget hstore
    rw [List.length_append, List.length_singleton, rtrimLoop, List.append_assoc, List.singleton_append,
      ← List.cons_append, hget, Option.bind_some]
    by_cases hd : isspace d = true
    · obtain ⟨n, hlen, hloop⟩ := ih (0 :: tail)
      use n + 1
      rw [rtrimmed, List.rdropWhile_concat_pos isspace s d hd]
      rw [rtrimmed] at hlen hloop
      constructor
      · omega
      · rw [if_pos hd, hstore, Option.bind_some, List.cons_append, hloop, List.replicate_succ']
        simp
    · use 0
      rw [rtrimmed, List.rdropWhile_concat_neg isspace s d hd, if_neg hd]
      constructor
      · rw [Nat.zero_add, List.length_append, List.length_singleton]
      · simp

/-- What `cstr_rtrim()` keeps: the first byte always -/
def rtrimKept : List UInt8 → List UInt8
  | [] => []
  | c :: s => c :: rtrimmed s

/-- What `cstr_rtrim()` puts in the place of what it takes -/
def cleared (s : List UInt8) : List UInt8 := List.replicate (s.length - (rtrimKept s).length) 0

theorem rtrim_exact (h : 0 ∉ s) (rest : List UInt8) :
    cstrRtrim (s ++ 0 :: rest) = some (rtrimKept s ++ 0 :: (cleared s ++ rest)) := by
  rw [cstrRtrim, toNul_eq h, Option.bind_some]
  cases s with
  | nil => rfl
  | cons c s =>
    obtain ⟨n, hlen, hloop⟩ := rtrimLoop_eq c s (0 :: rest)
    have hpos : (c :: s).length > 0 := Nat.succ_pos s.length
    have hcleared : cleared (c :: s) = List.replicate n 0 := by
      rw [cleared, rtrimKept, List.length_cons, List.length_cons]
      congr 1
      omega
    have hswap : List.replicate n 0 ++ 0 :: rest = 0 :: (List.replicate n 0 ++ rest) := by
      rw [← List.singleton_append, ← List.append_assoc, ← List.replicate_succ', List.replicate_succ]
      rfl
    rw [if_pos hpos, List.length_cons, Nat.add_sub_cancel, List.cons_append, hloop, hcleared,
      rtrimKept, List.append_assoc, hswap]
    rfl

theorem cleared_length (s : List UInt8) : (cleared s).length + (rtrimKept s).length = s.length := by
  have hle : (rtrimKept s).length ≤ s.length := by
    cases s with
    | nil => exact Nat.le_refl _
    | cons c s => exact Nat.succ_le_succ (List.rdropWhile_prefix isspace s).length_le
  rw [cleared, List.length_replicate]
  omega

theorem rtrim_eq (h : 0 ∉ s) (rest : List UInt8) :
    ∃ junk, junk.length + (rtrimKept s).length = s.length ∧
      cstrRtrim (s ++ 0 :: rest) = some (rtrimKept s ++ 0 :: (junk ++ rest)) :=
  ⟨cleared s, cleared_length s, rtrim_exact h rest⟩

theorem rtrimmed_cons (c : UInt8) (s : List UInt8) :
    rtrimmed (c :: s) = if Blank (c :: s) then [] else c :: rtrimmed s := by
  induction s using List.reverseRecOn with
  | nil =>
    rw [rtrimmed, List.rdropWhile_singleton]
    simp [Blank, rtrimmed]
  | append_singleton s d ih =>
    rw [← List.cons_append, rtrimmed, rtrimmed]
    by_cases hd : isspace d = true
    · have hsame : Blank (c :: s ++ [d]) ↔ Blank (c :: s) := by
        rw [Blank, List.forall_mem_append, List.forall_mem_singleton]
        exact and_iff_left hd
      rw [List.rdropWhile_concat_pos isspace (c :: s) d hd, List.rdropWhile_concat_pos isspace s d hd]
      exact ih.trans (if_congr hsame rfl rfl).symm
    · have hnot : ¬ Blank (c :: s ++ [d]) := fun h => hd (h d (List.mem_append_right _ List.mem_cons_self))
      rw [List.rdropWhile_concat_neg isspace (c :: s) d hd, List.rdropWhile_concat_neg isspace s d hd,
        if_neg hnot]
      rfl

theorem rtrimKept_eq (h : s = [] ∨ ¬ Blank s) : rtrimKept s = rtrimmed s := by
  cases s with
  | nil => rfl
  | cons c s =>
    rw [rtrimmed_cons, if_neg (h.resolve_left (List.cons_ne_nil c s))]
    rfl

theorem rtrimKept_blank (h : Blank (c :: s)) : rtrimKept (c :: s) = [c] := by
  have hs : rtrimmed s = [] :=
    List.rdropWhile_eq_nil_iff.mpr fun d hd => h d (List.mem_cons_of_mem c hd)
  rw [rtrimKept, hs]

/-! ## What they keep -/

theorem ltrimmed_blank (h : Blank s) : ltrimmed s = [] :=
  List.dropWhile_eq_nil_iff.mpr h

theorem rtrimmed_blank (h : Blank s) : rtrimmed s = [] :=
  List.rdropWhile_eq_nil_iff.mpr h

theorem ltrimmed_rtrimKept (s : List UInt8) : ltrimmed (rtrimKept s) = trimmed s := by
  by_cases h : s = [] ∨ ¬ Blank s
  · rw [rtrimKept_eq h, trimmed]
  · rw [not_or, not_not] at h
    cases s with
    | nil => exact absurd rfl h.1
    | cons c s =>
      have hc : isspace c = true := h.2 c List.mem_cons_self
      rw [rtrimKept_blank h.2, trimmed, rtrimmed_blank h.2, ltrimmed, List.dropWhile_cons_of_pos hc]
      rfl

theorem not_mem_rtrimmed (h : 0 ∉ s) : 0 ∉ rtrimmed s := fun hmem =>
  h ((List.rdropWhile_prefix isspace s).subset hmem)

theorem not_mem_rtrimKept (h : 0 ∉ s) : 0 ∉ rtrimKept s := by
  cases s with
  | nil => exact h
  | cons c s =>
    rw [List.mem_cons, not_or] at h
    rw [rtrimKept, List.mem_cons, not_or]
    exact ⟨h.1, not_mem_rtrimmed h.2⟩

theorem rtrimmed_idempotent (s : List UInt8) : rtrimmed (rtrimmed s) = rtrimmed s :=
  List.rdropWhile_idempotent isspace s

theorem ltrimmed_idempotent (s : List UInt8) : ltrimmed (ltrimmed s) = ltrimmed s :=
  List.dropWhile_idempotent isspace s

/-- What begins with no space is not begun with one when its end is trimmed. -/
theorem rtrimmed_ltrimmed (s : List UInt8) : rtrimmed (ltrimmed s) = trimmed s := by
  induction s with
  | nil => rfl
  | cons c s ih =>
    rw [trimmed, rtrimmed_cons]
    by_cases hc : isspace c = true
    · rw [ltrimmed, List.dropWhile_cons_of_pos hc]
      rw [trimmed] at ih
      rw [ltrimmed] at ih
      rw [ih]
      by_cases hs : Blank s
      · have hcs : Blank (c :: s) := by simpa [Blank, hc] using hs
        rw [if_pos hcs, rtrimmed_blank hs]
      · have hcs : ¬ Blank (c :: s) := by simpa [Blank, hc] using hs
        rw [if_neg hcs, ltrimmed, ltrimmed, List.dropWhile_cons_of_pos hc]
    · have hcs : ¬ Blank (c :: s) := fun h => hc (h c List.mem_cons_self)
      rw [if_neg hcs, ltrimmed, ltrimmed, List.dropWhile_cons_of_neg hc, List.dropWhile_cons_of_neg hc,
        rtrimmed_cons, if_neg hcs]

theorem trimmed_idempotent (s : List UInt8) : trimmed (trimmed s) = trimmed s := by
  calc trimmed (trimmed s) = ltrimmed (rtrimmed (rtrimmed (ltrimmed s))) := by
        rw [rtrimmed_ltrimmed, trimmed]
    _ = ltrimmed (trimmed s) := by rw [rtrimmed_idempotent, rtrimmed_ltrimmed]
    _ = trimmed s := ltrimmed_idempotent _

/-- What stands behind the NUL of a trimmed string -/
def trimBehind (s : List UInt8) : List UInt8 := leftBehind (rtrimKept s) ++ cleared s

theorem trim_exact (h : 0 ∉ s) (rest : List UInt8) :
    cstrTrim (s ++ 0 :: rest) = some (trimmed s ++ 0 :: (trimBehind s ++ rest)) := by
  rw [cstrTrim, rtrim_exact h, Option.bind_some, ltrim_exact (not_mem_rtrimKept h), ltrimmed_rtrimKept,
    trimBehind, List.append_assoc]

theorem trimBehind_length (s : List UInt8) :
    (trimBehind s).length + (trimmed s).length = s.length := by
  have hleft := leftBehind_length (rtrimKept s)
  have hcleared := cleared_length s
  rw [ltrimmed_rtrimKept] at hleft
  rw [trimBehind, List.length_append]
  omega

theorem trim_eq (h : 0 ∉ s) (rest : List UInt8) :
    ∃ junk, junk.length + (trimmed s).length = s.length ∧
      cstrTrim (s ++ 0 :: rest) = some (trimmed s ++ 0 :: (junk ++ rest)) :=
  ⟨trimBehind s, trimBehind_length s, trim_exact h rest⟩

/-! ## Trimming -/

/-- A function that keeps of every string of a kind what it is to keep trims them all. -/
theorem trims_of {f : List UInt8 → Option (List UInt8)} {kept : List UInt8 → List UInt8}
    (P : List UInt8 → Prop) (hs : P s) (hkept : ∀ s, P s → P (kept s))
    (hidem : ∀ s, kept (kept s) = kept s) (hblank : Blank s → kept s = [])
    (hf : ∀ s rest, P s → ∃ junk, junk.length + (kept s).length = s.length ∧
      f (s ++ 0 :: rest) = some (kept s ++ 0 :: (junk ++ rest))) (rest : List UInt8) :
    Trims f kept s rest := by
  obtain ⟨junk, hlen, hrun⟩ := hf s rest hs
  refine ⟨⟨junk, hlen, hrun⟩, ?_, ?_⟩
  · intro b hb
    obtain ⟨more, _, hmore⟩ := hf (kept s) (junk ++ rest) (hkept s hs)
    rw [hrun, Option.some.injEq] at hb
    rw [hidem, hb] at hmore
    exact ⟨_, hmore⟩
  · intro h b hb
    rw [hrun, Option.some.injEq, hblank h] at hb
    rw [← hb]
    rfl

theorem ltrim_trims (h : 0 ∉ s) (rest : List UInt8) : Trims cstrLtrim ltrimmed s rest := by
  apply trims_of (0 ∉ ·) h _ ltrimmed_idempotent ltrimmed_blank fun s rest hs => ltrim_eq hs rest
  intro s hs hmem
  exact hs (List.dropWhile_subset isspace hmem)

theorem trim_trims (h : 0 ∉ s) (rest : List UInt8) : Trims cstrTrim trimmed s rest := by
  apply trims_of (0 ∉ ·) h _ trimmed_idempotent _ fun s rest hs => trim_eq hs rest
  · intro s hs hmem
    exact not_mem_rtrimmed hs (List.dropWhile_subset isspace hmem)
  · intro hb
    rw [trimmed, rtrimmed_blank hb]
    rfl

theorem rtrim_trims (h : 0 ∉ s) (hs : s = [] ∨ ¬ Blank s) (rest : List UInt8) :
    Trims cstrRtrim rtrimmed s rest := by
  apply trims_of (fun s => 0 ∉ s ∧ (s = [] ∨ ¬ Blank s)) ⟨h, hs⟩ _ rtrimmed_idempotent rtrimmed_blank
  · intro s rest hs
    have hrun := rtrim_eq hs.1 rest
    rwa [rtrimKept_eq hs.2] at hrun
  · intro s hs
    refine ⟨not_mem_rtrimmed hs.1, ?_⟩
    by_cases hnil : rtrimmed s = []
    · exact .inl hnil
    · apply Or.inr
      intro hb
      exact List.rdropWhile_last_not isspace s hnil (hb _ (List.getLast_mem hnil))

/-- `cstr_rtrim()` does not take the first byte of a string. -/
theorem all_trim_iff (s : Line) : AllTrim s ↔ s.bytes = [] ∨ ∃ c ∈ s.bytes, isspace c = false := by
  have hblank : (s.bytes = [] ∨ ∃ c ∈ s.bytes, isspace c = false) ↔ s.bytes = [] ∨ ¬ Blank s.bytes := by
    rw [Blank]
    push Not
    simp only [ne_eq, Bool.not_eq_true]
  rw [hblank]
  constructor
  · intro h
    by_contra hnot
    rw [not_or, not_not] at hnot
    obtain ⟨junk, _, hrun⟩ := rtrim_eq s.nul s.rest
    have hhead := h.2.1.blank hnot.2 _ hrun
    generalize hs : s.bytes = bytes at hnot hhead
    cases bytes with
    | nil => exact hnot.1 rfl
    | cons c t =>
      apply s.nul
      rw [hs, ← Option.some.inj hhead]
      exact List.mem_cons_self
  · intro h
    exact ⟨ltrim_trims s.nul s.rest, rtrim_trims s.nul h s.rest, trim_trims s.nul s.rest⟩

/-- A line of one space -/
theorem rtrim_leaves_space : ¬ AllTrim ⟨[32], by decide, []⟩ := by
  intro h
  have hhead := h.2.1.blank (by decide) [32, 0] (by decide)
  cases hhead

end Perp.CstrTrim
