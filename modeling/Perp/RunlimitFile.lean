import Perp.Cstr
import Perp.CstrTrim
import Perp.Refusal

set_option autoImplicit false

/-!
# The limits file of runlimit

What `do_file()` makes of the lines, and its loop over them.
-/
namespace Perp.RunlimitFile
open Cstr (cstrPos)
open CstrTrim
open Inplace (store)
open Refusal

/-! ## The function -/

/-- A line is skipped, or has no `=`, or is of a key and a value. -/
inductive Line where
  | skipped
  | unsplit
  | setting (key val : List UInt8)
  deriving DecidableEq, Repr

def text (b : List UInt8) : List UInt8 := b.takeWhile (· ≠ 0)

/-- The key and the value around the `=`, cut out and trimmed in place -/
def cutSetting (b : List UInt8) (split : ℕ) : Option Line :=
  (store b split 0).bind fun b =>
    (cstrRtrim b).bind fun b =>
      (cstrLtrim (b.drop (split + 1))).bind fun val =>
        b.head?.bind fun c => if c = 0 then some .skipped else some (.setting (text b) (text val))

/-- The parse of a line, in its memory -/
def parseLine (b : List UInt8) : Option Line :=
  (cstrTrim b).bind fun b =>
    b.head?.bind fun c =>
      if c = 0 ∨ c = 35 then some .skipped
      else b[cstrPos (text b) 61]?.bind fun c =>
        if c = 61 then cutSetting b (cstrPos (text b) 61) else some .unsplit

/-! ## What a line says -/

/-- A setting, trimmed around its parts -/
def lineOf (s : List UInt8) : Line :=
  let t := trimmed s
  if t = [] ∨ t.head? = some 35 then .skipped
  else if 61 ∈ t then
    let key := rtrimmed (t.take (cstrPos t 61))
    if key = [] then .skipped else .setting key (ltrimmed (t.drop (cstrPos t 61 + 1)))
  else .unsplit

variable {s t k v : List UInt8}

theorem text_eq (h : 0 ∉ s) (rest : List UInt8) : text (s ++ 0 :: rest) = s :=
  Cstr.takeWhile_nul h rest

theorem trimmed_head {c : UInt8} (h : c ∈ (trimmed s).head?) : isspace c = false := by
  have hnot := List.head?_dropWhile_not isspace (rtrimmed s)
  rw [trimmed, ltrimmed] at h
  rwa [h] at hnot

theorem not_mem_trimmed (h : 0 ∉ s) : 0 ∉ trimmed s := fun hmem =>
  not_mem_rtrimmed h (List.dropWhile_subset isspace hmem)

/-- The part before the `=` begins as the line does, and so trimming it leaves no blank. -/
theorem rtrimKept_key (h : trimmed s = k ++ 61 :: v) : rtrimKept k = rtrimmed k := by
  apply rtrimKept_eq
  cases k with
  | nil => exact .inl rfl
  | cons c k =>
    apply Or.inr
    intro hblank
    have hhead : c ∈ (trimmed s).head? := by
      rw [h]
      rfl
    have hspace := hblank c List.mem_cons_self
    rw [trimmed_head hhead] at hspace
    exact Bool.false_ne_true hspace

theorem head_nul (h : 0 ∉ s) (rest : List UInt8) :
    ∃ c, (s ++ 0 :: rest).head? = some c ∧ (c = 0 ↔ s = []) ∧ (c = 35 ↔ s.head? = some 35) := by
  cases s with
  | nil => exact ⟨0, rfl, iff_of_true rfl rfl, by decide⟩
  | cons c s =>
    have hc : c ≠ 0 := fun hc => h (List.mem_cons.mpr (.inl hc.symm))
    refine ⟨c, rfl, iff_of_false hc (List.cons_ne_nil c s), ?_⟩
    rw [List.head?_cons, Option.some.injEq]

theorem cutSetting_eq (hkept : rtrimKept k = rtrimmed k) (hk : 0 ∉ k) (hv : 0 ∉ v)
    (rest : List UInt8) : cutSetting (k ++ 61 :: v ++ 0 :: rest) k.length =
      some (if rtrimmed k = [] then .skipped else .setting (rtrimmed k) (ltrimmed v)) := by
  obtain ⟨junk, hlen, hr⟩ := rtrim_eq hk (v ++ 0 :: rest)
  obtain ⟨more, -, hl⟩ := ltrim_eq hv rest
  have hknul := not_mem_rtrimKept hk
  have hvnul : 0 ∉ ltrimmed v := fun hmem => hv (List.dropWhile_subset isspace hmem)
  obtain ⟨c, hhead, hzero, -⟩ := head_nul hknul (junk ++ (v ++ 0 :: rest))
  have hdrop : (rtrimKept k ++ 0 :: (junk ++ (v ++ 0 :: rest))).drop (k.length + 1) =
      v ++ 0 :: rest := by
    have hsplit : rtrimKept k ++ 0 :: (junk ++ (v ++ 0 :: rest)) =
        (rtrimKept k ++ 0 :: junk) ++ (v ++ 0 :: rest) := by simp
    have hplace : k.length + 1 = (rtrimKept k ++ 0 :: junk).length := by
      rw [List.length_append, List.length_cons]
      omega
    rw [hsplit, hplace, List.drop_left]
  rw [cutSetting, List.append_assoc, List.cons_append, Inplace.store_at, Option.bind_some, hr,
    Option.bind_some, hdrop, hl, Option.bind_some, hhead, Option.bind_some, text_eq hknul,
    text_eq hvnul]
  rw [hkept] at hzero ⊢
  by_cases hempty : rtrimmed k = []
  · rw [if_pos (hzero.mpr hempty), if_pos hempty]
  · rw [if_neg fun hc => hempty (hzero.mp hc), if_neg hempty]

theorem parseLine_eq (h : 0 ∉ s) (rest : List UInt8) :
    parseLine (s ++ 0 :: rest) = some (lineOf s) := by
  obtain ⟨junk, -, htrim⟩ := trim_eq h rest
  have hnul := not_mem_trimmed h
  obtain ⟨c, hhead, hzero, hmark⟩ := head_nul hnul (junk ++ rest)
  rw [parseLine, htrim, Option.bind_some, hhead, Option.bind_some, lineOf]
  by_cases hskip : trimmed s = [] ∨ (trimmed s).head? = some 35
  · have hc : c = 0 ∨ c = 35 := hskip.imp hzero.mpr hmark.mpr
    rw [if_pos hc, if_pos hskip]
  · have hc : ¬ (c = 0 ∨ c = 35) := fun hc => hskip (hc.imp hzero.mp hmark.mp)
    rw [if_neg hc, if_neg hskip, text_eq hnul]
    by_cases hsplit : 61 ∈ trimmed s
    · obtain ⟨k, v, ht, hk⟩ := List.eq_append_cons_of_mem hsplit
      have hkept := rtrimKept_key ht
      have hknul : 0 ∉ k := fun hmem => hnul (ht ▸ List.mem_append_left _ hmem)
      have hvnul : 0 ∉ v := fun hmem =>
        hnul (ht ▸ List.mem_append_right _ (List.mem_cons_of_mem 61 hmem))
      have hfound : (k ++ 61 :: v ++ 0 :: (junk ++ rest))[k.length]? = some 61 := by
        rw [List.append_assoc, List.cons_append, Inplace.get_at]
      have hdrop : (k ++ 61 :: v).drop (k.length + 1) = v := by
        rw [← List.drop_drop, List.drop_left]
        rfl
      rw [if_pos hsplit, ht, Cstr.cstrPos_append hk, List.take_left, hdrop, hfound,
        Option.bind_some, if_pos rfl, cutSetting_eq hkept hknul hvnul]
    · have hend : (trimmed s ++ 0 :: (junk ++ rest))[cstrPos (trimmed s) 61]? = some 0 := by
        rw [Cstr.cstrPos_self hsplit]
        exact Inplace.get_at _ _ 0
      have hne : ¬ (0 : UInt8) = 61 := by decide
      rw [if_neg hsplit, hend, Option.bind_some, if_neg hne]

/-! ## The loop -/

section
variable {ε τ β : Type} {doLine : ℕ → Line → τ → Res ε τ} {bad : β → Line → Prop}
  {next : β → Line → β} {rel : τ → β → Prop} {fuel n : ℕ} {a : τ} {b : β}

/-- The loop of `do_file()` over a text. `ioq_getln()` gives a line with its newline, or what is
left at the end; the lines are counted. -/
def fileLoop (doLine : ℕ → Line → τ → Res ε τ) : ℕ → List UInt8 → ℕ → τ → Res ε τ
  | 0, _, _, _ => .outside
  | fuel + 1, s, lineno, t =>
    let line := s.take (cstrPos s 10 + 1)
    if cstrPos s 10 = s.length ∧ line = [] then .ok t
    else Res.reading (parseLine (line ++ [0])) fun l =>
      (doLine (lineno + 1) l t).bind fun t =>
        if cstrPos s 10 = s.length then .ok t
        else fileLoop doLine fuel (s.drop (cstrPos s 10 + 1)) (lineno + 1) t

/-- The lines of a text -/
def fileLines (s : List UInt8) : List Line := (s.splitOn 10).map lineOf

theorem trimmed_newline (s : List UInt8) : trimmed (s ++ [10]) = trimmed s := by
  rw [trimmed, rtrimmed, List.rdropWhile_concat_pos isspace s 10 (by decide), trimmed, rtrimmed]

theorem lineOf_newline (s : List UInt8) : lineOf (s ++ [10]) = lineOf s := by
  rw [lineOf, trimmed_newline, lineOf]

theorem lineOf_nil : lineOf [] = .skipped := by decide

/-- Where each line's step meets what it is to, the loop does so over all the lines. -/
theorem fileLoop_meets
    (hstep : ∀ n l a b, rel a b → (doLine n l a).Meets (bad b l) fun a => rel a (next b l))
    (hbad : ∀ b, ¬ bad b .skipped) (hnext : ∀ b, next b .skipped = b) (hnul : 0 ∉ s)
    (hfuel : s.length < fuel) (h : rel a b) :
    (fileLoop doLine fuel s n a).Meets (Faulty bad next (fileLines s) b)
      fun a => rel a ((fileLines s).foldl next b) := by
  induction fuel generalizing s n a b with
  | zero => exact absurd hfuel (Nat.not_lt_zero _)
  | succ fuel ih =>
    rw [fileLoop]
    by_cases hline : 10 ∈ s
    · obtain ⟨l, rest, rfl, hl⟩ := List.eq_append_cons_of_mem hline
      have hlnul : 0 ∉ l ++ [10] := by
        rw [List.mem_append, not_or]
        exact ⟨fun hmem => hnul (List.mem_append_left _ hmem), by decide⟩
      have hrest : 0 ∉ rest := fun hmem =>
        hnul (List.mem_append_right _ (List.mem_cons_of_mem 10 hmem))
      have htake : (l ++ 10 :: rest).take (l.length + 1) = l ++ [10] := by
        rw [List.take_length_add_append]
        rfl
      have hdrop : (l ++ 10 :: rest).drop (l.length + 1) = rest := by
        rw [← List.drop_drop, List.drop_left]
        rfl
      have hlen : ¬ l.length = (l ++ 10 :: rest).length := by
        rw [List.length_append, List.length_cons]
        omega
      have hshort : rest.length < fuel := by
        rw [List.length_append, List.length_cons] at hfuel
        omega
      have hlines : fileLines (l ++ 10 :: rest) = lineOf l :: fileLines rest := by
        rw [fileLines, List.splitOn_append_cons_self_of_not_mem hl, List.map_cons, fileLines]
      simp only [Cstr.cstrPos_append hl, hdrop, htake, hlen, false_and, if_false,
        parseLine_eq hlnul [], lineOf_newline, hlines]
      exact (hstep (n + 1) (lineOf l) a b h).bind fun a ha => ih hrest hshort ha
    · have hlines : fileLines s = [lineOf s] := by
        rw [fileLines, List.splitOn_eq_singleton hline]
        rfl
      have htake : s.take (s.length + 1) = s := List.take_of_length_le (Nat.le_succ _)
      simp only [Cstr.cstrPos_self hline, htake, true_and, if_true, hlines]
      by_cases hempty : s = []
      · subst hempty
        rw [if_pos rfl, lineOf_nil]
        apply Res.meets_ok
        · exact not_or.mpr ⟨hbad b, id⟩
        · rwa [List.foldl_cons, hnext]
      · rw [if_neg hempty]
        simp only [parseLine_eq hnul []]
        exact (hstep (n + 1) (lineOf s) a b h).bind fun a ha => Res.meets_ok id ha

end

end Perp.RunlimitFile
