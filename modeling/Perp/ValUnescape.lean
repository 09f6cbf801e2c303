import Mathlib.Data.List.DropRight
import Perp.Cstr
import Perp.Inplace

set_option autoImplicit false

/-!
# Escape sequences in values

`val_unescape()`, of which runenv and runtool have a copy each.
-/
namespace Perp.ValUnescape
open Inplace
open Cstr (Text)

/-! ## The function -/

/-- The escape sequences that are recognized -/
def escapeOf (c : UInt8) : Option UInt8 :=
  if c = 92 then some 92
  else if c = 110 then some 10
  else if c = 116 then some 9
  else if c = 95 then some 32
  else none

/-- The loop, from the cursors `new` and `c` -/
def unescapeLoop : ℕ → List UInt8 → ℕ → ℕ → Option (List UInt8)
  | 0, _, _, _ => none
  | fuel + 1, b, new, c =>
    b[c]?.bind fun x =>
      if x = 0 then store b new 0
      else if x = 92 then
        b[c + 1]?.bind fun y =>
          match escapeOf y with
          | some z => (store b new z).bind fun b => unescapeLoop fuel b (new + 1) (c + 2)
          | none =>
            (store b new 92).bind fun b =>
              -- `continue` in the loop of the cursor, which goes on behind the NUL
              if y = 0 then unescapeLoop fuel b (new + 1) (c + 2)
              else b[c + 1]?.bind fun y => (store b (new + 1) y).bind fun b =>
                unescapeLoop fuel b (new + 2) (c + 2)
      else (store b new x).bind fun b => unescapeLoop fuel b (new + 1) (c + 1)

def valUnescape (b : List UInt8) : Option (List UInt8) := unescapeLoop (b.length + 1) b 0 0

/-- The copy in `runenv.c` -/
def runenvValUnescape (b : List UInt8) : Option (List UInt8) := valUnescape b

/-- The copy in `runtool.c` -/
def runtoolValUnescape (b : List UInt8) : Option (List UInt8) := valUnescape b

/-! ## What it is for -/

/-- What a backslash and this character stand for -/
def escaped (c : UInt8) : List UInt8 := (escapeOf c).elim [92, c] fun z => [z]

def translate : List UInt8 → List UInt8
  | [] => []
  | [c] => [c]
  | c :: d :: s => if c = 92 then escaped d ++ translate s else c :: translate (d :: s)

/-- The last character is a backslash that begins an escape sequence. -/
def Dangling : List UInt8 → Prop
  | [] => False
  | [c] => c = 92
  | c :: d :: s => if c = 92 then Dangling s else Dangling (d :: s)

/-- The string is replaced by its translation, without touching what is behind its NUL. -/
def Unescapes (f : List UInt8 → Option (List UInt8)) (s : Text) : Prop :=
  (translate s.bytes).length ≤ s.bytes.length ∧
    ∃ junk, junk.length + (translate s.bytes).length = s.bytes.length ∧
      f (s.bytes ++ [0]) = some (translate s.bytes ++ 0 :: junk)

/-- How many backslashes a string ends in -/
def trailing (s : List UInt8) : ℕ := (s.rtakeWhile (· == 92)).length

variable {s done gap rest todo : List UInt8} {c d : UInt8} {fuel : ℕ}

theorem escaped_length (d : UInt8) : (escaped d).length ≤ 2 := by
  rw [escaped]
  cases escapeOf d with
  | none => exact le_refl 2
  | some z => exact Nat.le_succ 1

theorem translate_length (s : List UInt8) : (translate s).length ≤ s.length := by
  induction s using translate.induct with
  | case1 => exact le_refl 0
  | case2 c => exact le_refl 1
  | case3 d s ih =>
    have hd := escaped_length d
    rw [translate, if_pos rfl, List.length_append, List.length_cons, List.length_cons]
    omega
  | case4 c d s hc ih =>
    rw [translate, if_neg hc, List.length_cons, List.length_cons]
    exact Nat.succ_le_succ ih

theorem trailing_of_all (h : ∀ d ∈ s, d = 92) : trailing s = s.length := by
  have hself : s.rtakeWhile (· == 92) = s :=
    List.rtakeWhile_eq_self_iff.mpr fun d hd => beq_iff_eq.mpr (h d hd)
  rw [trailing, hself]

theorem trailing_concat (s : List UInt8) (d : UInt8) :
    trailing (s ++ [d]) = if d = 92 then trailing s + 1 else 0 := by
  by_cases hd : d = 92
  · rw [if_pos hd, trailing, List.rtakeWhile_concat_pos (· == 92) s d (beq_iff_eq.mpr hd),
      List.length_append]
    rfl
  · rw [if_neg hd, trailing, List.rtakeWhile_concat_neg (· == 92) s d fun h => hd (beq_iff_eq.mp h)]
    rfl

theorem trailing_cons (h : ¬ (c = 92 ∧ ∀ d ∈ s, d = 92)) : trailing (c :: s) = trailing s := by
  induction s using List.reverseRecOn with
  | nil =>
    have hc : c ≠ 92 := fun hc => h ⟨hc, fun d hd => absurd hd List.not_mem_nil⟩
    rw [← List.nil_append [c], trailing_concat, if_neg hc]
    rfl
  | append_singleton s d ih =>
    rw [← List.cons_append, trailing_concat, trailing_concat]
    by_cases hd : d = 92
    · have hs : ¬ (c = 92 ∧ ∀ d ∈ s, d = 92) := by
        intro hall
        apply h
        rw [List.forall_mem_append, List.forall_mem_singleton]
        exact ⟨hall.1, hall.2, hd⟩
      rw [if_pos hd, if_pos hd, ih hs]
    · rw [if_neg hd, if_neg hd]

/-- The sequences are read from the left, and so an odd run at the end is what dangles. -/
theorem dangling_iff (s : List UInt8) : Dangling s ↔ trailing s % 2 = 1 := by
  induction s using Dangling.induct with
  | case1 => simp [Dangling, trailing, List.rtakeWhile]
  | case2 c =>
    by_cases hc : c = 92
    · have hall : ∀ d ∈ [c], d = 92 := List.forall_mem_singleton.mpr hc
      rw [Dangling, trailing_of_all hall]
      exact iff_of_true hc rfl
    · rw [Dangling, trailing_cons fun h => hc h.1]
      exact iff_of_false hc (by decide)
  | case3 d s ih =>
    rw [Dangling, if_pos rfl, ih]
    by_cases hall : ∀ e ∈ d :: s, e = 92
    · have hs : ∀ e ∈ s, e = 92 := fun e he => hall e (List.mem_cons_of_mem d he)
      have hcons : ∀ e ∈ 92 :: d :: s, e = 92 := List.forall_mem_cons.mpr ⟨rfl, hall⟩
      rw [trailing_of_all hs, trailing_of_all hcons, List.length_cons, List.length_cons]
      omega
    · have hd : ¬ (d = 92 ∧ ∀ e ∈ s, e = 92) := fun h => hall (List.forall_mem_cons.mpr h)
      rw [trailing_cons fun h => hall h.2, trailing_cons hd]
  | case4 c d s hc ih => rw [Dangling, if_neg hc, ih, trailing_cons fun h => hc h.1]

/-! ## The loop -/

/-- The loop with the cursors behind `done` and before `todo` -/
def loopAt (fuel : ℕ) (done gap todo : List UInt8) : Option (List UInt8) :=
  unescapeLoop fuel (done ++ gap ++ todo) done.length (done ++ gap).length

theorem loopAt_of {b : List UInt8} {new cur : ℕ} (hb : b = done ++ gap ++ todo) (hnew : new = done.length)
    (hcur : cur = (done ++ gap).length) : unescapeLoop fuel b new cur = loopAt fuel done gap todo := by
  rw [hb, hnew, hcur, loopAt]

theorem loopAt_nul (fuel : ℕ) (done gap rest : List UInt8) :
    ∃ junk, junk.length = gap.length ∧
      loopAt (fuel + 1) done gap (0 :: rest) = some (done ++ 0 :: (junk ++ rest)) := by
  obtain ⟨junk, hlen, hstore⟩ := store_gap done gap rest 0 0
  use junk, hlen
  rw [loopAt, unescapeLoop, get_at, Option.bind_some, if_pos rfl, hstore]
  simp

theorem loopAt_plain (hc : c ≠ 0) (hslash : c ≠ 92) (fuel : ℕ) (done gap rest : List UInt8) :
    ∃ gap', gap'.length = gap.length ∧
      loopAt (fuel + 1) done gap (c :: rest) = loopAt fuel (done ++ [c]) gap' rest := by
  obtain ⟨gap', hlen, hstore⟩ := store_gap done gap rest c c
  use gap', hlen
  rw [loopAt, unescapeLoop, get_at, Option.bind_some, if_neg hc, if_neg hslash, hstore,
    Option.bind_some]
  apply loopAt_of rfl (List.length_append).symm
  simp only [List.length_append, List.length_singleton]
  omega

theorem loopAt_escape (hd : d ≠ 0) (fuel : ℕ) (done gap rest : List UInt8) :
    ∃ gap', gap'.length + (escaped d).length = gap.length + 2 ∧
      loopAt (fuel + 1) done gap (92 :: d :: rest) = loopAt fuel (done ++ escaped d) gap' rest := by
  have hnext := get_at (done ++ gap ++ [92]) rest d
  rw [List.length_append, List.length_singleton, List.append_assoc, List.singleton_append] at hnext
  have hslash : (92 : UInt8) ≠ 0 := by decide
  rw [loopAt, unescapeLoop, get_at, Option.bind_some, if_neg hslash, if_pos rfl, hnext, Option.bind_some]
  cases hz : escapeOf d with
  | some z =>
    obtain ⟨gap', hlen, hstore⟩ := store_gap done gap (d :: rest) 92 z
    have hsingle : escaped d = [z] := by rw [escaped, hz]; rfl
    use gap' ++ [d]
    rw [hsingle, List.length_append, List.length_singleton, List.length_singleton, hlen]
    constructor
    · rfl
    · simp only [hstore, Option.bind_some]
      apply loopAt_of
      · simp
      · rw [List.length_append, List.length_singleton]
      · simp only [List.length_append, List.length_singleton]
        omega
  | none =>
    obtain ⟨gap₁, hlen₁, hstore₁⟩ := store_gap done gap (d :: rest) 92 92
    obtain ⟨gap₂, hlen₂, hstore₂⟩ := store_gap (done ++ [92]) gap₁ rest d d
    have hpair : escaped d = [92, d] := by rw [escaped, hz]; rfl
    -- the character is read again, which the first store has left
    have hagain := get_at (done ++ [92] ++ gap₁) rest d
    have hplace : (done ++ [92] ++ gap₁).length = (done ++ gap).length + 1 := by
      simp only [List.length_append, List.length_singleton]
      omega
    rw [hplace] at hagain
    rw [List.length_append, List.length_singleton] at hstore₂
    use gap₂
    rw [hpair]
    constructor
    · rw [hlen₂, hlen₁]
      rfl
    · simp only [hstore₁, Option.bind_some, if_neg hd, hagain, hstore₂]
      apply loopAt_of
      · simp
      · rw [List.length_append]
        rfl
      · simp only [List.length_append, List.length_cons, List.length_nil]
        omega

/-- After a single backslash the cursor goes on behind the NUL. -/
theorem loopAt_dangling (fuel : ℕ) (done gap rest : List UInt8) :
    ∃ gap', loopAt (fuel + 1) done gap (92 :: 0 :: rest) = loopAt fuel (done ++ [92]) gap' rest ∧
      gap'.length = gap.length + 1 := by
  have hnext := get_at (done ++ gap ++ [92]) rest 0
  rw [List.length_append, List.length_singleton, List.append_assoc, List.singleton_append] at hnext
  have hslash : (92 : UInt8) ≠ 0 := by decide
  have hnone : escapeOf 0 = none := by decide
  obtain ⟨gap', hlen, hstore⟩ := store_gap done gap (0 :: rest) 92 92
  use gap' ++ [0]
  rw [loopAt, unescapeLoop, get_at, Option.bind_some, if_neg hslash, if_pos rfl, hnext,
    Option.bind_some, hnone]
  simp only [hstore, Option.bind_some, if_pos]
  constructor
  · apply loopAt_of
    · simp
    · rw [List.length_append, List.length_singleton]
    · simp only [List.length_append, List.length_singleton]
      omega
  · rw [List.length_append, hlen]
    rfl

theorem loopAt_end (fuel : ℕ) (done gap : List UInt8) : loopAt fuel done gap [] = none := by
  cases fuel with
  | zero => rfl
  | succ fuel =>
    rw [loopAt, unescapeLoop, List.append_nil, List.getElem?_eq_none (Nat.le_refl _), Option.bind_none]

/-- Up to the NUL of a string the loop translates it, and stops there or goes on behind. -/
theorem loopAt_eq (hnul : 0 ∉ todo) (hfuel : (todo ++ 0 :: rest).length < fuel)
    (done gap : List UInt8) :
    Dangling todo ∧ (∃ fuel' gap', rest.length < fuel' ∧
        gap'.length + (translate todo).length = gap.length + todo.length + 1 ∧
        loopAt fuel done gap (todo ++ 0 :: rest) = loopAt fuel' (done ++ translate todo) gap' rest) ∨
      ¬ Dangling todo ∧ ∃ junk, junk.length + (translate todo).length = gap.length + todo.length ∧
        loopAt fuel done gap (todo ++ 0 :: rest) =
          some (done ++ translate todo ++ 0 :: (junk ++ rest)) := by
  induction todo using translate.induct generalizing fuel done gap with
  | case1 =>
    cases fuel with
    | zero => cases hfuel
    | succ fuel =>
      obtain ⟨junk, hlen, hend⟩ := loopAt_nul fuel done gap rest
      refine .inr ⟨id, junk, hlen, ?_⟩
      rw [List.nil_append, hend, translate, List.append_nil]
  | case2 c =>
    rw [List.singleton_append, List.length_cons, List.length_cons] at hfuel
    cases fuel with
    | zero => cases hfuel
    | succ fuel =>
      by_cases hc : c = 92
      · subst hc
        obtain ⟨gap', hdangling, hlen⟩ := loopAt_dangling fuel done gap rest
        refine .inl ⟨rfl, fuel, gap', by omega, ?_, hdangling⟩
        rw [hlen]
        rfl
      · have hzero : c ≠ 0 := fun h => hnul (List.mem_singleton.mpr h.symm)
        cases fuel with
        | zero => omega
        | succ fuel =>
          obtain ⟨gap', hgap, hplain⟩ := loopAt_plain hzero hc (fuel + 1) done gap (0 :: rest)
          obtain ⟨junk, hlen, hend⟩ := loopAt_nul fuel (done ++ [c]) gap' rest
          refine .inr ⟨hc, junk, ?_, ?_⟩
          · rw [hlen, hgap]
            rfl
          · rw [List.singleton_append, hplain, hend, translate]
  | case3 d s ih =>
    cases fuel with
    | zero => cases hfuel
    | succ fuel =>
      have hd : d ≠ 0 := fun h => hnul (by rw [h]; exact List.mem_cons_of_mem 92 List.mem_cons_self)
      have hs : 0 ∉ s := fun h => hnul (List.mem_cons_of_mem 92 (List.mem_cons_of_mem d h))
      rw [List.cons_append, List.cons_append, List.length_cons, List.length_cons] at hfuel
      obtain ⟨gap', hgap, hstep⟩ := loopAt_escape hd fuel done gap (s ++ 0 :: rest)
      have hshort : (s ++ 0 :: rest).length < fuel := by omega
      have hrest := ih hs hshort (done ++ escaped d) gap'
      rw [List.cons_append, List.cons_append, hstep, Dangling, if_pos rfl, translate, if_pos rfl]
      rw [List.length_append, List.length_cons, List.length_cons, ← List.append_assoc]
      apply hrest.imp
      · rintro ⟨hd, fuel', gap'', hless, hlen, hrun⟩
        exact ⟨hd, fuel', gap'', hless, by omega, hrun⟩
      · rintro ⟨hnot, junk, hlen, hrun⟩
        exact ⟨hnot, junk, by omega, hrun⟩
  | case4 c d s hc ih =>
    cases fuel with
    | zero => cases hfuel
    | succ fuel =>
      have hzero : c ≠ 0 := fun h => hnul (by rw [h]; exact List.mem_cons_self)
      obtain ⟨gap', hgap, hstep⟩ := loopAt_plain hzero hc fuel done gap (d :: s ++ 0 :: rest)
      have hrest := ih (fun h => hnul (List.mem_cons_of_mem c h)) (Nat.lt_of_succ_lt_succ hfuel)
        (done ++ [c]) gap'
      rw [List.append_assoc, List.singleton_append, hgap] at hrest
      rw [List.cons_append, hstep, Dangling, if_neg hc, translate, if_neg hc, List.length_cons,
        List.length_cons]
      apply hrest.imp
      · rintro ⟨hd, fuel', gap'', hless, hlen, hrun⟩
        exact ⟨hd, fuel', gap'', hless, by omega, hrun⟩
      · rintro ⟨hnot, junk, hlen, hrun⟩
        exact ⟨hnot, junk, by omega, hrun⟩

/-- In this memory the loop comes to a NUL that no backslash hides. -/
def Ends : List UInt8 → Prop
  | [] => False
  | [c] => c = 0
  | c :: d :: b => c = 0 ∨ if c = 92 then Ends b else Ends (d :: b)

theorem escaped_head (d : UInt8) : ∃ z s, escaped d = z :: s ∧ z ≠ 0 := by
  rw [escaped]
  cases hz : escapeOf d with
  | none => exact ⟨92, [d], rfl, by decide⟩
  | some z =>
    refine ⟨z, [], rfl, ?_⟩
    rintro rfl
    rw [escapeOf] at hz
    split_ifs at hz <;> cases hz

theorem loopAt_cut (fuel : ℕ) (done gap : List UInt8) : loopAt fuel done gap [92] = none := by
  cases fuel with
  | zero => rfl
  | succ fuel =>
    have hslash : (92 : UInt8) ≠ 0 := by decide
    have hout : (done ++ gap ++ [92])[(done ++ gap).length + 1]? = none := by
      apply List.getElem?_eq_none
      rw [List.length_append]
      exact Nat.le_refl _
    rw [loopAt, unescapeLoop, get_at, Option.bind_some, if_neg hslash, if_pos rfl, hout,
      Option.bind_none]

/-- What a step has written goes before what the rest of the loop writes. -/
theorem ends_step {b whole first gap' : List UInt8} {n : ℕ} {r : Option (List UInt8)} {z : UInt8}
    (h : Ends b ∧ (∃ out, r = some (done ++ first ++ out) ∧ out.length = gap'.length + b.length ∧
        (out.head? = some 0 ↔ b.head? = some 0)) ∨ ¬ Ends b ∧ r = none)
    (hfirst : first.head? = some z) (hz : z ≠ 0) (hwhole : whole.head? ≠ some 0)
    (hlen : gap'.length + first.length + b.length = n) :
    Ends b ∧ (∃ out, r = some (done ++ out) ∧ out.length = n ∧
        (out.head? = some 0 ↔ whole.head? = some 0)) ∨ ¬ Ends b ∧ r = none := by
  apply h.imp_left
  rintro ⟨hends, out, hr, hout, -⟩
  refine ⟨hends, first ++ out, ?_, ?_, ?_⟩
  · rw [hr, List.append_assoc]
  · rw [List.length_append]
    omega
  · rw [List.head?_append, hfirst]
    exact iff_of_false (fun h => hz (Option.some.inj h)) hwhole

/-- What the loop makes of a memory. It writes nothing before the cursor, and first what is no
NUL if it does not begin at one. -/
theorem loopAt_ends {b : List UInt8} (hfuel : b.length < fuel) (done gap : List UInt8) :
    Ends b ∧ (∃ out, loopAt fuel done gap b = some (done ++ out) ∧
        out.length = gap.length + b.length ∧ (out.head? = some 0 ↔ b.head? = some 0)) ∨
      ¬ Ends b ∧ loopAt fuel done gap b = none := by
  induction b using Ends.induct generalizing fuel done gap with
  | case1 => exact .inr ⟨id, loopAt_end fuel done gap⟩
  | case2 c =>
    rw [Ends]
    cases fuel with
    | zero => cases hfuel
    | succ fuel =>
      by_cases hc : c = 0
      · subst hc
        obtain ⟨junk, hlen, hend⟩ := loopAt_nul fuel done gap []
        refine .inl ⟨rfl, _, hend, ?_, iff_of_true rfl rfl⟩
        rw [List.length_cons, List.length_append, hlen]
        rfl
      · refine .inr ⟨hc, ?_⟩
        by_cases hslash : c = 92
        · subst hslash
          exact loopAt_cut (fuel + 1) done gap
        · obtain ⟨gap', -, hstep⟩ := loopAt_plain hc hslash fuel done gap []
          rw [hstep, loopAt_end]
  | case3 c d b ihskip ihnext =>
    rw [List.length_cons] at hfuel
    cases fuel with
    | zero => cases hfuel
    | succ fuel =>
      have hnext : (d :: b).length < fuel := by omega
      have hskip : b.length < fuel := Nat.lt_of_succ_lt hnext
      rw [Ends]
      by_cases hc : c = 0
      · subst hc
        obtain ⟨junk, hlen, hend⟩ := loopAt_nul fuel done gap (d :: b)
        refine .inl ⟨.inl rfl, _, hend, ?_, iff_of_true rfl rfl⟩
        simp only [List.length_cons, List.length_append, hlen]
        omega
      · have hhead : (c :: d :: b).head? ≠ some 0 := fun h => hc (Option.some.inj h)
        rw [or_iff_right hc]
        by_cases hslash : c = 92
        · subst hslash
          rw [if_pos rfl]
          by_cases hd : d = 0
          · subst hd
            obtain ⟨gap', hstep, hlen⟩ := loopAt_dangling fuel done gap b
            rw [hstep]
            apply ends_step (ihskip hskip (done ++ [92]) gap') rfl hc hhead
            simp only [List.length_cons, List.length_nil]
            omega
          · obtain ⟨gap', hlen, hstep⟩ := loopAt_escape hd fuel done gap b
            obtain ⟨z, s, hfirst, hz⟩ := escaped_head d
            rw [hstep]
            apply ends_step (ihskip hskip (done ++ escaped d) gap') (congrArg List.head? hfirst) hz hhead
            rw [hlen]
            simp only [List.length_cons]
            omega
        · obtain ⟨gap', hlen, hstep⟩ := loopAt_plain hc hslash fuel done gap (d :: b)
          rw [if_neg hslash, hstep]
          apply ends_step (ihnext hnext (done ++ [c]) gap') rfl hc hhead
          simp only [List.length_cons, List.length_nil]
          omega

theorem not_mem_translate (h : 0 ∉ s) : 0 ∉ translate s := by
  induction s using translate.induct with
  | case1 => exact h
  | case2 c => exact h
  | case3 d s ih =>
    rw [List.mem_cons, List.mem_cons, not_or, not_or] at h
    rw [translate, if_pos rfl, List.mem_append, not_or]
    refine ⟨fun hmem => ?_, ih h.2.2⟩
    rw [escaped] at hmem
    cases hz : escapeOf d with
    | none =>
      rw [hz] at hmem
      simp only [Option.elim_none, List.mem_cons, List.not_mem_nil, or_false] at hmem
      exact hmem.elim (by decide) h.2.1
    | some z =>
      rw [hz] at hmem
      obtain ⟨y, t, hy, hne⟩ := escaped_head d
      rw [escaped, hz] at hy
      cases hy
      exact hne (List.mem_singleton.mp hmem).symm
  | case4 c d s hc ih =>
    rw [List.mem_cons, not_or] at h
    rw [translate, if_neg hc, List.mem_cons, not_or]
    exact ⟨h.1, ih h.2⟩

/-- In a memory a string is translated, and the NUL follows if none is hidden, or another comes
next. -/
theorem valUnescape_cases (hnul : 0 ∉ s) (rest : List UInt8) :
    (¬ Dangling s ∨ Ends rest) ∧ (∃ out, valUnescape (s ++ 0 :: rest) = some (translate s ++ out) ∧
        (translate s ++ out).length = (s ++ 0 :: rest).length ∧
        (out.head? = some 0 ↔ ¬ Dangling s ∨ rest.head? = some 0)) ∨
      ¬ (¬ Dangling s ∨ Ends rest) ∧ valUnescape (s ++ 0 :: rest) = none := by
  have hrun := loopAt_eq hnul (Nat.lt_succ_self (s ++ 0 :: rest).length) [] []
  rw [loopAt, List.nil_append, List.nil_append, List.nil_append, List.length_nil, Nat.zero_add] at hrun
  rcases hrun with ⟨hdangling, fuel, gap, hfuel, hgap, hgo⟩ | ⟨hnot, junk, hlen, hsome⟩
  · rw [or_iff_right (not_not.mpr hdangling)]
    rw [valUnescape]
    rw [hgo]
    rcases loopAt_ends hfuel (translate s) gap with ⟨hends, out, hout, hlen, hhead⟩ | ⟨hno, hnone⟩
    · refine .inl ⟨hends, out, hout, ?_, ?_⟩
      · simp only [List.length_append, List.length_cons]
        omega
      · rw [hhead]
        exact (or_iff_right (not_not.mpr hdangling)).symm
    · exact .inr ⟨hno, hnone⟩
  · refine .inl ⟨.inl hnot, 0 :: (junk ++ rest), hsome, ?_, iff_of_true rfl (.inl hnot)⟩
    simp only [List.length_append, List.length_cons]
    omega

/-! ## The values -/

theorem valUnescape_iff (s : Text) : Unescapes valUnescape s ↔ ¬ Dangling s.bytes := by
  have hrun := loopAt_eq s.nul (Nat.lt_succ_self (s.bytes ++ [0]).length) [] []
  rw [loopAt, List.nil_append, List.nil_append, List.length_nil, Nat.zero_add] at hrun
  constructor
  · rintro ⟨_, junk, _, hsome⟩ hdangling
    rw [valUnescape] at hsome
    obtain ⟨_, fuel, gap, _, _, hgo⟩ := hrun.resolve_right fun h => h.1 hdangling
    rw [loopAt_end] at hgo
    exact absurd (hsome.symm.trans hgo) (Option.some_ne_none _)
  · intro h
    obtain ⟨_, junk, hlen, hsome⟩ := hrun.resolve_left fun hleft => h hleft.1
    rw [List.append_nil] at hsome
    exact ⟨translate_length s.bytes, junk, hlen, hsome⟩

/-- Each copy translates the strings that do not end in an odd number of backslashes. -/
theorem val_unescape_iff (s : Text) :
    (Unescapes runenvValUnescape s ↔ trailing s.bytes % 2 = 0) ∧
      (Unescapes runtoolValUnescape s ↔ trailing s.bytes % 2 = 0) := by
  have hiff : Unescapes valUnescape s ↔ trailing s.bytes % 2 = 0 := by
    rw [valUnescape_iff, dangling_iff]
    omega
  exact ⟨hiff, hiff⟩

/-- The string `\` -/
theorem val_unescape_overruns : ¬ Unescapes runenvValUnescape ⟨[92], by decide⟩ := by
  intro h
  obtain ⟨_, junk, _, hsome⟩ := h
  cases hsome

end Perp.ValUnescape
