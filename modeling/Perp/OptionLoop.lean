import Perp.Nextopt
import Perp.Refusal

set_option autoImplicit false

/-!
# Loops over options

The loop `while((opt = nextopt(&nopt)))` with its `switch`, and the parse that it follows.
-/
namespace Perp.OptionLoop
open Cstr (Text)
open Nextopt (Nopt Opt Final Seen Ends nextopt nextoptInit parse takes calls expected cut)
open Refusal

variable {ε σ : Type}

/-- The loop, with the operands that are left behind the options. `optCase` is the `switch`, on
what a call of `nextopt()` gives. -/
def optLoop (optCase : Seen → σ → Res ε σ) (argv : List (List UInt8)) :
    ℕ → Nopt → σ → Res ε (σ × List (List UInt8))
  | 0, _, _ => .outside
  | fuel + 1, n, st =>
    Res.reading (nextopt n) fun out =>
      if out.1 = 0 then .ok (st, argv.drop out.2.argNdx)
      else (optCase ⟨out.1, out.2.optGot, out.2.optArg⟩ st).bind (optLoop optCase argv fuel out.2)

/-- The start of `main()`, up to the operands -/
def options (optCase : Seen → σ → Res ε σ) (optlist prog : Text) (args : List Text) (st : σ) :
    Res ε (σ × List (List UInt8)) :=
  let argv := (prog :: args).map Text.bytes
  optLoop optCase argv (Nextopt.size [] (args.map Text.bytes) + 1)
    (nextoptInit (args.length + 1) argv optlist.bytes) st

/-- The `switch` on the options of a parse one after the other, and on how they end -/
def followed (optCase : Seen → σ → Res ε σ) (p : List Opt × Final) (st : σ) :
    Res ε (σ × List (List UInt8)) :=
  (Res.fold (fun st o => optCase ⟨o.1, o.1, o.2⟩ st) p.1 st).bind fun st =>
    match p.2 with
    | .operands rest => .ok (st, rest)
    | fin => (optCase fin.seen st).bind fun _ => .outside

/-- The cases `:` and `?` end the program. -/
def Stops (optCase : Seen → σ → Res ε σ) : Prop :=
  ∀ e st, e.ret = 63 ∨ e.ret = 58 → ∃ err, optCase e st = .stopped err

section
variable {optCase : Seen → σ → Res ε σ} {argv : List (List UInt8)} {optlist : Text}
  {os : List Opt} {fin : Final} {n : Nopt}

/-- The `switch` on the calls that have been made -/
def process (optCase : Seen → σ → Res ε σ) (argv : List (List UInt8)) :
    List (UInt8 × Nopt) → σ → Res ε (σ × List (List UInt8))
  | [], _ => .outside
  | out :: outs, st =>
    if out.1 = 0 then .ok (st, argv.drop out.2.argNdx)
    else (optCase ⟨out.1, out.2.optGot, out.2.optArg⟩ st).bind (process optCase argv outs)

theorem optLoop_calls (hstop : Stops optCase) {k : ℕ} {outs : List (UInt8 × Nopt)}
    (h : calls k n = some outs) (st : σ) :
    optLoop optCase argv k n st = process optCase argv outs st := by
  induction k generalizing n outs st with
  | zero => cases h
  | succ k ih =>
    obtain ⟨out, hout, hrest⟩ := Option.bind_eq_some_iff.mp h
    rw [optLoop, hout, Res.reading, Option.elim_some]
    by_cases hends : Ends out.1
    · rw [if_pos hends] at hrest
      obtain rfl := Option.some.inj hrest
      rw [process]
      rcases hends with hzero | herror
      · rw [if_pos hzero, if_pos hzero]
      · obtain ⟨err, herr⟩ := hstop ⟨out.1, out.2.optGot, out.2.optArg⟩ st herror
        rw [herr]
        rfl
    · rw [if_neg hends] at hrest
      obtain ⟨more, hmore, rfl⟩ := Option.map_eq_some_iff.mp hrest
      have hgo : out.1 ≠ 0 := fun hzero => hends (.inl hzero)
      rw [process, if_neg hgo, if_neg hgo]
      congr 1
      funext st
      exact ih hmore st

theorem cut_seen (fin : Final) : cut [fin.seen] = [fin.seen] := by
  cases fin <;> rfl

theorem not_ends (hmark : 63 ∉ optlist.bytes) {c : UInt8} {b : Bool}
    (h : takes optlist.bytes c = some b) : ¬ Ends c := by
  rintro (rfl | rfl | rfl)
  · exact optlist.nul (Nextopt.mem_of_takes h)
  · exact hmark (Nextopt.mem_of_takes h)
  · rw [Nextopt.takes_colon] at h
    cases h

theorem process_eq (hstop : Stops optCase) (hmark : 63 ∉ optlist.bytes)
    {outs : List (UInt8 × Nopt)} (hletters : ∀ o ∈ os, takes optlist.bytes o.1 = some o.2.isSome)
    (hseen : outs.map (fun out => ⟨out.1, out.2.optGot, out.2.optArg⟩) = expected (os, fin))
    (hend : ∀ out ∈ outs, out.1 = 0 → fin = .operands (argv.drop out.2.argNdx)) (st : σ) :
    process optCase argv outs st = followed optCase (os, fin) st := by
  induction os generalizing outs st with
  | nil =>
    rw [expected, List.map_nil, List.nil_append, cut_seen fin] at hseen
    obtain ⟨out, rfl, hout⟩ := List.map_eq_singleton_iff.mp hseen
    have hret : out.1 = fin.seen.ret := congrArg Seen.ret hout
    rw [process, followed, Res.fold, Res.bind]
    cases fin with
    | operands rest =>
      have hzero : out.1 = 0 := hret
      rw [if_pos hzero]
      have hrest := hend out List.mem_cons_self hzero
      rw [Final.operands.inj hrest]
    | invalid c =>
      have herror : out.1 = 63 := hret
      have hgo : out.1 ≠ 0 := by
        rw [herror]
        decide
      obtain ⟨err, herr⟩ := hstop (Final.invalid c).seen st (.inl rfl)
      rw [if_neg hgo, hout]
      simp only [herr, Res.bind]
    | missing c =>
      have herror : out.1 = 58 := hret
      have hgo : out.1 ≠ 0 := by
        rw [herror]
        decide
      obtain ⟨err, herr⟩ := hstop (Final.missing c).seen st (.inr rfl)
      rw [if_neg hgo, hout]
      simp only [herr, Res.bind]
  | cons o os ih =>
    have hgo : ¬ Ends o.1 := not_ends hmark (hletters o List.mem_cons_self)
    rw [expected, List.map_cons, List.cons_append, cut, if_neg hgo] at hseen
    obtain ⟨out, outs, rfl, hout, hrest⟩ := List.map_eq_cons_iff.mp hseen
    have hret : out.1 = o.1 := congrArg Seen.ret hout
    have hstart : out.1 ≠ 0 := fun hzero => hgo (.inl (hret ▸ hzero))
    have hmore : ∀ st, process optCase argv outs st = followed optCase (os, fin) st :=
      ih (fun o ho => hletters o (List.mem_cons_of_mem _ ho)) hrest
        (fun out hmem => hend out (List.mem_cons_of_mem _ hmem))
    rw [process, if_neg hstart, hout, followed, Res.fold]
    cases hcase : optCase ⟨o.1, o.1, o.2⟩ st with
    | ok st' => exact hmore st'
    | stopped e => rfl
    | outside => rfl

theorem options_eq (hstop : Stops optCase) (hmark : 63 ∉ optlist.bytes) (prog : Text)
    (args : List Text) (st : σ) :
    options optCase optlist prog args st =
      followed optCase (parse optlist.bytes (args.map Text.bytes)) st := by
  obtain ⟨outs, hcalls, hseen, hend⟩ := Nextopt.calls_init prog args optlist
  rw [options, optLoop_calls hstop hcalls]
  exact process_eq hstop hmark (Nextopt.parse_takes optlist.bytes _) hseen
    (fun out hout => (hend out hout).2) st

/-! ## What the options come to -/

variable {β : Type} {bad : β → Opt → Prop} {next : β → Opt → β} {rel : σ → β → Prop}

/-- The `switch` on an option of the list is at fault, or follows a step of what describes its
state. -/
def Steps (optCase : Seen → σ → Res ε σ) (optlist : Text) (bad : β → Opt → Prop) (next : β → Opt → β)
    (rel : σ → β → Prop) : Prop :=
  ∀ st b o, takes optlist.bytes o.1 = some o.2.isSome → rel st b →
    (optCase ⟨o.1, o.1, o.2⟩ st).Meets (bad b o) fun st => rel st (next b o)

theorem fold_meets (hstep : Steps optCase optlist bad next rel)
    (hletters : ∀ o ∈ os, takes optlist.bytes o.1 = some o.2.isSome) {st : σ} {b : β} (h : rel st b) :
    (Res.fold (fun st o => optCase ⟨o.1, o.1, o.2⟩ st) os st).Meets (Faulty bad next os b)
      fun st => rel st (os.foldl next b) := by
  induction os generalizing st b with
  | nil => exact Res.meets_ok id h
  | cons o os ih =>
    exact (hstep st b o (hletters o List.mem_cons_self) h).bind fun st hst =>
      ih (fun o ho => hletters o (List.mem_cons_of_mem _ ho)) hst

theorem followed_meets (hstop : Stops optCase) (hstep : Steps optCase optlist bad next rel)
    (hletters : ∀ o ∈ os, takes optlist.bytes o.1 = some o.2.isSome) {st : σ} {b : β} (h : rel st b) :
    (followed optCase (os, fin) st).Meets
      (Faulty bad next os b ∨ ∀ rest, fin ≠ .operands rest)
      fun out => rel out.1 (os.foldl next b) ∧ fin = .operands out.2 := by
  apply (fold_meets hstep hletters h).bind
  intro st hst
  cases fin with
  | operands rest => exact Res.meets_ok (fun hno => hno rest rfl) ⟨hst, rfl⟩
  | invalid c =>
    obtain ⟨err, herr⟩ := hstop (Final.invalid c).seen st (.inl rfl)
    simp only [herr]
    exact Res.meets_stopped err fun rest hrest => by cases hrest
  | missing c =>
    obtain ⟨err, herr⟩ := hstop (Final.missing c).seen st (.inr rfl)
    simp only [herr]
    exact Res.meets_stopped err fun rest hrest => by cases hrest

/-- The start of a program ends it when an option is at fault or the options end in an error. -/
theorem options_meets (hstop : Stops optCase) (hmark : 63 ∉ optlist.bytes)
    (hstep : Steps optCase optlist bad next rel) (prog : Text) (args : List Text) {st : σ} {b : β}
    (h : rel st b) : (options optCase optlist prog args st).Meets
      (Faulty bad next (parse optlist.bytes (args.map Text.bytes)).1 b ∨
        ∀ rest, (parse optlist.bytes (args.map Text.bytes)).2 ≠ .operands rest)
      fun out => rel out.1 ((parse optlist.bytes (args.map Text.bytes)).1.foldl next b) ∧
        (parse optlist.bytes (args.map Text.bytes)).2 = .operands out.2 := by
  rw [options_eq hstop hmark]
  exact followed_meets hstop hstep (Nextopt.parse_takes optlist.bytes _) h

/-- The operands are arguments. -/
theorem mem_operands {letters : List UInt8} {args rest : List (List UInt8)}
    (h : (parse letters args).2 = .operands rest) {a : List UInt8} (ha : a ∈ rest) : a ∈ args := by
  fun_induction parse letters args generalizing rest with
  | case1 =>
    cases h
    exact ha
  | case2 =>
    cases h
    exact ha
  | case3 args hno =>
    cases h
    exact List.mem_cons_of_mem _ ha
  | case4 _ _ _ _ _ _ ih =>
    exact List.mem_cons_of_mem _ (ih h ha)
  | case5 => cases h
  | case6 => cases h
  | case7 _ _ _ _ _ _ _ _ ih =>
    exact List.mem_cons_of_mem _ (List.mem_cons_of_mem _ (ih h ha))

end

end Perp.OptionLoop
