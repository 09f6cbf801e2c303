import Perp.Runtool

set_option autoImplicit false

/-!
# The options of runtool

The last option for each variable counts: where options are given in another order, the same
comes of them.
-/
namespace Perp.RuntoolOptions
open Cstr (Text)
open Nextopt (Opt Final parse takes)
open OptionLoop
open Refusal
open Runlimit (optError)
open Runtool

/-! ## What the options come to -/

/-- The letters of the options with an argument, and the variables that take it -/
def letters : List (UInt8 × Arg) :=
  [(48, .alias_), (97, .argfile), (65, .argfile), (99, .chdir), (67, .chroot), (101, .env),
    (69, .env), (70, .fdset), (76, .setlock), (109, .umask), (80, .pidlock), (82, .rlimit),
    (83, .search), (117, .setuid), (85, .envuid), (122, .sleep)]

def argOf (c : UInt8) : Option Arg := (letters.find? (·.1 = c)).map (·.2)

/-- The last option for each variable counts. -/
def settled (os : List Opt) : Opts where
  arg a := ((os.filter fun o => argOf o.1 = some a).getLast?).bind (·.2)
  argInsert := ((os.filter fun o => o.1 = 97 ∨ o.1 = 65).getLast?).map (·.1) = some 65
  detach := os.any fun o => o.1 = 100
  envMerge := ((os.filter fun o => o.1 = 101 ∨ o.1 = 69).getLast?).map (·.1) ≠ some 69
  setsid := os.any fun o => o.1 = 100 ∨ o.1 = 115

/-- What one option changes -/
def effect (st : Opts) (o : Opt) : Opts where
  arg a := if argOf o.1 = some a then o.2 else st.arg a
  argInsert := if o.1 = 97 ∨ o.1 = 65 then o.1 = 65 else st.argInsert
  detach := st.detach || o.1 = 100
  envMerge := if o.1 = 101 ∨ o.1 = 69 then o.1 ≠ 69 else st.envMerge
  setsid := st.setsid || (o.1 = 100 ∨ o.1 = 115)

theorem last_snoc {p : Opt → Bool} (os : List Opt) (o : Opt) :
    ((os ++ [o]).filter p).getLast? = if p o = true then some o else (os.filter p).getLast? := by
  rw [List.filter_append]
  by_cases h : p o = true
  · rw [if_pos h, List.filter_singleton, h, cond_true, List.getLast?_append]
    rfl
  · rw [if_neg h, List.filter_singleton, Bool.eq_false_iff.mpr h, cond_false, List.append_nil]

theorem opts_ext {st st' : Opts} (h : ∀ a, st.arg a = st'.arg a) (h1 : st.argInsert = st'.argInsert)
    (h2 : st.detach = st'.detach) (h3 : st.envMerge = st'.envMerge) (h4 : st.setsid = st'.setsid) :
    st = st' := by
  cases st
  cases st'
  simp only [Opts.mk.injEq]
  exact ⟨funext h, h1, h2, h3, h4⟩

theorem settled_snoc (os : List Opt) (o : Opt) : settled (os ++ [o]) = effect (settled os) o := by
  apply opts_ext
  · intro a
    simp only [settled, effect, last_snoc]
    by_cases h : argOf o.1 = some a
    · simp [h]
    · simp [h]
  · simp only [settled, effect, last_snoc]
    by_cases h : o.1 = 97 ∨ o.1 = 65
    · simp [h]
    · simp [h]
  · simp [settled, effect]
  · simp only [settled, effect, last_snoc]
    by_cases h : o.1 = 101 ∨ o.1 = 69
    · simp [h]
    · simp [h]
  · simp [settled, effect]

theorem settled_nil : settled [] = initial := rfl

theorem settled_foldl (os : List Opt) : os.foldl effect initial = settled os := by
  induction os using List.reverseRecOn with
  | nil => exact settled_nil.symm
  | append_singleton os o ih =>
    rw [List.foldl_append, ih, List.foldl_cons, List.foldl_nil, settled_snoc]

/-! ## The loop over the options -/

/-- The letters that stand alone, and those that take an argument -/
def alone : List UInt8 := [104, 86, 100, 115, 87]

def withArg : List UInt8 := letters.map (·.1)

theorem option_letters {c : UInt8} {b : Bool} (h : takes optlist c = some b) :
    c ∈ alone ∧ b = false ∨ c ∈ withArg ∧ b = true :=
  Nextopt.takes_all (P := fun c b => c ∈ alone ∧ b = false ∨ c ∈ withArg ∧ b = true)
    (by decide +kernel) h

theorem optCase_stops : Stops optCase := by
  rintro ⟨ret, got, arg⟩ st (rfl | rfl)
  · exact ⟨_, rfl⟩
  · exact ⟨_, rfl⟩

theorem update_eq (arg : Arg → Option (List UInt8)) (a b : Arg) (s : List UInt8) :
    Function.update arg a (some s) b = if some a = some b then some s else arg b := by
  by_cases h : a = b
  · subst h
    rw [Function.update_self, if_pos rfl]
  · rw [Function.update_of_ne (Ne.symm h), if_neg fun hab => h (Option.some.inj hab)]

theorem optCase_alone {c : UInt8} (h : c ∈ alone) (hgo : ¬ (c = 104 ∨ c = 86))
    (arg : Option (List UInt8)) (st : Opts) :
    optCase ⟨c, c, arg⟩ st = .ok (effect st (c, arg)) := by
  simp only [alone, List.mem_cons, List.not_mem_nil, or_false] at h
  rcases h with rfl | rfl | rfl | rfl | rfl
  · exact absurd (.inl rfl) hgo
  · exact absurd (.inr rfl) hgo
  · exact congrArg Res.ok (opts_ext (fun a => rfl) rfl (by simp [effect]) rfl (by simp [effect]))
  · exact congrArg Res.ok (opts_ext (fun a => rfl) rfl (by simp [effect]) rfl (by simp [effect]))
  · exact congrArg Res.ok (opts_ext (fun a => rfl) rfl (by simp [effect]) rfl (by simp [effect]))

theorem optCase_arg {c : UInt8} (h : c ∈ withArg) (s : List UInt8) (st : Opts) :
    optCase ⟨c, c, some s⟩ st = .ok (effect st (c, some s)) := by
  simp only [withArg, letters, List.map_cons, List.map_nil, List.mem_cons, List.not_mem_nil,
    or_false] at h
  rcases h with rfl | rfl | rfl | rfl | rfl | rfl | rfl | rfl | rfl | rfl | rfl | rfl | rfl | rfl |
    rfl | rfl
  all_goals
    exact congrArg Res.ok (opts_ext (fun a => update_eq _ _ a s) rfl (by simp [effect]) rfl
      (by simp [effect]))

/-- `-h` and `-V` end the program at once. -/
def Leaves (o : Opt) : Prop := o.1 = 104 ∨ o.1 = 86

instance (o : Opt) : Decidable (Leaves o) := inferInstanceAs (Decidable (_ ∨ _))

theorem optCase_eq {o : Opt} (h : takes optlist o.1 = some o.2.isSome) (st : Opts) :
    optCase ⟨o.1, o.1, o.2⟩ st =
      if Leaves o then .stopped (.options (.exit 0)) else .ok (effect st o) := by
  obtain ⟨c, arg⟩ := o
  by_cases hend : Leaves (c, arg)
  · rw [if_pos hend, optCase]
    exact if_pos hend
  · rw [if_neg hend]
    rcases option_letters h with ⟨hc, -⟩ | ⟨hc, hsome⟩
    · exact optCase_alone hc hend arg st
    · obtain ⟨s, rfl⟩ := Option.isSome_iff_exists.mp hsome
      exact optCase_arg hc s st

/-- The loop goes on to the end of the options if none of them ends the program. -/
theorem fold_eq (os : List Opt) (h : ∀ o ∈ os, takes optlist o.1 = some o.2.isSome) (st : Opts) :
    Res.fold (fun st o => optCase ⟨o.1, o.1, o.2⟩ st) os st =
      if ∃ o ∈ os, Leaves o then .stopped (.options (.exit 0)) else .ok (os.foldl effect st) := by
  induction os generalizing st with
  | nil => rfl
  | cons o os ih =>
    rw [Res.fold, optCase_eq (h o List.mem_cons_self)]
    by_cases ho : Leaves o
    · rw [if_pos ho, if_pos ⟨o, List.mem_cons_self, ho⟩, Res.bind]
    · rw [if_neg ho, Res.bind, ih fun o ho => h o (List.mem_cons_of_mem _ ho), List.foldl_cons]
      simp only [List.exists_mem_cons_iff, or_iff_right ho]

/-- What the command line comes to -/
def optionsOf (p : List Opt × Final) : Res Stop (Opts × List (List UInt8)) :=
  if ∃ o ∈ p.1, Leaves o then .stopped (.options (.exit 0))
  else
    match p.2 with
    | .operands rest => .ok (settled p.1, rest)
    | fin => .stopped (.options (optError fin.seen))

theorem options_settled (prog : Text) (args : List Text) :
    options optCase ⟨optlist, by decide⟩ prog args initial =
      optionsOf (parse optlist (args.map Text.bytes)) := by
  have hletters := Nextopt.parse_takes optlist (args.map Text.bytes)
  rw [options_eq optCase_stops (by decide), followed, fold_eq _ hletters, optionsOf]
  by_cases hend : ∃ o ∈ (parse optlist (args.map Text.bytes)).1, Leaves o
  · rw [if_pos hend, if_pos hend, Res.bind]
  · rw [if_neg hend, if_neg hend, Res.bind, settled_foldl]
    cases (parse optlist (args.map Text.bytes)).2 with
    | operands rest => rfl
    | invalid c => rfl
    | missing c => rfl

/-! ## Reordered options -/

/-- The options that undo each other stand under one letter. -/
def group (c : UInt8) : UInt8 :=
  if c = 65 then 97 else if c = 69 then 101 else if c = 100 then 115 else c

/-- The same options in another order, but for those of one group -/
def Reordered (os os' : List Opt) : Prop :=
  ∀ g, os.filter (fun o => group o.1 = g) = os'.filter fun o => group o.1 = g

section
variable {os os' : List Opt}

theorem filter_group {p : UInt8 → Bool} {g : UInt8} (h : Reordered os os')
    (hp : ∀ c, p c = true → group c = g) :
    os.filter (fun o => p o.1) = os'.filter fun o => p o.1 := by
  have hthrough (l : List Opt) :
      l.filter (fun o => p o.1) = (l.filter fun o => group o.1 = g).filter fun o => p o.1 := by
    rw [List.filter_filter]
    apply List.filter_congr
    intro o _
    by_cases ho : p o.1 = true
    · simp [ho, hp o.1 ho]
    · simp [Bool.eq_false_iff.mpr ho]
  rw [hthrough os, hthrough os', h g]

theorem any_filter (p : Opt → Bool) (l : List Opt) : l.any p = (l.filter p).any p := by
  induction l with
  | nil => rfl
  | cons o l ih =>
    by_cases h : p o = true
    · rw [List.filter_cons_of_pos h, List.any_cons, List.any_cons, h, Bool.true_or, Bool.true_or]
    · rw [List.filter_cons_of_neg h, List.any_cons, ih, Bool.eq_false_iff.mpr h, Bool.false_or]

/-- The letter that stands for the variable -/
def letterOf : Arg → UInt8
  | .alias_ => 48
  | .argfile => 97
  | .chdir => 99
  | .chroot => 67
  | .env => 101
  | .envuid => 85
  | .fdset => 70
  | .pidlock => 80
  | .rlimit => 82
  | .search => 83
  | .setlock => 76
  | .setuid => 117
  | .sleep => 122
  | .umask => 109

theorem group_argOf {c : UInt8} {a : Arg} (h : argOf c = some a) : group c = letterOf a := by
  have hall : ∀ x ∈ letters, group x.1 = letterOf x.2 := by decide
  obtain ⟨x, hx, rfl⟩ := Option.map_eq_some_iff.mp h
  have hc : x.1 = c :=
    of_decide_eq_true (List.find?_some (p := fun x : UInt8 × Arg => decide (x.1 = c)) hx)
  rw [← hc]
  exact hall x (List.mem_of_find?_eq_some hx)

theorem settled_reordered (h : Reordered os os') : settled os = settled os' := by
  apply opts_ext
  · intro a
    have hsame := filter_group (p := fun c => decide (argOf c = some a)) h
      fun c hc => group_argOf (of_decide_eq_true hc)
    simp only [settled, hsame]
  · have hsame := filter_group (p := fun c => decide (c = 97 ∨ c = 65)) (g := 97) h fun c hc => by
      rcases of_decide_eq_true hc with rfl | rfl <;> rfl
    simp only [settled, hsame]
  · have hsame := filter_group (p := fun c => decide (c = 100)) (g := 115) h fun c hc => by
      rw [of_decide_eq_true hc]
      rfl
    simp only [settled]
    rw [any_filter, hsame, ← any_filter]
  · have hsame := filter_group (p := fun c => decide (c = 101 ∨ c = 69)) (g := 101) h fun c hc => by
      rcases of_decide_eq_true hc with rfl | rfl <;> rfl
    simp only [settled, hsame]
  · have hsame := filter_group (p := fun c => decide (c = 100 ∨ c = 115)) (g := 115) h
      fun c hc => by rcases of_decide_eq_true hc with rfl | rfl <;> rfl
    simp only [settled]
    rw [any_filter, hsame, ← any_filter]

/-- Two options of different groups may change places. -/
theorem reordered_swap {o o' : Opt} (h : group o.1 ≠ group o'.1) (os os' : List Opt) :
    Reordered (os ++ o :: o' :: os') (os ++ o' :: o :: os') := by
  intro g
  rw [List.filter_append, List.filter_append]
  congr 1
  by_cases ho : group o.1 = g
  · have ho' : group o'.1 ≠ g := fun hg => h (ho.trans hg.symm)
    rw [List.filter_cons_of_pos (by simp [ho]), List.filter_cons_of_neg (by simp [ho']),
      List.filter_cons_of_neg (by simp [ho']), List.filter_cons_of_pos (by simp [ho])]
  · rw [List.filter_cons_of_neg (by simp [ho]), List.filter_cons, List.filter_cons,
      List.filter_cons_of_neg (by simp [ho])]

theorem Reordered.mem (h : Reordered os os') {o : Opt} (ho : o ∈ os') : o ∈ os := by
  have hmem : o ∈ os'.filter fun x => group x.1 = group o.1 :=
    List.mem_filter.mpr ⟨ho, by simp⟩
  rw [← h] at hmem
  exact (List.mem_filter.mp hmem).1

end

end Perp.RuntoolOptions
