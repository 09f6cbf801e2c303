import Mathlib.Algebra.Order.Ring.Nat
import Perp.Cstr

set_option autoImplicit false

/-!
# Options of the command line

`nextopt()` with its cursor, and the parse of the arguments that it is to give.
-/
namespace Perp.Nextopt
open Cstr

/-! ## The parser -/

/-- `struct nextopt` -/
structure Nopt where
  optGot : UInt8
  optArg : Option (List UInt8)
  optList : List UInt8
  argNdx : ℕ
  argc : ℕ
  argv : List (List UInt8)
  ondx : ℕ
  deriving DecidableEq, Repr

def nextoptStart (argc : ℕ) (argv : List (List UInt8)) (optlist : List UInt8) (start : ℕ) : Nopt where
  optGot := 0
  optArg := none
  optList := optlist
  argNdx := start
  argc := argc
  argv := argv
  ondx := 1

def nextoptInit (argc : ℕ) (argv : List (List UInt8)) (optlist : List UInt8) : Nopt :=
  nextoptStart argc argv optlist 1

/-- The argument of an option that takes one. There is none to be read from `argv` at or
behind `argc`, nor from a string behind its NUL. -/
def argument (n : Nopt) (c : UInt8) : Option (UInt8 × Nopt) :=
  if n.ondx ≠ 1 then do
    let arg ← n.argv[n.argNdx]?
    return (c, { n with optArg := some (arg.drop n.ondx), argNdx := n.argNdx + 1, ondx := 1 })
  else if n.argc ≤ n.argNdx then some (58, n)
  else do
    let arg ← n.argv[n.argNdx]?
    return (c, { n with optArg := some arg, argNdx := n.argNdx + 1 })

def validate (n : Nopt) (c : UInt8) : Option (UInt8 × Nopt) := do
  let lookup := cstrPos n.optList c
  let found ← charAt n.optList lookup
  if c = 58 ∨ found = 0 then return (63, n)
  let colon ← charAt n.optList (lookup + 1)
  if colon = 58 then argument n c else return (c, n)

def letter (n : Nopt) : Option (UInt8 × Nopt) := do
  let arg ← n.argv[n.argNdx]?
  let c ← charAt arg n.ondx
  let next ← charAt arg (n.ondx + 1)
  if next = 0 then validate { n with optGot := c, argNdx := n.argNdx + 1, ondx := 1 } c
  else validate { n with optGot := c, ondx := n.ondx + 1 } c

/-- The return of a call, and the parser after it -/
def nextopt (n : Nopt) : Option (UInt8 × Nopt) :=
  let n := { n with optGot := 0, optArg := none }
  if n.ondx = 1 then
    if n.argc ≤ n.argNdx then some (0, n)
    else do
      let arg ← n.argv[n.argNdx]?
      let first ← charAt arg 0
      if first ≠ 45 then return (0, n)
      let second ← charAt arg 1
      if second = 0 then return (0, n)
      if arg = [45, 45] then return (0, { n with argNdx := n.argNdx + 1 })
      letter n
  else letter n

/-- After these returns nothing is defined. -/
def Ends (r : UInt8) : Prop := r = 0 ∨ r = 63 ∨ r = 58

instance (r : UInt8) : Decidable (Ends r) := inferInstanceAs (Decidable (_ ∨ _))

/-- Up to `k` calls, until one ends: the returns with the parser after each -/
def calls : ℕ → Nopt → Option (List (UInt8 × Nopt))
  | 0, _ => none
  | k + 1, n => (nextopt n).bind fun out =>
    if Ends out.1 then some [out] else (calls k out.2).map (out :: ·)

/-! ## The parse -/

/-- Whether an option letter takes an argument -/
def takes (optlist : List UInt8) (c : UInt8) : Option Bool :=
  if c = 58 then none
  else
    match optlist with
    | [] => none
    | d :: rest => if d = c then some (rest.head? = some 58) else takes rest c

/-- How the letters behind a `-` end -/
inductive Close where
  | whole
  | invalid (c : UInt8)
  | wants (c : UInt8)
  deriving DecidableEq, Repr

/-- An option, with its argument -/
abbrev Opt := UInt8 × Option (List UInt8)

def cluster (optlist : List UInt8) : List UInt8 → List Opt × Close
  | [] => ([], .whole)
  | c :: ls =>
    match takes optlist c with
    | none => ([], .invalid c)
    | some false => ((c, none) :: (cluster optlist ls).1, (cluster optlist ls).2)
    | some true => if ls = [] then ([], .wants c) else ([(c, some ls)], .whole)

/-- How the options end: before the operands, or at an error -/
inductive Final where
  | operands (rest : List (List UInt8))
  | invalid (c : UInt8)
  | missing (c : UInt8)
  deriving DecidableEq, Repr

/-- The options of the arguments -/
def parse (optlist : List UInt8) : List (List UInt8) → List Opt × Final
  | [] => ([], .operands [])
  | arg :: args =>
    if arg.head? ≠ some 45 ∨ arg = [45] then ([], .operands (arg :: args))
    else if arg = [45, 45] then ([], .operands args)
    else
      let (os, close) := cluster optlist arg.tail
      match close with
      | .whole => (os ++ (parse optlist args).1, (parse optlist args).2)
      | .invalid c => (os, .invalid c)
      | .wants c =>
        match args with
        | [] => (os, .missing c)
        | value :: args => (os ++ (c, some value) :: (parse optlist args).1, (parse optlist args).2)

/-- What a caller sees of a call -/
structure Seen where
  ret : UInt8
  got : UInt8
  arg : Option (List UInt8)
  deriving DecidableEq, Repr

def Final.seen : Final → Seen
  | .operands _ => ⟨0, 0, none⟩
  | .invalid c => ⟨63, c, none⟩
  | .missing c => ⟨58, c, none⟩

/-- The calls end with the first return after which nothing is defined. -/
def cut : List Seen → List Seen
  | [] => []
  | e :: es => if Ends e.ret then [e] else e :: cut es

def expected (p : List Opt × Final) : List Seen :=
  cut (p.1.map (fun o => ⟨o.1, o.1, o.2⟩) ++ [p.2.seen])

/-! ## The letters -/

section
variable {optlist ls a : List UInt8} {args argv : List (List UInt8)} {n : Nopt} {c : UInt8} {k : ℕ}

/-- What the letters that are left and the arguments behind them are to give -/
def after (optlist : List UInt8) (r : List Opt × Close) (args : List (List UInt8)) :
    List Opt × Final :=
  match r.2 with
  | .whole => (r.1 ++ (parse optlist args).1, (parse optlist args).2)
  | .invalid c => (r.1, .invalid c)
  | .wants c =>
    match args with
    | [] => (r.1, .missing c)
    | value :: args => (r.1 ++ (c, some value) :: (parse optlist args).1, (parse optlist args).2)

theorem parse_eq_after (h : ¬ (a.head? ≠ some 45 ∨ a = [45])) (hdash : a ≠ [45, 45]) :
    parse optlist (a :: args) = after optlist (cluster optlist a.tail) args := by
  rw [parse, if_neg h, if_neg hdash]
  rfl

theorem after_nil : after optlist (cluster optlist []) args = parse optlist args := rfl

theorem after_invalid (h : takes optlist c = none) :
    after optlist (cluster optlist (c :: ls)) args = ([], .invalid c) := by
  simp only [cluster, h, after]

theorem after_plain (h : takes optlist c = some false) :
    after optlist (cluster optlist (c :: ls)) args =
      ((c, none) :: (after optlist (cluster optlist ls) args).1,
        (after optlist (cluster optlist ls) args).2) := by
  simp only [cluster, h, after]
  cases (cluster optlist ls).2 with
  | whole => rfl
  | invalid d => rfl
  | wants d => cases args <;> rfl

theorem after_attached (h : takes optlist c = some true) (hls : ls ≠ []) :
    after optlist (cluster optlist (c :: ls)) args =
      ((c, some ls) :: (parse optlist args).1, (parse optlist args).2) := by
  simp only [cluster, h, if_neg hls, after]
  rfl

theorem after_separate (h : takes optlist c = some true) :
    after optlist (cluster optlist [c]) (a :: args) =
      ((c, some a) :: (parse optlist args).1, (parse optlist args).2) := by
  simp only [cluster, h, if_pos, after]
  rfl

theorem after_missing (h : takes optlist c = some true) :
    after optlist (cluster optlist [c]) [] = ([], .missing c) := by
  simp only [cluster, h, if_pos, after]

/-! ## One call -/

theorem takes_colon : takes optlist 58 = none := by
  cases optlist <;> rfl

theorem takes_nil : takes [] c = none := by
  rw [takes]
  split <;> rfl

theorem takes_cons {d : UInt8} (hc : c ≠ 58) :
    takes (d :: optlist) c =
      if d = c then some (decide (optlist.head? = some 58)) else takes optlist c := by
  rw [takes, if_neg hc]

/-- The place of a letter in the list tells whether it is an option, and what follows it. -/
theorem takes_eq (hc : c ≠ 58) (hnul : 0 ∉ optlist) :
    ∃ found, charAt optlist (cstrPos optlist c) = some found ∧
      (found = 0 ∧ takes optlist c = none ∨ found ≠ 0 ∧
        ∃ colon, charAt optlist (cstrPos optlist c + 1) = some colon ∧
          takes optlist c = some (decide (colon = 58))) := by
  induction optlist with
  | nil => exact ⟨0, rfl, .inl ⟨rfl, takes_nil⟩⟩
  | cons d optlist ih =>
    rw [takes_cons hc]
    by_cases hd : d = c
    · have hd0 : d ≠ 0 := fun h => hnul (h ▸ List.mem_cons_self)
      have hpos : cstrPos (d :: optlist) c = 0 := by simp [cstrPos, List.findIdx_cons, hd]
      rw [hpos, if_pos hd]
      refine ⟨d, rfl, .inr ⟨hd0, ?_⟩⟩
      cases optlist with
      | nil => exact ⟨0, rfl, by simp⟩
      | cons e optlist => exact ⟨e, rfl, by simp⟩
    · have hpos : cstrPos (d :: optlist) c = cstrPos optlist c + 1 := by
        rw [cstrPos, List.findIdx_cons, beq_false_of_ne hd, cond_false, cstrPos]
      rw [hpos, if_neg hd]
      exact ih fun h => hnul (List.mem_cons_of_mem d h)

theorem validate_eq (hnul : 0 ∉ n.optList) :
    takes n.optList c = none ∧ validate n c = some (63, n) ∨
      takes n.optList c = some false ∧ validate n c = some (c, n) ∨
      takes n.optList c = some true ∧ validate n c = argument n c := by
  rw [validate]
  by_cases hc : c = 58
  · subst hc
    obtain ⟨found, hfound⟩ := charAt_of_le (cstrPos_le n.optList 58)
    rw [hfound]
    exact .inl ⟨takes_colon, rfl⟩
  · obtain ⟨found, hfound, ⟨rfl, htakes⟩ | ⟨hne, colon, hcolon, htakes⟩⟩ := takes_eq hc hnul
    · rw [hfound]
      exact .inl ⟨htakes, if_pos (.inr rfl)⟩
    · have hgo : ¬ (c = 58 ∨ found = 0) := not_or.mpr ⟨hc, hne⟩
      simp only [hfound, hcolon, Option.bind_eq_bind, Option.bind_some, if_neg hgo, htakes]
      by_cases h58 : colon = 58
      · simp [h58]
      · simp [h58]

/-- The cursor stands before the letters `ls` and the arguments `args`. -/
structure Stands (n : Nopt) (ls : List UInt8) (args : List (List UInt8)) : Prop where
  argc : n.argc = n.argv.length
  le : n.argNdx ≤ n.argv.length
  place : ls = [] ∧ n.ondx = 1 ∧ n.argv.drop n.argNdx = args ∨
    ls ≠ [] ∧ 1 < n.ondx ∧ ∃ a, n.argv.drop n.argNdx = a :: args ∧ a.drop n.ondx = ls

theorem getElem?_of_drop {α : Type} {l t : List α} {i : ℕ} {x : α} (h : l.drop i = x :: t) :
    l[i]? = some x ∧ l.drop (i + 1) = t ∧ i < l.length := by
  have hhead : l[i]? = some x := by rw [← List.head?_drop, h, List.head?_cons]
  refine ⟨hhead, ?_, (List.getElem?_eq_some_iff.mp hhead).1⟩
  rw [← List.tail_drop, h, List.tail_cons]

theorem letter_eq (hargc : n.argc = n.argv.length) (harg : n.argv.drop n.argNdx = a :: args)
    (hls : a.drop n.ondx = c :: ls) (hpos : n.ondx ≠ 0) (hnul : 0 ∉ a) :
    ∃ m, letter n = validate m c ∧ m.optGot = c ∧ m.optArg = n.optArg ∧ m.optList = n.optList ∧
      m.argv = n.argv ∧ Stands m ls args := by
  obtain ⟨hget, hdrop, hlt⟩ := getElem?_of_drop harg
  obtain ⟨-, hdrop', hlt'⟩ := getElem?_of_drop hls
  simp only [letter, hget, charAt_of_drop hls, Option.bind_eq_bind, Option.bind_some]
  cases ls with
  | nil =>
    have hend : n.ondx + 1 = a.length := by
      have hle := List.drop_eq_nil_iff.mp hdrop'
      omega
    rw [hend, charAt_length]
    exact ⟨_, rfl, rfl, rfl, rfl, rfl, hargc, hlt, .inl ⟨rfl, rfl, hdrop⟩⟩
  | cons d ls =>
    have hd : d ≠ 0 := by
      rintro rfl
      have hmem : 0 ∈ a.drop (n.ondx + 1) := hdrop' ▸ List.mem_cons_self
      exact hnul (List.mem_of_mem_drop hmem)
    have hond : 1 < n.ondx + 1 := by omega
    rw [charAt_of_drop hdrop', Option.bind_some, if_neg hd]
    exact ⟨_, rfl, rfl, rfl, rfl, rfl, hargc, hlt.le,
      .inr ⟨List.cons_ne_nil d ls, hond, a, harg, hdrop'⟩⟩

/-- The argument is the rest of the letters, or else the next of the arguments. -/
theorem argument_eq (h : Stands n ls args) :
    (ls = [] ∧ args = [] ∧ argument n c = some (58, n)) ∨
      ∃ value rest m, argument n c = some (c, m) ∧ m.optGot = n.optGot ∧ m.optArg = some value ∧
        m.optList = n.optList ∧ m.argv = n.argv ∧ Stands m [] rest ∧
        (ls ≠ [] ∧ value = ls ∧ rest = args ∨ ls = [] ∧ args = value :: rest) := by
  rcases h.place with ⟨hls, hond, hdrop⟩ | ⟨hls, hond, b, hdrop, hrest⟩
  · rw [argument, if_neg (not_not.mpr hond)]
    cases args with
    | nil =>
      have hend : n.argc ≤ n.argNdx := h.argc ▸ List.drop_eq_nil_iff.mp hdrop
      rw [if_pos hend]
      exact .inl ⟨hls, rfl, rfl⟩
    | cons value rest =>
      obtain ⟨hget, hdrop', hlt⟩ := getElem?_of_drop hdrop
      rw [if_neg (by rw [h.argc]; omega), hget]
      exact .inr ⟨value, rest, _, rfl, rfl, rfl, rfl, rfl, ⟨h.argc, hlt, .inl ⟨rfl, hond, hdrop'⟩⟩,
        .inr ⟨hls, rfl⟩⟩
  · obtain ⟨hget, hdrop', hlt⟩ := getElem?_of_drop hdrop
    rw [argument, if_pos hond.ne', hget]
    refine .inr ⟨ls, args, _, rfl, rfl, ?_, rfl, rfl, ⟨h.argc, hlt, .inl ⟨rfl, rfl, hdrop'⟩⟩,
      .inl ⟨hls, rfl, rfl⟩⟩
    rw [hrest]

/-! ## The options of the parse -/

theorem mem_of_takes {b : Bool} (h : takes optlist c = some b) : c ∈ optlist := by
  have hc : c ≠ 58 := by
    rintro rfl
    rw [takes_colon] at h
    cases h
  induction optlist with
  | nil =>
    rw [takes_nil] at h
    cases h
  | cons d optlist ih =>
    rw [takes_cons hc] at h
    by_cases hd : d = c
    · exact List.mem_cons.mpr (.inl hd.symm)
    · rw [if_neg hd] at h
      exact List.mem_cons_of_mem d (ih h)

/-- What holds of every letter of `optlist` -/
theorem takes_all {P : UInt8 → Bool → Prop} [∀ c b, Decidable (P c b)] {b : Bool}
    (hall : (optlist.all fun c => (takes optlist c).all fun b => decide (P c b)) = true)
    (h : takes optlist c = some b) : P c b := by
  have hc := List.all_eq_true.mp hall c (mem_of_takes h)
  rw [h] at hc
  exact of_decide_eq_true hc

/-- Options have an argument as the list says, whether letters are left or not. -/
theorem cluster_takes (optlist ls : List UInt8) :
    (∀ o ∈ (cluster optlist ls).1, takes optlist o.1 = some o.2.isSome) ∧
      ∀ c, (cluster optlist ls).2 = .wants c → takes optlist c = some true := by
  induction ls with
  | nil => exact ⟨fun o ho => absurd ho List.not_mem_nil, fun c hc => by cases hc⟩
  | cons c ls ih =>
    rw [cluster]
    cases htakes : takes optlist c with
    | none => exact ⟨fun o ho => absurd ho List.not_mem_nil, fun d hd => by cases hd⟩
    | some arg =>
      cases arg with
      | false =>
        constructor
        · intro o ho
          rcases List.mem_cons.mp ho with rfl | ho
          · exact htakes
          · exact ih.1 o ho
        · exact ih.2
      | true =>
        by_cases hls : ls = []
        · simp only [if_pos hls]
          constructor
          · exact fun o ho => absurd ho List.not_mem_nil
          · intro d hd
            cases hd
            exact htakes
        · simp only [if_neg hls]
          constructor
          · intro o ho
            rw [List.mem_singleton.mp ho]
            exact htakes
          · exact fun d hd => by cases hd

theorem parse_takes (optlist : List UInt8) (args : List (List UInt8)) :
    ∀ o ∈ (parse optlist args).1, takes optlist o.1 = some o.2.isSome := by
  fun_induction parse optlist args with
  | case1 => exact fun o ho => absurd ho List.not_mem_nil
  | case2 => exact fun o ho => absurd ho List.not_mem_nil
  | case3 => exact fun o ho => absurd ho List.not_mem_nil
  | case4 arg args hop hdash os hcl ih =>
    have hletters := (cluster_takes optlist arg.tail).1
    rw [hcl] at hletters
    intro o ho
    exact (List.mem_append.mp ho).elim (hletters o) (ih o)
  | case5 arg args hop hdash os c hcl =>
    have hletters := (cluster_takes optlist arg.tail).1
    rwa [hcl] at hletters
  | case6 arg hop hdash os c hcl =>
    have hletters := (cluster_takes optlist arg.tail).1
    rwa [hcl] at hletters
  | case7 arg hop hdash os c value args hcl ih =>
    have hletters := cluster_takes optlist arg.tail
    rw [hcl] at hletters
    intro o ho
    rcases List.mem_append.mp ho with ho | ho
    · exact hletters.1 o ho
    · rcases List.mem_cons.mp ho with rfl | ho
      · exact hletters.2 c rfl
      · exact ih o ho

/-! ## All calls -/

/-- The calls show the parse, and the first operand when they come to the end. -/
def Agrees (argv : List (List UInt8)) (r : Option (List (UInt8 × Nopt))) (p : List Opt × Final) :
    Prop :=
  ∃ out, r = some out ∧ out.map (fun o => ⟨o.1, o.2.optGot, o.2.optArg⟩) = expected p ∧
    ∀ o ∈ out, o.2.argNdx ≤ argv.length ∧ (o.1 = 0 → p.2 = .operands (argv.drop o.2.argNdx))

theorem agrees_last {m : Nopt} {fin : Final} {r : UInt8} (h : nextopt n = some (r, m))
    (hends : Ends r) (hle : m.argNdx ≤ argv.length) (hseen : (⟨r, m.optGot, m.optArg⟩ : Seen) = fin.seen)
    (hfin : r = 0 → fin = .operands (argv.drop m.argNdx)) :
    Agrees argv (calls (k + 1) n) ([], fin) := by
  refine ⟨[(r, m)], ?_, ?_, ?_⟩
  · rw [calls, h, Option.bind_some, if_pos hends]
  · have hret : Ends fin.seen.ret := by rwa [← hseen]
    rw [expected, List.map_nil, List.nil_append, cut, if_pos hret, ← hseen]
    rfl
  · intro o ho
    rw [List.mem_singleton.mp ho]
    exact ⟨hle, hfin⟩

theorem agrees_next {m : Nopt} {os : List Opt} {fin : Final} (h : nextopt n = some (c, m))
    (hc : c ≠ 0) (hle : m.argNdx ≤ argv.length) (hgot : m.optGot = c)
    (hrest : Agrees argv (calls k m) (os, fin)) :
    Agrees argv (calls (k + 1) n) ((c, m.optArg) :: os, fin) := by
  obtain ⟨out, hout, hmap, hall⟩ := hrest
  have hfirst : m.argNdx ≤ argv.length ∧ (c = 0 → fin = .operands (argv.drop m.argNdx)) :=
    ⟨hle, fun h0 => absurd h0 hc⟩
  rw [calls, h, Option.bind_some, Agrees, expected, List.map_cons, List.cons_append, cut]
  by_cases hends : Ends c
  · rw [if_pos hends, if_pos hends]
    refine ⟨[(c, m)], rfl, ?_, ?_⟩
    · rw [List.map_singleton, hgot]
    · intro o ho
      rw [List.mem_singleton.mp ho]
      exact hfirst
  · rw [if_neg hends, if_neg hends, hout]
    refine ⟨(c, m) :: out, rfl, ?_, ?_⟩
    · rw [List.map_cons, hmap, hgot]
      rfl
    · intro o ho
      rcases List.mem_cons.mp ho with rfl | ho
      · exact hfirst
      · exact hall o ho

/-- The letters and arguments that are left bound the calls. -/
def size (ls : List UInt8) (args : List (List UInt8)) : ℕ :=
  ls.length + (args.map fun a => a.length + 1).sum

theorem size_cons (ls a : List UInt8) (args : List (List UInt8)) :
    size ls (a :: args) = size ls args + a.length + 1 := by
  simp only [size, List.map_cons, List.sum_cons]
  omega

theorem size_letter (c : UInt8) (ls : List UInt8) (args : List (List UInt8)) :
    size (c :: ls) args = size ls args + 1 := by
  simp only [size, List.length_cons]
  omega

theorem size_nil_le (ls : List UInt8) (args : List (List UInt8)) : size [] args ≤ size ls args := by
  simp only [size, List.length_nil]
  omega

theorem letter_calls {m : Nopt} (hcall : nextopt n = letter m) (hlist : m.optList = optlist)
    (hargv : m.argv = argv) (harg : m.optArg = none) (hargc : m.argc = m.argv.length)
    (hdrop : m.argv.drop m.argNdx = a :: args) (hls : a.drop m.ondx = c :: ls) (hpos : m.ondx ≠ 0)
    (hnul : 0 ∉ a) (hopt : 0 ∉ optlist)
    (ih : ∀ (m : Nopt) (ls' : List UInt8) (args' : List (List UInt8)), m.optList = optlist →
      m.argv = argv → Stands m ls' args' → size ls' args' ≤ size ls args →
      Agrees argv (calls k m) (after optlist (cluster optlist ls') args')) :
    Agrees argv (calls (k + 1) n) (after optlist (cluster optlist (c :: ls)) args) := by
  obtain ⟨n', heq, hgot, hnone, hlist', hargv', hstands⟩ := letter_eq hargc hdrop hls hpos hnul
  have hc : c ≠ 0 := by
    rintro rfl
    exact hnul (List.mem_of_mem_drop (hls ▸ List.mem_cons_self))
  rw [harg] at hnone
  rw [hlist] at hlist'
  rw [hargv] at hargv'
  rw [heq] at hcall
  have hle := hstands.le
  rw [hargv'] at hle
  have hnul' : 0 ∉ n'.optList := hlist' ▸ hopt
  rcases validate_eq (c := c) hnul' with ⟨htakes, hval⟩ | ⟨htakes, hval⟩ | ⟨htakes, hval⟩ <;>
    rw [hlist'] at htakes <;> rw [hval] at hcall
  · rw [after_invalid htakes]
    apply agrees_last hcall (.inr (.inl rfl)) hle
    · rw [hgot, hnone]
      rfl
    · exact fun h => absurd h (by decide)
  · rw [after_plain htakes, ← hnone]
    exact agrees_next hcall hc hle hgot (ih n' ls args hlist' hargv' hstands (le_refl _))
  · rcases argument_eq (c := c) hstands with ⟨rfl, rfl, harg'⟩ | h
    · rw [harg'] at hcall
      rw [after_missing htakes]
      apply agrees_last hcall (.inr (.inr rfl)) hle
      · rw [hgot, hnone]
        rfl
      · exact fun h => absurd h (by decide)
    · obtain ⟨value, rest, n'', harg', hgot', hvalue, hlist'', hargv'', hstands', hcase⟩ := h
      rw [harg'] at hcall
      rw [hgot] at hgot'
      rw [hlist'] at hlist''
      rw [hargv'] at hargv''
      have hle' := hstands'.le
      rw [hargv''] at hle'
      rcases hcase with ⟨hne, rfl, rfl⟩ | ⟨rfl, rfl⟩
      · rw [after_attached htakes hne, ← hvalue]
        exact agrees_next hcall hc hle' hgot' (ih n'' [] rest hlist'' hargv'' hstands' (size_nil_le _ _))
      · rw [after_separate htakes, ← hvalue]
        apply agrees_next hcall hc hle' hgot' (ih n'' [] rest hlist'' hargv'' hstands' _)
        rw [size_cons]
        omega

theorem nextopt_argument (hond : n.ondx = 1) (hargc : n.argc = n.argv.length)
    (hdrop : n.argv.drop n.argNdx = a :: args) (hnul : 0 ∉ a) :
    ((a.head? ≠ some 45 ∨ a = [45]) ∧
        nextopt n = some (0, { n with optGot := 0, optArg := none })) ∨
      (a = [45, 45] ∧
        nextopt n = some (0, { n with optGot := 0, optArg := none, argNdx := n.argNdx + 1 })) ∨
      ¬ (a.head? ≠ some 45 ∨ a = [45]) ∧ a ≠ [45, 45] ∧ a.drop 1 ≠ [] ∧
        nextopt n = letter { n with optGot := 0, optArg := none } := by
  obtain ⟨hget, hdrop', hlt⟩ := getElem?_of_drop hdrop
  have hgo : ¬ n.argc ≤ n.argNdx := by
    rw [hargc]
    omega
  simp only [nextopt, if_pos hond, if_neg hgo, hget, Option.bind_eq_bind, Option.bind_some]
  cases a with
  | nil => exact .inl ⟨.inl (by simp), rfl⟩
  | cons d a =>
    by_cases hd : d = 45
    · subst hd
      cases a with
      | nil => exact .inl ⟨.inr rfl, rfl⟩
      | cons e a =>
        have he : e ≠ 0 := by
          rintro rfl
          exact hnul (List.mem_cons_of_mem _ List.mem_cons_self)
        by_cases hdash : 45 :: e :: a = [45, 45]
        · rw [hdash]
          exact .inr (.inl ⟨rfl, rfl⟩)
        · refine .inr (.inr ⟨by simp, hdash, List.cons_ne_nil e a, ?_⟩)
          simp only [charAt, List.cons_append, List.getElem?_cons_zero, List.getElem?_cons_succ,
            Option.bind_some, ne_eq, not_true_eq_false, if_false, if_neg he, if_neg hdash]
    · refine .inl ⟨.inl (by simpa using hd), ?_⟩
      simp only [charAt, List.cons_append, List.getElem?_cons_zero, Option.bind_some, ne_eq, hd,
        not_false_eq_true, if_true]
      rfl

theorem calls_spec (hopt : 0 ∉ optlist) (hnul : ∀ a ∈ argv, 0 ∉ a) (k : ℕ) :
    ∀ (n : Nopt) (ls : List UInt8) (args : List (List UInt8)), n.optList = optlist →
      n.argv = argv → Stands n ls args → size ls args < k →
      Agrees argv (calls k n) (after optlist (cluster optlist ls) args) := by
  induction k with
  | zero => exact fun n ls args _ _ _ h => absurd h (Nat.not_lt_zero _)
  | succ k ih =>
    intro n ls args hlist hargv hstands hsize
    rcases hstands.place with ⟨rfl, hond, hdrop⟩ | ⟨hne, hond, a, hdrop, hls⟩
    · -- a new argument
      rw [after_nil]
      cases args with
      | nil =>
        have hend : n.argc ≤ n.argNdx := hstands.argc ▸ List.drop_eq_nil_iff.mp hdrop
        have hcall : nextopt n = some (0, { n with optGot := 0, optArg := none }) := by
          simp only [nextopt, if_pos hond, if_pos hend]
        apply agrees_last hcall (.inl rfl) (hargv ▸ hstands.le) rfl
        intro _
        rw [← hargv, hdrop]
      | cons a args =>
        obtain ⟨hget, hdrop', hlt⟩ := getElem?_of_drop hdrop
        have hnula : 0 ∉ a := hnul a (hargv ▸ List.mem_of_getElem? hget)
        rcases nextopt_argument hond hstands.argc hdrop hnula with ⟨hop, hcall⟩ | ⟨rfl, hcall⟩ |
          ⟨hop, hdash, hmore, hcall⟩
        · rw [parse, if_pos hop]
          apply agrees_last hcall (.inl rfl) (hargv ▸ hstands.le) rfl
          intro _
          rw [← hargv, hdrop]
        · rw [parse, if_neg (by decide), if_pos rfl]
          apply agrees_last hcall (.inl rfl) (hargv ▸ hlt) rfl
          intro _
          rw [← hargv, hdrop']
        · rw [parse_eq_after hop hdash]
          obtain ⟨c, ls, hls⟩ := List.exists_cons_of_ne_nil hmore
          rw [← List.drop_one, hls]
          apply letter_calls hcall hlist hargv rfl hstands.argc hdrop
            (by rw [← hls, hond]) (by rw [hond]; decide) hnula hopt
          intro m ls' args' hlist' hargv' hstands' hle
          have hlen := congrArg List.length hls
          rw [List.length_drop, List.length_cons] at hlen
          rw [size_cons] at hsize
          apply ih m ls' args' hlist' hargv' hstands'
          simp only [size, List.length_nil] at hle hsize ⊢
          omega
    · obtain ⟨c, ls, rfl⟩ := List.exists_cons_of_ne_nil hne
      have hpos : n.ondx ≠ 0 := by omega
      have hcall : nextopt n = letter { n with optGot := 0, optArg := none } := by
        simp only [nextopt, if_neg hond.ne']
      have hget := (getElem?_of_drop hdrop).1
      have hnula : 0 ∉ a := hnul a (hargv ▸ List.mem_of_getElem? hget)
      apply letter_calls hcall hlist hargv rfl hstands.argc hdrop hls hpos hnula hopt
      intro m ls' args' hlist' hargv' hstands' hle
      rw [size_letter] at hsize
      exact ih m ls' args' hlist' hargv' hstands' (by omega)

theorem calls_init (prog : Text) (args : List Text) (optlist : Text) :
    Agrees ((prog :: args).map Text.bytes)
      (calls (size [] (args.map Text.bytes) + 1)
        (nextoptInit (args.length + 1) ((prog :: args).map Text.bytes) optlist.bytes))
      (parse optlist.bytes (args.map Text.bytes)) := by
  have hnul : ∀ a ∈ (prog :: args).map Text.bytes, 0 ∉ a := by
    intro a ha
    obtain ⟨text, -, rfl⟩ := List.mem_map.mp ha
    exact text.nul
  have hstands : Stands (nextoptInit (args.length + 1) ((prog :: args).map Text.bytes)
      optlist.bytes) [] (args.map Text.bytes) := by
    constructor
    · change args.length + 1 = ((prog :: args).map Text.bytes).length
      rw [List.length_map, List.length_cons]
    · exact Nat.succ_le_succ (Nat.zero_le _)
    · exact .inl ⟨rfl, rfl, rfl⟩
  exact calls_spec optlist.nul hnul _ _ [] _ rfl rfl hstands (Nat.lt_succ_self _)

end

/-- The calls until one ends are as many as the parse has options, read `argv` below `argc`
only, and show the options and arguments of the parse. -/
theorem nextopt_parse (prog : Text) (args : List Text) (optlist : Text) :
    ∃ k, Agrees ((prog :: args).map Text.bytes)
      (calls k (nextoptInit (args.length + 1) ((prog :: args).map Text.bytes) optlist.bytes))
      (parse optlist.bytes (args.map Text.bytes)) :=
  ⟨_, calls_init prog args optlist⟩

end Perp.Nextopt
