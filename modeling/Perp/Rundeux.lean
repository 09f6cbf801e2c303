import Perp.OptionLoop
import Perp.Runlimit
import Perp.TinylogPrune

set_option autoImplicit false

/-!
# The arguments of rundeux

The options, and the split of what follows them at the separator.
-/
namespace Perp.Rundeux
open Cstr (Text)
open Nextopt (Opt Final Seen parse)
open OptionLoop
open Refusal
open Runlimit (Fatal optError)
open TinylogPrune (cstrCmp)

/-! ## The program -/

structure Opts where
  detach : Bool
  sep : List UInt8
  super : Bool
  deriving DecidableEq, Repr

/-- `":hVdL:S:x"` -/
def optlist : List UInt8 := [58, 104, 86, 100, 76, 58, 83, 58, 120]

def optCase (e : Seen) (st : Opts) : Res Fatal Opts :=
  if e.ret = 104 ∨ e.ret = 86 then .stopped (.exit 0)
  else if e.ret = 100 then .ok { st with detach := true }
  else if e.ret = 76 then .ok st
  else if e.ret = 83 then Res.reading e.arg fun arg => .ok { st with sep := arg }
  else if e.ret = 120 then .ok { st with super := false }
  else .stopped (optError e)

/-- The pointers of an argument vector; `none` is NULL. -/
abbrev Argv := List (Option (List UInt8))

/-- The vectors of the two children, by their places in `argv` -/
structure Deux where
  argv : Argv
  program : ℕ
  logger : ℕ
  deriving DecidableEq, Repr

/-- The loop `while(argv)`, whose pointer is never NULL. A NULL that it points at is given to
`cstr_cmp()` as any other string. -/
def scan (sep : List UInt8) : Argv → ℕ → Res Fatal (Option ℕ)
  | [], _ => .outside
  | none :: _, _ => .outside
  | some arg :: argv, i => if cstrCmp arg sep = 0 then .ok (some (i + 1)) else scan sep argv (i + 1)

/-- `main()` from its operands to the two vectors -/
def split (sep : List UInt8) (args : List (List UInt8)) : Res Fatal Deux :=
  if args.length < 3 then .stopped (.usage [.text "missing required arguments"])
  else
    let argv := args.map some ++ [none]
    (scan sep (argv.drop 1) 1).bind fun logger =>
      logger.elim (.stopped (.usage [.text "missing required logger argument"])) fun logger =>
        .ok ⟨argv.set (logger - 1) none, 0, logger⟩

/-- `"::"` -/
def argSep : List UInt8 := [58, 58]

/-- The options, and the two vectors -/
def prepare (prog : Text) (args : List Text) : Res Fatal (Opts × Deux) :=
  (options optCase ⟨optlist, by decide⟩ prog args ⟨false, argSep, true⟩).bind fun out =>
    (split out.1.sep out.2).bind fun d => .ok (out.1, d)

/-! ## What it is for -/

/-- The strings of a vector up to its NULL -/
def upToNull : Argv → Option (List (List UInt8))
  | [] => none
  | none :: _ => some []
  | some arg :: argv => (upToNull argv).map (arg :: ·)

/-- The vectors of the program and the logger are what stands before the first separator and
behind it. -/
structure Cut (sep : List UInt8) (args : List (List UInt8)) (d : Deux) (program logger : List (List UInt8)) :
    Prop where
  whole : args = program ++ sep :: logger
  first : sep ∉ program
  program : upToNull (d.argv.drop d.program) = some program ∧ program ≠ []
  logger : upToNull (d.argv.drop d.logger) = some logger ∧ logger ≠ []

/-- Either there is a usage error, or the vectors are cut at the separator. -/
def Right (sep : List UInt8) (args : List (List UInt8)) (r : Res Fatal Deux) : Prop :=
  (∃ mesg, r = .stopped (.usage mesg)) ∨ ∃ d program logger, r = .ok d ∧ Cut sep args d program logger

/-- Operands that `main()` goes on with, and a separator -/
structure Operands where
  sep : Text
  args : List Text
  three : 3 ≤ args.length

def Operands.bytes (c : Operands) : List (List UInt8) := c.args.map Text.bytes

/-! ## The scan -/

section
variable {sep arg : List UInt8} {args : List (List UInt8)} {i : ℕ}

theorem cstrCmp_zero (harg : 0 ∉ arg) (hsep : 0 ∉ sep) : cstrCmp arg sep = 0 ↔ arg = sep := by
  induction arg generalizing sep with
  | nil =>
    cases sep with
    | nil => exact iff_of_true rfl rfl
    | cons b sep =>
      have hb : b ≠ 0 := fun h => hsep (List.mem_cons.mpr (.inl h.symm))
      have hpos : b.toNat ≠ 0 := fun h => hb (UInt8.toNat_inj.mp h)
      simp only [cstrCmp, reduceCtorEq, iff_false]
      omega
  | cons a arg ih =>
    have ha : a ≠ 0 := fun h => harg (List.mem_cons.mpr (.inl h.symm))
    cases sep with
    | nil =>
      have hpos : a.toNat ≠ 0 := fun h => ha (UInt8.toNat_inj.mp h)
      simp only [cstrCmp, reduceCtorEq, iff_false]
      omega
    | cons b sep =>
      rw [cstrCmp, List.cons.injEq]
      by_cases hab : a = b
      · rw [if_neg (not_not.mpr hab), ih (fun h => harg (List.mem_cons_of_mem a h))
          fun h => hsep (List.mem_cons_of_mem b h)]
        exact (and_iff_right hab).symm
      · rw [if_pos hab]
        have hne : a.toNat ≠ b.toNat := fun h => hab (UInt8.toNat_inj.mp h)
        exact iff_of_false (by omega) fun h => hab h.1

theorem upToNull_map (args : List (List UInt8)) (rest : Argv) :
    upToNull (args.map some ++ none :: rest) = some args := by
  induction args with
  | nil => rfl
  | cons arg args ih =>
    rw [List.map_cons, List.cons_append, upToNull, ih]
    rfl

theorem scan_found (hargs : ∀ arg ∈ args, 0 ∉ arg) (hsep : 0 ∉ sep) (i : ℕ) :
    scan sep (args.map some ++ [none]) i =
      if sep ∈ args then .ok (some (i + args.idxOf sep + 1)) else .outside := by
  induction args generalizing i with
  | nil => rfl
  | cons arg args ih =>
    have hzero := cstrCmp_zero (hargs arg List.mem_cons_self) hsep
    rw [List.map_cons, List.cons_append, scan, ih fun a ha => hargs a (List.mem_cons_of_mem arg ha)]
    by_cases heq : arg = sep
    · rw [if_pos (hzero.mpr heq), heq, if_pos List.mem_cons_self, List.idxOf_cons_self]
    · rw [if_neg fun h => heq (hzero.mp h), List.idxOf_cons_ne _ heq]
      have hmem : sep ∈ arg :: args ↔ sep ∈ args := by
        rw [List.mem_cons]
        exact or_iff_right fun h => heq h.symm
      simp only [hmem]
      split
      · congr 2
        omega
      · rfl

/-! ## The split -/

variable {first : List UInt8} {pre post : List (List UInt8)}

theorem split_found (post : List (List UInt8)) (hargs : ∀ arg ∈ pre ++ sep :: post, 0 ∉ arg) (hpre : sep ∉ pre)
    (hthree : 3 ≤ (first :: (pre ++ sep :: post)).length) :
    ∃ argv, split sep (first :: (pre ++ sep :: post)) = .ok ⟨argv, 0, pre.length + 2⟩ ∧
      upToNull argv = some (first :: pre) ∧ upToNull (argv.drop (pre.length + 2)) = some post := by
  have hsep : 0 ∉ sep := hargs sep (List.mem_append_right _ List.mem_cons_self)
  have hmem : sep ∈ pre ++ sep :: post := List.mem_append_right _ List.mem_cons_self
  have hidx : (pre ++ sep :: post).idxOf sep = pre.length := by
    rw [List.idxOf_append_of_notMem hpre, List.idxOf_cons_self, Nat.add_zero]
  have hset : ((first :: (pre ++ sep :: post)).map some ++ [none]).set (pre.length + 1) none =
      (first :: pre).map some ++ none :: (post.map some ++ [none]) := by
    have hplace : ((first :: pre).map some).length = pre.length + 1 := by
      rw [List.length_map, List.length_cons]
    rw [← List.cons_append, List.map_append, List.append_assoc, ← hplace,
      List.set_append_right _ _ (Nat.le_refl _), Nat.sub_self]
    rfl
  refine ⟨_, ?_, upToNull_map (first :: pre) (post.map some ++ [none]), ?_⟩
  · have hdrop : ((first :: (pre ++ sep :: post)).map some ++ [none]).drop 1 =
        (pre ++ sep :: post).map some ++ [none] := rfl
    have hnext : 1 + pre.length + 1 = pre.length + 2 := by omega
    rw [split, if_neg (Nat.not_lt.mpr hthree)]
    simp only [hdrop, scan_found hargs hsep, if_pos hmem, hidx, hnext, Res.bind, Option.elim_some]
    rw [← hset]
    rfl
  · have hplace : pre.length + 2 = ((first :: pre).map some ++ [none]).length := by
      rw [List.length_append, List.length_map, List.length_cons, List.length_singleton]
    have hcells : (first :: pre).map some ++ none :: (post.map some ++ [none]) =
        ((first :: pre).map some ++ [none]) ++ (post.map some ++ [none]) := by
      rw [List.append_assoc, List.singleton_append]
    rw [hcells, hplace, List.drop_left]
    exact upToNull_map post []

theorem split_missing (hargs : ∀ arg ∈ args, 0 ∉ arg) (hsep : 0 ∉ sep) (hmem : sep ∉ args)
    (hthree : 3 ≤ (first :: args).length) : split sep (first :: args) = .outside := by
  have hdrop : ((first :: args).map some ++ [none]).drop 1 = args.map some ++ [none] := rfl
  rw [split, if_neg (Nat.not_lt.mpr hthree)]
  simp only [hdrop, scan_found hargs hsep, if_neg hmem]
  rfl

theorem not_right_outside : ¬ Right sep args .outside := by
  rintro (⟨mesg, hmesg⟩ | ⟨d, program, logger, hd, -⟩)
  · cases hmesg
  · cases hd

theorem right_found (hargs : ∀ arg ∈ pre ++ sep :: post, 0 ∉ arg) (hpre : sep ∉ pre)
    (hthree : 3 ≤ (first :: (pre ++ sep :: post)).length) :
    Right sep (first :: (pre ++ sep :: post)) (split sep (first :: (pre ++ sep :: post))) ↔
      first ≠ sep ∧ post ≠ [] := by
  obtain ⟨argv, hsplit, hprogram, hlogger⟩ := split_found post hargs hpre hthree
  rw [hsplit]
  constructor
  · rintro (⟨mesg, hmesg⟩ | ⟨d, program, logger, hd, hcut⟩)
    · cases hmesg
    · cases hd
      obtain rfl : first :: pre = program := Option.some.inj (hprogram.symm.trans hcut.program.1)
      obtain rfl : post = logger := Option.some.inj (hlogger.symm.trans hcut.logger.1)
      exact ⟨fun h => hcut.first (h ▸ List.mem_cons_self), hcut.logger.2⟩
  · intro h
    refine .inr ⟨_, first :: pre, post, rfl, rfl, ?_, ⟨hprogram, List.cons_ne_nil _ _⟩, hlogger, h.2⟩
    rw [List.mem_cons, not_or]
    exact ⟨h.1.symm, hpre⟩

end

/-- The split is right for a separator that is first found between other arguments. -/
theorem split_iff (c : Operands) : Right c.sep.bytes c.bytes (split c.sep.bytes c.bytes) ↔
    0 < c.bytes.idxOf c.sep.bytes ∧ c.bytes.idxOf c.sep.bytes + 1 < c.bytes.length := by
  have hargs : ∀ arg ∈ c.bytes, 0 ∉ arg := by
    intro arg harg
    obtain ⟨text, -, rfl⟩ := List.mem_map.mp harg
    exact text.nul
  have hsep := c.sep.nul
  have hthree : 3 ≤ c.bytes.length := by
    rw [Operands.bytes, List.length_map]
    exact c.three
  generalize c.bytes = args at hargs hthree ⊢
  generalize c.sep.bytes = sep at hsep ⊢
  cases args with
  | nil => cases hthree
  | cons first args =>
    have htail : ∀ arg ∈ args, 0 ∉ arg := fun arg h => hargs arg (List.mem_cons_of_mem first h)
    by_cases hmem : sep ∈ args
    · obtain ⟨pre, post, rfl, hpre⟩ := List.eq_append_cons_of_mem hmem
      rw [right_found htail hpre hthree]
      by_cases hfirst : first = sep
      · rw [hfirst, List.idxOf_cons_self]
        exact iff_of_false (fun h => h.1 rfl) fun h => absurd h.1 (Nat.lt_irrefl 0)
      · rw [List.idxOf_cons_ne _ hfirst, List.idxOf_append_of_notMem hpre, List.idxOf_cons_self]
        simp only [ne_eq, hfirst, not_false_eq_true, true_and, List.length_cons, List.length_append,
          ← List.length_eq_zero_iff]
        omega
    · rw [split_missing htail hsep hmem hthree]
      apply iff_of_false not_right_outside
      by_cases hfirst : first = sep
      · rw [hfirst, List.idxOf_cons_self]
        exact fun h => absurd h.1 (Nat.lt_irrefl 0)
      · rw [List.idxOf_cons_ne _ hfirst, List.idxOf_eq_length hmem, List.length_cons]
        omega

/-- `rundeux a b c`, without a separator -/
theorem split_reads_null : ¬ ∀ c : Operands, Right c.sep.bytes c.bytes (split c.sep.bytes c.bytes) := by
  intro h
  have hat := h ⟨⟨argSep, by decide⟩, [⟨[97], by decide⟩, ⟨[98], by decide⟩, ⟨[99], by decide⟩],
    by decide⟩
  exact not_right_outside hat

/-! ## The command line -/

/-- What an option makes of the settings -/
def setting (st : Opts) (o : Opt) : Opts :=
  if o.1 = 100 then { st with detach := true }
  else if o.1 = 83 then { st with sep := o.2.getD st.sep }
  else if o.1 = 120 then { st with super := false }
  else st

/-- The options do not end the program. -/
def Plain (o : Opt) : Prop := o.1 ≠ 104 ∧ o.1 ≠ 86

theorem optCase_stops : Stops optCase := by
  rintro ⟨ret, got, arg⟩ st (rfl | rfl)
  · exact ⟨_, rfl⟩
  · exact ⟨_, rfl⟩

theorem option_letters {c : UInt8} {b : Bool} (h : Nextopt.takes optlist c = some b) :
    (c = 104 ∨ c = 86 ∨ c = 100 ∨ c = 120) ∧ b = false ∨ (c = 76 ∨ c = 83) ∧ b = true :=
  Nextopt.takes_all
    (P := fun c b =>
      (c = 104 ∨ c = 86 ∨ c = 100 ∨ c = 120) ∧ b = false ∨ (c = 76 ∨ c = 83) ∧ b = true)
    (by decide) h

theorem optCase_plain {o : Opt} (h : Nextopt.takes optlist o.1 = some o.2.isSome) (hplain : Plain o)
    (st : Opts) : optCase ⟨o.1, o.1, o.2⟩ st = .ok (setting st o) := by
  obtain ⟨c, arg⟩ := o
  rcases option_letters h with ⟨hc, -⟩ | ⟨hc, hsome⟩
  · rcases hc with rfl | rfl | rfl | rfl
    · exact absurd rfl hplain.1
    · exact absurd rfl hplain.2
    · rfl
    · rfl
  · obtain ⟨value, rfl⟩ : ∃ value, arg = some value := Option.isSome_iff_exists.mp hsome
    rcases hc with rfl | rfl
    · rfl
    · rfl

theorem fold_plain {os : List Opt} (hos : ∀ o ∈ os, Nextopt.takes optlist o.1 = some o.2.isSome)
    (hplain : ∀ o ∈ os, Plain o) (st : Opts) :
    Res.fold (fun st o => optCase ⟨o.1, o.1, o.2⟩ st) os st = .ok (os.foldl setting st) := by
  induction os generalizing st with
  | nil => rfl
  | cons o os ih =>
    rw [Res.fold, optCase_plain (hos o List.mem_cons_self) (hplain o List.mem_cons_self)]
    exact ih (fun o ho => hos o (List.mem_cons_of_mem _ ho))
      (fun o ho => hplain o (List.mem_cons_of_mem _ ho)) _

/-- The operands of a command line are split at its last separator option. -/
theorem prepare_split (prog : Text) (args : List Text) {rest : List (List UInt8)}
    (hplain : ∀ o ∈ (parse optlist (args.map Text.bytes)).1, Plain o)
    (hrest : (parse optlist (args.map Text.bytes)).2 = .operands rest) :
    prepare prog args =
      let st := (parse optlist (args.map Text.bytes)).1.foldl setting ⟨false, argSep, true⟩
      (split st.sep rest).bind fun d => .ok (st, d) := by
  rw [prepare, options_eq optCase_stops (by decide), followed,
    fold_plain (Nextopt.parse_takes optlist _) hplain, hrest]
  rfl

end Perp.Rundeux
