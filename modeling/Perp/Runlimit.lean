import Mathlib.Logic.Function.Basic
import Perp.Nextopt
import Perp.Rlimit
import Perp.RunlimitFile
import Perp.Settings

set_option autoImplicit false

/-!
# runlimit

The options, the limits file and the environment, which set up one table; and the calls of
`setrlimit()`.
-/
namespace Perp.Runlimit
open Cstr (Text)
open Nextopt (Nopt Opt Final Seen nextopt nextoptInit parse)
open Refusal
open Rlimit
open RunlimitFile (Line fileLoop fileLines)
open Settings

/-! ## Errors -/

/-- A part of a message: a text of the program, a string, or a number -/
inductive Piece where
  | text (s : String)
  | str (s : List UInt8)
  | number (n : ℕ)
  deriving DecidableEq, Repr

/-- How the program ends before `do_runlimits()`, or in it -/
inductive Fatal where
  | exit (status : ℕ)
  | dieUsage
  | usage (mesg : List Piece)
  | proto (mesg : List Piece)
  | syserr (mesg : List Piece)
  deriving DecidableEq, Repr

/-! ## The table -/

/-- What the program is run with. `getrlimit()` knows the limits of the platform's own table. -/
structure Input where
  defs : List RlimitDef
  limits : ℕ → Option Limit
  known : ∀ name r, rlimitLookup defs name = some r → limits r ≠ none
  prog : Text
  args : List Text
  file : List UInt8 → Option Text
  stdin : Text
  getenv : List UInt8 → Option Text

/-- An entry of `runlimits[]`, without its names. An id of -1 is none. -/
structure Entry where
  id : Option ℕ
  isSet : ℕ
  rlSoft : UInt64
  rlHard : UInt64
  deriving DecidableEq, Repr

abbrev Table := Resource → Entry

/-- The order of `runlimits[]` -/
def runlimits : List Resource :=
  [.as, .vmem, .core, .data, .fsize, .memlock, .nofile, .nproc, .rss, .stack, .cpu]

def runlimitNdx (name : List UInt8) : Option Resource := runlimits.find? (·.name = name)

/-- `_`, `^` and `=` -/
def marks : List UInt8 := [95, 94, 61]

/-- What both setup routines do with an argument, with their own messages. A truncation is
warned of on stderr only. -/
def setup (i : Input) (t : Table) (name : Resource) (arg : List UInt8) (failure badArg : List Piece) :
    Res Fatal Table :=
  (rlimitLookup i.defs name.name).elim (.ok t) fun id =>
    (i.limits id).elim (.stopped (.syserr failure)) fun rlim =>
      (softLimit marks arg rlim.max).elim (.stopped (.usage badArg)) fun soft =>
        .ok (Function.update t name ⟨some id, (t name).isSet + 1, soft, rlim.max⟩)

def runlimitSetupOpt (i : Input) (t : Table) (name : Resource) (arg : List UInt8) (opt : UInt8) :
    Res Fatal Table :=
  setup i t name arg
    [.text "option -", .str [opt], .text ": failure getrlimit() for resource ", .str name.name]
    [.text "option -", .str [opt], .text ": non-numeric argument for resource ", .str name.name,
      .text ": ", .str arg]

def runlimitSetupNdx (i : Input) (t : Table) (name : Resource) (arg source : List UInt8) :
    Res Fatal Table :=
  if (t name).isSet ≠ 0 then .ok t
  else if arg = [] then
    .stopped (.usage [.text "NULL or empty argument for resource ", .str name.name,
      .text " found in ", .str source])
  else
    setup i t name arg
      [.text "failure getrlimit() for resource ", .str name.name, .text " from ", .str source]
      [.text "non-numeric argument for resource ", .str name.name, .text " from ", .str source,
        .text ": ", .str arg]

/-! ## The options -/

/-- `":hVvEF:a:c:d:f:l:m:o:p:r:s:t:"` -/
def optlist : List UInt8 :=
  [58, 104, 86, 118, 69, 70, 58, 97, 58, 99, 58, 100, 58, 102, 58, 108, 58, 109, 58, 111, 58, 112, 58,
    114, 58, 115, 58, 116, 58]

/-- The options for limits, each with the calls of `runlimit_setup_opt()` that it makes -/
def optionNames (opt : UInt8) : Option (List Resource) :=
  if opt = 97 then some [.as]
  else if opt = 99 then some [.core]
  else if opt = 100 then some [.data]
  else if opt = 102 then some [.fsize]
  else if opt = 108 then some [.memlock]
  else if opt = 109 then some [.as, .data, .memlock, .stack]
  else if opt = 111 then some [.nofile]
  else if opt = 112 then some [.nproc]
  else if opt = 114 then some [.rss]
  else if opt = 115 then some [.stack]
  else if opt = 116 then some [.cpu]
  else none

/-- The table with `opt_E`, and `arg_F` where there is `opt_F` -/
structure Opts where
  table : Table
  optE : Bool
  argF : Option (List UInt8)

/-- The cases `:`, `?` and `default` -/
def optError (e : Seen) : Fatal :=
  if e.ret = 58 then .usage [.text "missing argument for option -", .str [e.got]]
  else if e.ret = 63 ∧ e.got ≠ 63 then .usage [.text "invalid option: -", .str [e.got]]
  else .dieUsage

/-- The `switch`, on what a call of `nextopt()` gives. Options that take an argument read it. -/
def optCase (i : Input) (e : Seen) (st : Opts) : Res Fatal Opts :=
  if e.ret = 86 ∨ e.ret = 104 then .stopped (.exit 0)
  else if e.ret = 118 then .ok st
  else if e.ret = 69 then .ok { st with optE := true }
  else if e.ret = 70 then Res.reading e.arg fun arg => .ok { st with argF := some arg }
  else
    (optionNames e.ret).elim (.stopped (optError e)) fun names =>
      Res.reading e.arg fun arg =>
        (Res.fold (fun t name => runlimitSetupOpt i t name arg e.ret) names st.table).bind fun t =>
          .ok { st with table := t }

/-- The loop over the options, with the operands that are left behind them -/
def optLoop (i : Input) (argv : List (List UInt8)) :
    ℕ → Nopt → Opts → Res Fatal (Opts × List (List UInt8))
  | 0, _, _ => .outside
  | fuel + 1, n, st =>
    Res.reading (nextopt n) fun out =>
      if out.1 = 0 then .ok (st, argv.drop out.2.argNdx)
      else (optCase i ⟨out.1, out.2.optGot, out.2.optArg⟩ st).bind (optLoop i argv fuel out.2)

/-! ## The file and the environment -/

/-- What `do_file()` does with a line -/
def doLine (i : Input) (source : List UInt8) (lineno : ℕ) (l : Line) (t : Table) : Res Fatal Table :=
  match l with
  | .skipped => .ok t
  | .unsplit => .stopped (.proto [.text "empty value or format error found in ", .str source,
      .text ", line ", .number lineno])
  | .setting key val =>
    (runlimitNdx key).elim
      (.stopped (.proto [.text "unknown resource found in ", .str source, .text ", line ",
        .number lineno, .text ": ", .str key]))
      fun name => runlimitSetupNdx i t name val source

/-- `"<stdin>"` -/
def stdinName : List UInt8 := [60, 115, 116, 100, 105, 110, 62]

/-- The file that is read; `-` is the standard input. -/
def limitsFile (i : Input) (rlimfile : List UInt8) : Option Text :=
  if rlimfile = [45] then some i.stdin else i.file rlimfile

def doFile (i : Input) (rlimfile : List UInt8) (t : Table) : Res Fatal Table :=
  let source := if rlimfile = [45] then stdinName else rlimfile
  (limitsFile i rlimfile).elim (.stopped (.syserr [.text "unable to open ", .str rlimfile]))
    fun s => fileLoop (doLine i source) (s.bytes.length + 1) s.bytes 0 t

/-- `"environment"` -/
def environment : List UInt8 := [101, 110, 118, 105, 114, 111, 110, 109, 101, 110, 116]

def doEnvironment (i : Input) (t : Table) : Res Fatal Table :=
  Res.fold (fun t name => (i.getenv name.name).elim (.ok t)
    fun val => runlimitSetupNdx i t name val.bytes environment) runlimits t

/-! ## The limits -/

/-- `setrlimit()` without privileges: the hard limit can only be lowered, and the soft limit set
up to it. -/
def setrlimit (limits : ℕ → Option Limit) (id : Option ℕ) (rlim : Limit) :
    Option (ℕ → Option Limit) :=
  id.bind fun id => (limits id).bind fun old =>
    if rlim.cur ≤ rlim.max ∧ rlim.max ≤ old.max then
      some (Function.update limits id (some rlim))
    else none

/-- The body of the loop of `do_runlimits()` -/
def setEntry (t : Table) (limits : ℕ → Option Limit) (name : Resource) :
    Res Fatal (ℕ → Option Limit) :=
  if (t name).isSet ≠ 0 then
    (setrlimit limits (t name).id ⟨(t name).rlSoft, (t name).rlHard⟩).elim
      (.stopped (.syserr [.text "failure setrlimit() for resource ", .str name.name])) .ok
  else .ok limits

def doRunlimits (t : Table) (limits : ℕ → Option Limit) : Res Fatal (ℕ → Option Limit) :=
  Res.fold (setEntry t) runlimits limits

/-- What follows the options in `main()`, up to `do_runlimits()`: the table, and the operands -/
def afterOptions (i : Input) (out : Opts × List (List UInt8)) :
    Res Fatal (Table × List (List UInt8)) :=
  if out.2 = [] then .stopped (.usage [.text "missing program argument"])
  else
    (out.1.argF.elim (.ok out.1.table) fun argF => doFile i argF out.1.table).bind fun t =>
      (if out.1.optE = true then doEnvironment i t else .ok t).bind fun t => .ok (t, out.2)

def prepare (i : Input) : Res Fatal (Table × List (List UInt8)) :=
  let argv := (i.prog :: i.args).map Text.bytes
  let fuel := Nextopt.size [] (i.args.map Text.bytes) + 1
  (optLoop i argv fuel (nextoptInit (i.args.length + 1) argv optlist)
    ⟨fun _ => ⟨none, 0, 0, 0⟩, false, none⟩).bind (afterOptions i)

/-- The program is refused before any call of `setrlimit()`, or fails in the middle of them, or
comes to `execvx()`. -/
inductive Outcome where
  | refused (e : Fatal)
  | failed (e : Fatal)
  | started (argv : List (List UInt8)) (limits : ℕ → Option Limit)
  | outside

def main (i : Input) : Outcome :=
  match prepare i with
  | .outside => .outside
  | .stopped e => .refused e
  | .ok (t, argv) =>
    match doRunlimits t i.limits with
    | .outside => .outside
    | .stopped e => .failed e
    | .ok limits => .started argv limits

/-! ## What the table holds -/

/-- The limit of the system that a name stands for -/
def handle (i : Input) (name : Resource) : Option ℕ := rlimitLookup i.defs name.name

/-- The table holds what the texts for the names say, where the names are known. -/
structure Holds (i : Input) (t : Table) (m : Resource → Option (List UInt8)) : Prop where
  unset : ∀ name, handle i name = none ∨ m name = none → (t name).isSet = 0
  set : ∀ name id text, handle i name = some id → m name = some text →
    (t name).isSet ≠ 0 ∧ (t name).id = some id ∧ ∃ rlim, i.limits id = some rlim ∧
      (t name).rlSoft = (scanned marks text).soft rlim.max ∧ (t name).rlHard = rlim.max

/-- A text that is refused, from the file or the environment -/
def BadFor (i : Input) (e : Resource × List UInt8) : Prop :=
  e.2 = [] ∨ handle i e.1 ≠ none ∧ Unscanned marks e.2

/-- Such a text, where the name is not yet set -/
def Rejected (i : Input) (m : Resource → Option (List UInt8)) (e : Resource × List UInt8) : Prop :=
  BadFor i e ∧ (handle i e.1 = none ∨ m e.1 = none)

section
variable {i : Input} {t : Table} {m m' : Resource → Option (List UInt8)} {name : Resource}
  {arg : List UInt8}

theorem Holds.congr (h : Holds i t m) (hm : ∀ name, handle i name ≠ none → m name = m' name) :
    Holds i t m' := by
  constructor
  · intro name hunset
    apply h.unset name
    by_cases hname : handle i name = none
    · exact .inl hname
    · exact .inr (by rw [hm name hname]; exact hunset.resolve_left hname)
  · intro name id text hname htext
    apply h.set name id text hname
    rw [hm name (by rw [hname]; exact Option.some_ne_none id), htext]

theorem holds_empty (i : Input) : Holds i (fun _ => ⟨none, 0, 0, 0⟩) fun _ => none := by
  constructor
  · exact fun _ _ => rfl
  · exact fun _ _ _ _ h => by cases h

theorem Holds.update {r : ℕ} {rlim : Limit} (h : Holds i t m) (hname : handle i name = some r)
    (hrlim : i.limits r = some rlim) (arg : List UInt8) (n : ℕ) :
    Holds i (Function.update t name ⟨some r, n + 1, (scanned marks arg).soft rlim.max, rlim.max⟩)
      (put m (name, arg)) := by
  constructor
  · intro other hunset
    rw [put] at hunset
    by_cases hother : other = name
    · subst hother
      rw [Function.update_self, hname] at hunset
      rcases hunset with hnone | hnone <;> cases hnone
    · rw [Function.update_of_ne hother] at hunset ⊢
      exact h.unset other hunset
  · intro other id' text hid htext
    rw [put] at htext
    by_cases hother : other = name
    · subst hother
      rw [Function.update_self] at htext ⊢
      cases htext
      rw [hname] at hid
      cases hid
      exact ⟨Nat.succ_ne_zero n, rfl, rlim, hrlim, rfl, rfl⟩
    · rw [Function.update_of_ne hother] at htext ⊢
      exact h.set other id' text hid htext

theorem setup_meets (h : Holds i t m) (failure badArg : List Piece) :
    (setup i t name arg failure badArg).Meets (handle i name ≠ none ∧ Unscanned marks arg)
      fun t => Holds i t (put m (name, arg)) := by
  rw [setup, ← handle]
  cases hname : handle i name with
  | none =>
    apply Res.meets_ok fun hbad => hbad.1 rfl
    apply h.congr
    intro other hother
    rw [put, Function.update_of_ne]
    rintro rfl
    exact hother hname
  | some r =>
    obtain ⟨rlim, hrlim⟩ := Option.ne_none_iff_exists'.mp (i.known _ _ hname)
    rw [Option.elim_some, hrlim, Option.elim_some]
    by_cases hbad : Unscanned marks arg
    · rw [softLimit_unscanned hbad]
      exact Res.meets_stopped _ ⟨Option.some_ne_none r, hbad⟩
    · rw [softLimit_scanned hbad]
      exact Res.meets_ok (fun hno => hbad hno.2) (h.update hname hrlim arg (t name).isSet)

theorem runlimitSetupOpt_meets (h : Holds i t m) (name : Resource) (arg : List UInt8) (opt : UInt8) :
    (runlimitSetupOpt i t name arg opt).Meets (handle i name ≠ none ∧ Unscanned marks arg)
      fun t => Holds i t (put m (name, arg)) :=
  setup_meets h _ _

theorem Holds.isSet (h : Holds i t m) (name : Resource) :
    (t name).isSet = 0 ↔ handle i name = none ∨ m name = none := by
  constructor
  · intro hzero
    by_contra hset
    rw [not_or] at hset
    obtain ⟨r, hname⟩ := Option.ne_none_iff_exists'.mp hset.1
    obtain ⟨text, htext⟩ := Option.ne_none_iff_exists'.mp hset.2
    exact (h.set name r text hname htext).1 hzero
  · exact h.unset name

theorem runlimitSetupNdx_meets (h : Holds i t m) (source : List UInt8) :
    (runlimitSetupNdx i t name arg source).Meets (Rejected i m (name, arg))
      fun t => Holds i t (offer m (name, arg)) := by
  rw [runlimitSetupNdx]
  by_cases hset : (t name).isSet = 0
  · rw [if_neg (not_not.mpr hset)]
    have hfree := (h.isSet name).mp hset
    by_cases hempty : arg = []
    · rw [if_pos hempty]
      exact Res.meets_stopped _ ⟨.inl hempty, hfree⟩
    · rw [if_neg hempty]
      apply (setup_meets h _ _).congr
      · exact ⟨fun hbad => ⟨.inr hbad, hfree⟩, fun hbad => hbad.1.resolve_left hempty⟩
      · intro t ht
        apply ht.congr
        intro other hother
        rw [offer]
        by_cases hm : m name = none
        · rw [if_pos (Option.isNone_iff_eq_none.mpr hm)]
        · rw [if_neg fun hnone => hm (Option.isNone_iff_eq_none.mp hnone), put,
            Function.update_of_ne]
          rintro rfl
          exact hother (hfree.resolve_right hm)
  · rw [if_pos hset]
    have htaken := fun hfree => hset ((h.isSet name).mpr hfree)
    apply Res.meets_ok fun hbad => htaken hbad.2
    rw [offer, if_neg fun hnone => htaken (.inr (Option.isNone_iff_eq_none.mp hnone))]
    exact h

end

end Perp.Runlimit
