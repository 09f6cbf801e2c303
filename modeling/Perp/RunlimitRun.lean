import Perp.OptionLoop
import Perp.Runlimit

set_option autoImplicit false

/-!
# Runs of runlimit

What the command line, the limits file and the environment ask for, and what becomes of the
limits.
-/
namespace Perp.Runlimit
open Cstr (Text)
open Nextopt (Nopt Opt Final Seen nextopt nextoptInit parse takes cluster calls expected)
open Refusal
open Rlimit
open RunlimitFile (Line fileLoop fileLines)
open Settings

/-! ## What is asked for -/

def optEntries (o : Opt) : List (Resource × List UInt8) :=
  o.2.elim [] fun arg => (optionNames o.1).elim [] fun names => names.map (·, arg)

def options (i : Input) : List Opt × Final := parse optlist (i.args.map Text.bytes)

def named (i : Input) : List (Resource × List UInt8) := (options i).1.flatMap optEntries

def argF (i : Input) : Option (List UInt8) := (lastOf (options i).1 70).join

def fileText (i : Input) (rlimfile : List UInt8) : List Line :=
  (limitsFile i rlimfile).elim [] fun s => fileLines s.bytes

def lines (i : Input) : List Line := (argF i).elim [] (fileText i)

def lineEntry : Line → Option (Resource × List UInt8)
  | .skipped => none
  | .unsplit => none
  | .setting key val => (runlimitNdx key).map (·, val)

def inFile (i : Input) : List (Resource × List UInt8) := (lines i).filterMap lineEntry

def envEntry (i : Input) (name : Resource) : Option (Resource × List UInt8) :=
  (i.getenv name.name).map fun val => (name, val.bytes)

def inEnv (i : Input) : List (Resource × List UInt8) :=
  if (options i).1.any (·.1 = 69) = true then runlimits.filterMap (envEntry i) else []

/-- The text that counts for a limit of the system: the last option that names it, else the
first line, else the environment -/
def given (i : Input) (r : ℕ) : Option (List UInt8) :=
  (lastOf (rekey (handle i) (named i)) r).or
    ((firstOf (rekey (handle i) (inFile i)) r).or (firstOf (rekey (handle i) (inEnv i)) r))

/-- The limit is left alone, or set to the exact value of the text up to the hard limit. -/
structure LimitRight (i : Input) (r : ℕ) (new : Option Limit) : Prop where
  alone : given i r = none → new = i.limits r
  asked : ∀ text, given i r = some text → ∃ value rlim, valueOf marks text = some value ∧
    i.limits r = some rlim ∧ new = some ⟨value.soft rlim.max, rlim.max⟩

/-- The program is refused before it sets a limit, or sets all of them right. -/
def Right (i : Input) : Outcome → Prop
  | .refused _ => True
  | .failed _ => False
  | .started _ limits => ∀ r, LimitRight i r (limits r)
  | .outside => False

/-! ## What is refused -/

/-- A line that is no setting of a known name -/
def Broken : Line → Prop
  | .skipped => False
  | .unsplit => True
  | .setting key _ => runlimitNdx key = none

def BadOption (i : Input) (o : Opt) : Prop :=
  (o.1 = 86 ∨ o.1 = 104) ∨ ∃ e ∈ optEntries o, handle i e.1 ≠ none ∧ Unscanned marks e.2

/-- A text that is looked at, for the first time that its name is set or always, and refused -/
def BadAmong (i : Input) (m : Resource → Option (List UInt8)) (es : List (Resource × List UInt8)) :
    Prop :=
  ∃ e ∈ es, BadFor i e ∧ (handle i e.1 = none ∨ m e.1 = none ∧ firstOf es e.1 = some e.2)

def text (i : Input) (name : Resource) : Option (List UInt8) :=
  ((lastOf (named i) name).or (firstOf (inFile i) name)).or (firstOf (inEnv i) name)

inductive Refused (i : Input) : Prop where
  | option (o : Opt) (h : o ∈ (options i).1) (hbad : BadOption i o)
  | usage (h : ∀ arg rest, (options i).2 ≠ .operands (arg :: rest))
  | file (rlimfile : List UInt8) (h : argF i = some rlimfile) (hnone : limitsFile i rlimfile = none)
  | line (l : Line) (h : l ∈ lines i) (hbroken : Broken l)
  | setting (h : BadAmong i (lastOf (named i)) (inFile i))
  | variable (h : BadAmong i (fun name => (lastOf (named i) name).or (firstOf (inFile i) name))
      (inEnv i))

/-! ## The limits that are set -/

def tableEntry (i : Input) (m : Resource → Option (List UInt8)) (name : Resource) :
    Option (ℕ × List UInt8) :=
  (handle i name).bind fun r => (m name).map fun text => (r, text)

/-- The text that is set last, in the order of the table -/
def applied (i : Input) (r : ℕ) : Option (List UInt8) :=
  lastOf (runlimits.filterMap (tableEntry i (text i))) r

def newLimit (i : Input) (r : ℕ) (text : Option (List UInt8)) : Option Limit :=
  text.elim (i.limits r) fun text =>
    (i.limits r).map fun rlim => ⟨(scanned marks text).soft rlim.max, rlim.max⟩

/-- What is scanned of the text that is set last gives the limit that is asked for. -/
def Exact (i : Input) (r : ℕ) : Prop :=
  ∀ text, given i r = some text → ∃ value, valueOf marks text = some value ∧
    ∀ last rlim, applied i r = some last → i.limits r = some rlim →
      (scanned marks last).soft rlim.max = value.soft rlim.max

section
variable {i : Input} {t : Table} {m : Resource → Option (List UInt8)} {st : Opts} {o : Opt}
  {os : List Opt} {fin : Final}

/-! ### The limits -/

theorem newLimit_max {r : ℕ} {rlim : Limit} (h : i.limits r = some rlim)
    (text : Option (List UInt8)) : ∃ old, newLimit i r text = some old ∧ old.max = rlim.max := by
  cases text with
  | none => exact ⟨rlim, h, rfl⟩
  | some text =>
    rw [newLimit, Option.elim_some, h, Option.map_some]
    exact ⟨_, rfl, rfl⟩

theorem setrlimit_eq {r : ℕ} {rlim old : Limit} {soft : UInt64} {limits : ℕ → Option Limit}
    (hsoft : soft ≤ rlim.max) (h : limits r = some old) (hmax : old.max = rlim.max) :
    setrlimit limits (some r) ⟨soft, rlim.max⟩ =
      some (Function.update limits r (some ⟨soft, rlim.max⟩)) := by
  have hle : soft ≤ rlim.max ∧ rlim.max ≤ old.max := ⟨hsoft, hmax ▸ UInt64.le_refl _⟩
  rw [setrlimit, Option.bind_some, h, Option.bind_some, if_pos hle]

theorem setEntry_meets (h : Holds i t m) (limits : ℕ → Option Limit) (b : ℕ → Option (List UInt8))
    (name : Resource) (hlimits : ∀ r, limits r = newLimit i r (b r)) :
    (setEntry t limits name).Meets False fun limits =>
      ∀ r, limits r = newLimit i r ((tableEntry i m name).elim b (put b) r) := by
  rw [setEntry]
  by_cases hset : (t name).isSet = 0
  · rw [if_neg (not_not.mpr hset)]
    have hentry : tableEntry i m name = none := by
      rw [tableEntry]
      rcases (h.isSet name).mp hset with hname | hm
      · rw [hname, Option.bind_none]
      · rw [hm]
        cases handle i name <;> rfl
    rw [hentry]
    exact Res.meets_ok id hlimits
  · rw [if_pos hset]
    have hboth := (not_congr (h.isSet name)).mp hset
    rw [not_or] at hboth
    obtain ⟨r, hname⟩ := Option.ne_none_iff_exists'.mp hboth.1
    obtain ⟨text, htext⟩ := Option.ne_none_iff_exists'.mp hboth.2
    obtain ⟨-, hid, rlim, hrlim, hsoft, hhard⟩ := h.set name r text hname htext
    obtain ⟨old, hold, hmax⟩ := newLimit_max hrlim (b r)
    rw [← hlimits r] at hold
    have hentry : tableEntry i m name = some (r, text) := by
      rw [tableEntry, hname, htext]
      rfl
    rw [hid, hsoft, hhard, setrlimit_eq (Value.soft_le _ _) hold hmax, hentry]
    apply Res.meets_ok id
    intro other
    rw [Option.elim_some, put]
    by_cases hother : other = r
    · subst hother
      rw [Function.update_self, Function.update_self, newLimit, Option.elim_some, hrlim]
      rfl
    · rw [Function.update_of_ne hother, Function.update_of_ne hother]
      exact hlimits other

/-- Every call of `setrlimit()` succeeds. -/
theorem doRunlimits_meets (h : Holds i t m) :
    (doRunlimits t i.limits).Meets False fun limits =>
      ∀ r, limits r = newLimit i r (lastOf (runlimits.filterMap (tableEntry i m)) r) := by
  have hstart : ∀ r, i.limits r = newLimit i r none := fun _ => rfl
  apply (Res.Meets.fold (setEntry_meets h) runlimits hstart).congr
  · rw [faulty_const]
    exact ⟨fun ⟨_, _, hno⟩ => hno, False.elim⟩
  · intro limits hlimits r
    rw [hlimits r, foldl_filterMap, foldl_put, Option.or_none]

/-! ### The file and the environment -/

theorem rejected_among (es : List (Resource × List UInt8)) (m : Resource → Option (List UInt8)) :
    Faulty (Rejected i) offer es m ↔ BadAmong i m es :=
  faulty_offer (BadFor i) (fun name => handle i name = none) es m

theorem doLine_meets (source : List UInt8) (lineno : ℕ) (l : Line) (t : Table)
    (m : Resource → Option (List UInt8)) (h : Holds i t m) :
    (doLine i source lineno l t).Meets
      (Broken l ∨ ∃ e, lineEntry l = some e ∧ Rejected i m e)
      fun t => Holds i t ((lineEntry l).elim m (offer m)) := by
  cases l with
  | skipped => exact Res.meets_ok (fault_none id) h
  | unsplit => exact Res.meets_stopped _ (.inl trivial)
  | setting key val =>
    rw [doLine, lineEntry, Broken]
    cases hkey : runlimitNdx key with
    | none => exact Res.meets_stopped _ (.inl rfl)
    | some name =>
      apply (runlimitSetupNdx_meets h source).congr _ fun _ => id
      exact (fault_some (Option.some_ne_none name) (name, val)).symm

/-- A name is set by its first line, unless it is already set. -/
theorem doFile_meets (h : Holds i t m) (rlimfile : List UInt8) :
    (doFile i rlimfile t).Meets
      (limitsFile i rlimfile = none ∨ (∃ l ∈ fileText i rlimfile, Broken l) ∨
        BadAmong i m ((fileText i rlimfile).filterMap lineEntry))
      fun t => Holds i t fun name =>
        (m name).or (firstOf ((fileText i rlimfile).filterMap lineEntry) name) := by
  rw [doFile, fileText]
  cases limitsFile i rlimfile with
  | none => exact Res.meets_stopped _ (.inl rfl)
  | some s =>
    apply (RunlimitFile.fileLoop_meets (doLine_meets _) (fun _ => fault_none id) (fun _ => rfl) s.nul
      (Nat.lt_succ_self _) h).congr
    · rw [faulty_filterMap, rejected_among]
      exact ⟨.inr, fun hbad => hbad.resolve_left (Option.some_ne_none s)⟩
    · intro t ht
      rw [foldl_filterMap] at ht
      exact ht.congr fun name _ => foldl_offer _ m name

theorem doEnvironment_meets (h : Holds i t m) :
    (doEnvironment i t).Meets (BadAmong i m (runlimits.filterMap (envEntry i)))
      fun t => Holds i t fun name =>
        (m name).or (firstOf (runlimits.filterMap (envEntry i)) name) := by
  have hstep : ∀ (t : Table) (m : Resource → Option (List UInt8)) (name : Resource), Holds i t m →
      Res.Meets ((i.getenv name.name).elim (.ok t)
          fun val => runlimitSetupNdx i t name val.bytes environment)
        (False ∨ ∃ e, envEntry i name = some e ∧ Rejected i m e)
        fun t => Holds i t ((envEntry i name).elim m (offer m)) := by
    intro t m name h
    rw [envEntry]
    cases i.getenv name.name with
    | none => exact Res.meets_ok (fault_none not_false) h
    | some val =>
      apply (runlimitSetupNdx_meets h environment).congr _ fun _ => id
      exact (fault_some not_false (name, val.bytes)).symm
  apply (Res.Meets.fold hstep runlimits h).congr
  · rw [faulty_filterMap, rejected_among]
    exact ⟨fun hbad => hbad.resolve_left fun ⟨_, _, hno⟩ => hno, .inr⟩
  · intro t ht
    rw [foldl_filterMap] at ht
    exact ht.congr fun name _ => foldl_offer _ m name

/-! ### The options -/

structure Reached (i : Input) (st : Opts) (os : List Opt) : Prop where
  table : Holds i st.table (lastOf (os.flatMap optEntries))
  env : st.optE = os.any (·.1 = 69)
  file : st.argF = (lastOf os 70).join

/-- `runlimit` has options that end it, options without a limit, and options for limits. -/
theorem option_cases {c : UInt8} {b : Bool} (h : takes optlist c = some b) :
    (c = 86 ∨ c = 104 ∨ c = 118 ∨ c = 69) ∧ b = false ∨
      (c = 70 ∨ (optionNames c).isSome = true) ∧ b = true :=
  Nextopt.takes_all
    (P := fun c b =>
      (c = 86 ∨ c = 104 ∨ c = 118 ∨ c = 69) ∧ b = false ∨
        (c = 70 ∨ (optionNames c).isSome = true) ∧ b = true)
    (by decide) h

theorem optionNames_ne {c : UInt8} {names : List Resource} (h : optionNames c = some names) :
    ¬ (c = 86 ∨ c = 104) ∧ c ≠ 118 ∧ c ≠ 69 ∧ c ≠ 70 := by
  refine ⟨?_, ?_, ?_, ?_⟩
  · rintro (rfl | rfl) <;> cases h
  · rintro rfl
    cases h
  · rintro rfl
    cases h
  · rintro rfl
    cases h

theorem Reached.append {st' : Opts} (h : Reached i st os)
    (htable : Holds i st'.table ((optEntries o).foldl put (lastOf (os.flatMap optEntries))))
    (henv : st'.optE = (st.optE || decide (o.1 = 69)))
    (hfile : st'.argF = if o.1 = 70 then o.2 else st.argF) : Reached i st' (os ++ [o]) := by
  constructor
  · apply htable.congr
    intro name _
    rw [foldl_put, List.flatMap_append, lastOf_append, List.flatMap_singleton]
  · rw [henv, h.env, List.any_append, List.any_cons, List.any_nil, Bool.or_false]
  · rw [hfile, lastOf_append, lastOf_cons]
    by_cases ho : o.1 = 70
    · rw [if_pos ho, if_pos ho]
      rfl
    · rw [if_neg ho, if_neg ho, h.file]
      rfl

theorem not_badOption {c : UInt8} {arg : Option (List UInt8)} (hentries : optEntries (c, arg) = [])
    (hend : ¬ (c = 86 ∨ c = 104)) : ¬ BadOption i (c, arg) := by
  rintro (hstop | ⟨e, he, -⟩)
  · exact hend hstop
  · rw [hentries] at he
    cases he

theorem optCase_limit {c : UInt8} {names : List Resource} (h : Reached i st os)
    (hnames : optionNames c = some names) (arg : List UInt8) :
    (optCase i ⟨c, c, some arg⟩ st).Meets (BadOption i (c, some arg))
      fun st => Reached i st (os ++ [(c, some arg)]) := by
  obtain ⟨hend, h118, h69, h70⟩ := optionNames_ne hnames
  have hentries : optEntries (c, some arg) = names.map (·, arg) := by
    rw [optEntries, Option.elim_some, hnames]
    rfl
  have hstep : ∀ (t : Table) (m : Resource → Option (List UInt8)) (name : Resource), Holds i t m →
      (runlimitSetupOpt i t name arg c).Meets (handle i name ≠ none ∧ Unscanned marks arg)
        fun t => Holds i t (put m (name, arg)) :=
    fun _ _ name h => runlimitSetupOpt_meets h name arg c
  have hdone : ∀ t, Holds i t (names.foldl (fun m name => put m (name, arg))
      (lastOf (os.flatMap optEntries))) →
      Reached i { st with table := t } (os ++ [(c, some arg)]) := by
    intro t ht
    apply h.append
    · rw [hentries, List.foldl_map]
      exact ht
    · rw [decide_eq_false h69, Bool.or_false]
    · rw [if_neg h70]
  rw [optCase, if_neg hend, if_neg h118, if_neg h69, if_neg h70, hnames]
  apply ((Res.Meets.fold hstep names h.table).bind fun t ht =>
    Res.meets_ok not_false (hdone t ht)).congr _ fun _ => id
  rw [faulty_const, or_false, BadOption, hentries, or_iff_right hend]
  simp only [List.mem_map, exists_exists_and_eq_and]

theorem optCase_meets (h : Reached i st os) (hletter : takes optlist o.1 = some o.2.isSome) :
    (optCase i ⟨o.1, o.1, o.2⟩ st).Meets (BadOption i o) fun st => Reached i st (os ++ [o]) := by
  obtain ⟨c, arg⟩ := o
  rcases option_cases hletter with ⟨hc, hnone⟩ | ⟨hc, hsome⟩
  · obtain rfl : arg = none := Option.isNone_iff_eq_none.mp (Option.isSome_eq_false_iff.mp hnone)
    rcases hc with rfl | rfl | rfl | rfl
    · exact Res.meets_stopped _ (.inl (.inl rfl))
    · exact Res.meets_stopped _ (.inl (.inr rfl))
    · apply Res.meets_ok
      · exact not_badOption rfl (by decide)
      · exact h.append h.table (Bool.or_false _).symm rfl
    · apply Res.meets_ok
      · exact not_badOption rfl (by decide)
      · exact h.append h.table (Bool.or_true _).symm rfl
  · obtain ⟨value, rfl⟩ : ∃ value, arg = some value := Option.isSome_iff_exists.mp hsome
    rcases hc with rfl | hnames
    · apply Res.meets_ok
      · exact not_badOption rfl (by decide)
      · exact h.append h.table (Bool.or_false _).symm rfl
    · obtain ⟨names, hnames⟩ := Option.isSome_iff_exists.mp hnames
      exact optCase_limit h hnames value

def process (i : Input) (argv : List (List UInt8)) :
    List (UInt8 × Nopt) → Opts → Res Fatal (Opts × List (List UInt8))
  | [], _ => .outside
  | out :: outs, st =>
    if out.1 = 0 then .ok (st, argv.drop out.2.argNdx)
    else (optCase i ⟨out.1, out.2.optGot, out.2.optArg⟩ st).bind (process i argv outs)

theorem optCase_error {e : Seen} (h : e.ret = 63 ∨ e.ret = 58) (i : Input) (st : Opts) :
    optCase i e st = .stopped (optError e) := by
  obtain ⟨ret, got, arg⟩ := e
  rcases h with rfl | rfl <;> rfl

theorem optCase_stops (i : Input) : OptionLoop.Stops (optCase i) :=
  fun e st h => ⟨optError e, optCase_error h i st⟩

theorem optLoop_eq (i : Input) (argv : List (List UInt8)) (k : ℕ) :
    optLoop i argv k = OptionLoop.optLoop (optCase i) argv k := by
  induction k with
  | zero => rfl
  | succ k ih =>
    funext n st
    rw [optLoop, OptionLoop.optLoop, ih]

theorem process_eq (i : Input) (argv : List (List UInt8)) (outs : List (UInt8 × Nopt)) :
    process i argv outs = OptionLoop.process (optCase i) argv outs := by
  induction outs with
  | nil => rfl
  | cons out outs ih =>
    funext st
    rw [process, OptionLoop.process, ih]

theorem optLoop_calls (i : Input) (argv : List (List UInt8)) {k : ℕ} {n : Nopt}
    {outs : List (UInt8 × Nopt)} (h : calls k n = some outs) (st : Opts) :
    optLoop i argv k n st = process i argv outs st := by
  rw [optLoop_eq, process_eq]
  exact OptionLoop.optLoop_calls (optCase_stops i) h st

theorem optCase_steps (i : Input) : OptionLoop.Steps (optCase i) ⟨optlist, by decide⟩
    (fun _ => BadOption i) (fun os o => os ++ [o]) (Reached i) :=
  fun _ _ _ hletter h => optCase_meets h hletter

theorem process_meets {argv : List (List UInt8)} {outs : List (UInt8 × Nopt)} {done : List Opt}
    (hletters : ∀ o ∈ os, takes optlist o.1 = some o.2.isSome)
    (hseen : outs.map (fun out => ⟨out.1, out.2.optGot, out.2.optArg⟩) = expected (os, fin))
    (hend : ∀ out ∈ outs, out.1 = 0 → fin = .operands (argv.drop out.2.argNdx))
    (h : Reached i st done) :
    (process i argv outs st).Meets ((∃ o ∈ os, BadOption i o) ∨ ∀ rest, fin ≠ .operands rest)
      fun out => Reached i out.1 (done ++ os) ∧ fin = .operands out.2 := by
  have hmark : 63 ∉ (⟨optlist, by decide⟩ : Text).bytes := by decide
  rw [process_eq, OptionLoop.process_eq (optCase_stops i) hmark hletters hseen hend]
  apply (OptionLoop.followed_meets (optCase_stops i) (optCase_steps i) hletters h).congr
  · rw [faulty_const]
  · intro out hdone
    rwa [List.foldl_append_eq_append, ← List.flatMap_def, List.flatMap_singleton'] at hdone

/-! ### The program -/

theorem optLoop_meets (i : Input) :
    (optLoop i ((i.prog :: i.args).map Text.bytes) (Nextopt.size [] (i.args.map Text.bytes) + 1)
        (nextoptInit (i.args.length + 1) ((i.prog :: i.args).map Text.bytes) optlist)
        ⟨fun _ => ⟨none, 0, 0, 0⟩, false, none⟩).Meets
      ((∃ o ∈ (options i).1, BadOption i o) ∨ ∀ rest, (options i).2 ≠ .operands rest)
      fun out => Reached i out.1 (options i).1 ∧ (options i).2 = .operands out.2 := by
  obtain ⟨outs, hcalls, hseen, hend⟩ :=
    Nextopt.calls_init i.prog i.args ⟨optlist, by decide⟩
  rw [optLoop_calls i _ hcalls]
  have hempty : Reached i ⟨fun _ => ⟨none, 0, 0, 0⟩, false, none⟩ [] :=
    ⟨holds_empty i, rfl, rfl⟩
  exact process_meets (Nextopt.parse_takes optlist _) hseen (fun out hout => (hend out hout).2) hempty

theorem file_meets (h : Holds i t (lastOf (named i))) :
    ((argF i).elim (.ok t) fun rlimfile => doFile i rlimfile t).Meets
      ((∃ rlimfile, argF i = some rlimfile ∧ limitsFile i rlimfile = none) ∨
        (∃ l ∈ lines i, Broken l) ∨ BadAmong i (lastOf (named i)) (inFile i))
      fun t => Holds i t fun name => (lastOf (named i) name).or (firstOf (inFile i) name) := by
  rw [inFile, lines]
  cases argF i with
  | none =>
    apply Res.meets_ok
    · rintro (⟨_, hno, -⟩ | ⟨l, hl, -⟩ | ⟨e, he, -⟩)
      · cases hno
      · cases hl
      · cases he
    · exact h.congr fun name _ => (Option.or_none).symm
  | some rlimfile =>
    apply (doFile_meets h rlimfile).congr _ fun _ => id
    apply or_congr_left
    exact ⟨fun hnone => ⟨rlimfile, rfl, hnone⟩, fun ⟨_, heq, hnone⟩ => by cases heq; exact hnone⟩

theorem environment_meets (h : Holds i t m) :
    (if (options i).1.any (·.1 = 69) = true then doEnvironment i t else .ok t).Meets
      (BadAmong i m (inEnv i)) fun t => Holds i t fun name => (m name).or (firstOf (inEnv i) name) := by
  rw [inEnv]
  by_cases henv : (options i).1.any (·.1 = 69) = true
  · rw [if_pos henv, if_pos henv]
    exact doEnvironment_meets h
  · rw [if_neg henv, if_neg henv]
    apply Res.meets_ok
    · rintro ⟨e, he, -⟩
      cases he
    · exact h.congr fun name _ => (Option.or_none).symm

theorem afterOptions_meets {args : List (List UInt8)} (h : Reached i st (options i).1)
    (hargs : (options i).2 = .operands args) :
    (afterOptions i (st, args)).Meets
      ((∀ arg rest, (options i).2 ≠ .operands (arg :: rest)) ∨
        ((∃ rlimfile, argF i = some rlimfile ∧ limitsFile i rlimfile = none) ∨
          (∃ l ∈ lines i, Broken l) ∨ BadAmong i (lastOf (named i)) (inFile i)) ∨
        BadAmong i (fun name => (lastOf (named i) name).or (firstOf (inFile i) name)) (inEnv i))
      fun out => Holds i out.1 (text i) := by
  rw [afterOptions]
  cases args with
  | nil =>
    apply Res.meets_stopped
    left
    intro arg rest hmore
    rw [hmore] at hargs
    cases hargs
  | cons arg rest =>
    have hargF : st.argF = argF i := h.file
    have hdone : ∀ t, Holds i t (text i) → Res.Meets (.ok (t, arg :: rest) : Res Fatal _) False
        fun out => Holds i out.1 (text i) := fun _ ht => Res.meets_ok id ht
    rw [if_neg (List.cons_ne_nil arg rest), h.env, hargF]
    apply ((file_meets h.table).bind fun t ht =>
      (environment_meets ht).bind hdone).congr _ fun _ => id
    rw [or_false]
    exact (or_iff_right fun husage => husage arg rest hargs).symm

theorem prepare_meets (i : Input) :
    (prepare i).Meets (Refused i) fun out => Holds i out.1 (text i) := by
  apply ((optLoop_meets i).bind fun out hout => afterOptions_meets hout.1 hout.2).congr _ fun _ => id
  constructor
  · rintro ((⟨o, ho, hbad⟩ | hno) | husage |
      (⟨rlimfile, hfile, hnone⟩ | ⟨l, hl, hbroken⟩ | hset) | henv)
    · exact .option o ho hbad
    · exact .usage fun arg rest => hno (arg :: rest)
    · exact .usage husage
    · exact .file rlimfile hfile hnone
    · exact .line l hl hbroken
    · exact .setting hset
    · exact .variable henv
  · rintro (⟨o, ho, hbad⟩ | husage | ⟨rlimfile, hfile, hnone⟩ | ⟨l, hl, hbroken⟩ | hset | henv)
    · exact .inl (.inl ⟨o, ho, hbad⟩)
    · exact .inr (.inl husage)
    · exact .inr (.inr (.inl (.inl ⟨rlimfile, hfile, hnone⟩)))
    · exact .inr (.inr (.inl (.inr (.inl ⟨l, hl, hbroken⟩))))
    · exact .inr (.inr (.inl (.inr (.inr hset))))
    · exact .inr (.inr (.inr henv))

theorem main_cases (i : Input) :
    (Refused i ∧ ∃ e, main i = .refused e) ∨
      ¬ Refused i ∧ ∃ argv limits, main i = .started argv limits ∧
        ∀ r, limits r = newLimit i r (applied i r) := by
  rw [main]
  rcases prepare_meets i with ⟨href, e, he⟩ | ⟨hgo, ⟨t, argv⟩, hok, ht⟩
  · rw [he]
    exact .inl ⟨href, e, rfl⟩
  · rcases doRunlimits_meets ht with ⟨hno, -⟩ | ⟨-, limits, hlimits, hall⟩
    · exact hno.elim
    · simp only [hok, hlimits]
      exact .inr ⟨hgo, argv, limits, rfl, hall⟩

theorem text_eq_none {name : Resource} : text i name = none ↔
    lastOf (named i) name = none ∧ firstOf (inFile i) name = none ∧ firstOf (inEnv i) name = none := by
  rw [text, Option.or_eq_none_iff, Option.or_eq_none_iff, and_assoc]

theorem given_eq_none {r : ℕ} :
    given i r = none ↔ ∀ name, handle i name = some r → text i name = none := by
  rw [given, Option.or_eq_none_iff, Option.or_eq_none_iff, lastOf_rekey_eq_none,
    firstOf_rekey_eq_none, firstOf_rekey_eq_none]
  constructor
  · rintro ⟨hnamed, hfile, henv⟩ name hname
    exact text_eq_none.mpr ⟨hnamed name hname, hfile name hname, henv name hname⟩
  · intro h
    refine ⟨fun name hname => ?_, fun name hname => ?_, fun name hname => ?_⟩
    · exact (text_eq_none.mp (h name hname)).1
    · exact (text_eq_none.mp (h name hname)).2.1
    · exact (text_eq_none.mp (h name hname)).2.2

theorem mem_runlimits (name : Resource) : name ∈ runlimits := by
  cases name <;> decide

theorem applied_eq_none {r : ℕ} :
    applied i r = none ↔ ∀ name, handle i name = some r → text i name = none := by
  rw [applied, lastOf_eq_none]
  constructor
  · intro h name hname
    cases htext : text i name with
    | none => rfl
    | some v =>
      apply absurd _ (h v)
      rw [List.mem_filterMap]
      refine ⟨name, mem_runlimits name, ?_⟩
      rw [tableEntry, hname, htext]
      rfl
  · intro h v hmem
    obtain ⟨name, -, hentry⟩ := List.mem_filterMap.mp hmem
    obtain ⟨r', hname, hmap⟩ := Option.bind_eq_some_iff.mp hentry
    obtain ⟨v', htext, heq⟩ := Option.map_eq_some_iff.mp hmap
    cases heq
    rw [h name hname] at htext
    cases htext

/-- What is given for a limit is given for a limit that there is. -/
theorem limit_of_given {r : ℕ} {text' : List UInt8} (h : given i r = some text') :
    ∃ last rlim, applied i r = some last ∧ i.limits r = some rlim := by
  have hsome : ¬ ∀ name, handle i name = some r → text i name = none := by
    rw [← given_eq_none, h]
    exact Option.some_ne_none text'
  obtain ⟨last, hlast⟩ := Option.ne_none_iff_exists'.mp ((not_congr applied_eq_none).mpr hsome)
  obtain ⟨name, hname⟩ := not_forall.mp hsome
  have hname := (Classical.not_imp.mp hname).1
  obtain ⟨rlim, hrlim⟩ := Option.ne_none_iff_exists'.mp (i.known _ _ hname)
  exact ⟨last, rlim, hlast, hrlim⟩

theorem limitRight_iff {r : ℕ} : LimitRight i r (newLimit i r (applied i r)) ↔ Exact i r := by
  cases hgiven : given i r with
  | none =>
    have hnone : applied i r = none := applied_eq_none.mpr (given_eq_none.mp hgiven)
    apply iff_of_true
    · constructor
      · intro _
        rw [hnone]
        rfl
      · intro text htext
        rw [hgiven] at htext
        cases htext
    · intro text htext
      rw [hgiven] at htext
      cases htext
  | some given =>
    obtain ⟨last, rlim, hlast, hrlim⟩ := limit_of_given hgiven
    have hnew : newLimit i r (applied i r) =
        some ⟨(scanned marks last).soft rlim.max, rlim.max⟩ := by
      rw [hlast, newLimit, Option.elim_some, hrlim, Option.map_some]
    rw [hnew]
    constructor
    · intro h text htext
      obtain ⟨value, rlim', hvalue, hrlim', heq⟩ := h.asked text htext
      refine ⟨value, hvalue, ?_⟩
      intro last' rlim'' hlast' hrlim''
      rw [hlast] at hlast'
      rw [hrlim] at hrlim' hrlim''
      cases hlast'
      cases hrlim'
      cases hrlim''
      exact (Limit.mk.inj (Option.some.inj heq)).1
    · intro h
      constructor
      · intro hnone
        rw [hgiven] at hnone
        cases hnone
      · intro text htext
        obtain ⟨value, hvalue, hall⟩ := h text htext
        refine ⟨value, rlim, hvalue, hrlim, ?_⟩
        rw [hall last rlim hlast hrlim]

theorem right_iff (i : Input) : Right i (main i) ↔ Refused i ∨ ∀ r, Exact i r := by
  rcases main_cases i with ⟨href, e, he⟩ | ⟨hgo, argv, limits, hmain, hlimits⟩
  · rw [he]
    exact iff_of_true trivial (.inl href)
  · rw [hmain, or_iff_right hgo]
    apply forall_congr'
    intro r
    rw [hlimits r]
    exact limitRight_iff

/-- Where one name alone is set for a limit, to a value of 32 bits, nothing is lost. -/
theorem exact_of_alone {name : Resource} {r : ℕ} {v : List UInt8} {value : Value}
    (hname : handle i name = some r)
    (halone : ∀ other, handle i other = some r → other ≠ name → text i other = none)
    (htext : text i name = some v) (hvalue : valueOf marks v = some value) (hfits : value.Fits) :
    Exact i r := by
  have hgiven : given i r = some v := by
    rw [given, lastOf_rekey hname, firstOf_rekey hname, firstOf_rekey hname, ← Option.or_assoc]
    · exact htext
    · exact fun other hother hne => (text_eq_none.mp (halone other hother hne)).2.2
    · exact fun other hother hne => (text_eq_none.mp (halone other hother hne)).2.1
    · exact fun other hother hne => (text_eq_none.mp (halone other hother hne)).1
  have hlast : ∀ last, applied i r = some last → last = v := by
    intro last hlast
    obtain ⟨other, -, hentry⟩ := List.mem_filterMap.mp (mem_of_lastOf hlast)
    obtain ⟨r', hother, hmap⟩ := Option.bind_eq_some_iff.mp hentry
    obtain ⟨v', hv', heq⟩ := Option.map_eq_some_iff.mp hmap
    cases heq
    by_cases hsame : other = name
    · rw [hsame, htext] at hv'
      exact (Option.some.inj hv').symm
    · rw [halone other hother hsame] at hv'
      cases hv'
  intro text htext'
  rw [hgiven] at htext'
  cases htext'
  refine ⟨value, hvalue, ?_⟩
  intro last rlim happlied _
  have hmarks : ∀ c ∈ marks, Nuscan.isDigit 10 c = false :=
    List.forall_mem_cons.mpr ⟨by decide, List.forall_mem_cons.mpr ⟨by decide,
      List.forall_mem_singleton.mpr (by decide)⟩⟩
  rw [hlast last happlied, (scanned_of_valueOf hmarks hvalue hfits).2]

end

/-- Each run is refused before it sets a limit, or sets every limit that is named to the exact
value up to the hard limit and no other, if and only if it is refused, or what is scanned gives
the limits that are asked for. -/
theorem runlimit_limits_iff (i : Input) : Right i (main i) ↔ Refused i ∨ ∀ r, Exact i r :=
  right_iff i

/-- `runlimit -c "" true` -/
def emptyInput : Input where
  defs := [⟨4, Resource.core.name⟩]
  limits := fun r => if r = 4 then some ⟨0, 1000⟩ else none
  known := by
    intro name r h
    obtain ⟨d, hd, rfl⟩ := Option.map_eq_some_iff.mp h
    rw [List.mem_singleton.mp (List.mem_of_find?_eq_some hd)]
    decide
  prog := ⟨[114], by decide⟩
  args := [⟨[45, 99], by decide⟩, ⟨[], by decide⟩, ⟨[116, 114, 117, 101], by decide⟩]
  file := fun _ => none
  stdin := ⟨[], by decide⟩
  getenv := fun _ => none

/-- The empty value of an option is taken for 0. -/
theorem runlimit_empty_value : ¬ Right emptyInput (main emptyInput) := by
  have hoptions : options emptyInput = ([(99, some [])], .operands [[116, 114, 117, 101]]) := by decide
  have hgiven : given emptyInput 4 = some [] := by decide
  have hscanned : ¬ Unscanned marks [] := fun h => by
    have hnone := softLimit_unscanned h 0
    cases hnone
  have hgo : ¬ Refused emptyInput := by
    rintro (⟨o, ho, hbad⟩ | husage | ⟨_, hfile, -⟩ | ⟨l, hl, -⟩ | ⟨e, he, -⟩ | ⟨e, he, -⟩)
    · rw [hoptions] at ho
      rw [List.mem_singleton.mp ho] at hbad
      rcases hbad with hend | ⟨e, he, -, hun⟩
      · exact absurd hend (by decide)
      · rw [List.mem_singleton.mp he] at hun
        exact hscanned hun
    · rw [hoptions] at husage
      exact husage _ _ rfl
    · cases hfile
    · cases hl
    · cases he
    · cases he
  rw [right_iff, or_iff_right hgo]
  intro h
  obtain ⟨value, hvalue, -⟩ := h 4 [] hgiven
  rw [valueOf_nil] at hvalue
  cases hvalue

end Perp.Runlimit
