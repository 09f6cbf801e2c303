import Perp.NewenvInside
import Perp.RuntoolFiles
import Perp.RuntoolOptions
import Perp.RuntoolStages

set_option autoImplicit false

/-!
# The operating sequence of runtool

The files are read before anything is done, the operations are done in the order of the manual,
in whatever order the options are given, and the program is run only when all that are asked for
have been done.
-/
namespace Perp.RuntoolSequence
open Cstr (Text)
open IoqGetln (Mem)
open Newenv (environ newenvMerge)
open Nextopt (Opt Final parse)
open OptionLoop
open Refusal
open Rlimit (RlimitDef)
open RunenvFile (Env Setting)
open Runtool
open RuntoolFiles
open RuntoolOptions
open RuntoolStages
open Stages

section
variable {defs : List RlimitDef}

/-- The options and the operands -/
def cmdline (i : Input defs) : List Opt × Final := parse optlist (i.args.map Text.bytes)

/-- What the options have settled -/
def opts (i : Input defs) : Opts := settled (cmdline i).1

/-- The command line alone ends the program. -/
inductive Refused (i : Input defs) : Prop where
  | option (o : Opt) (ho : o ∈ (cmdline i).1) (hleaves : Leaves o)
  | usage (h : ∀ prog args, (cmdline i).2 ≠ .operands (prog :: args))
  | locks (hlock : (opts i).arg .setlock ≠ none) (hpid : (opts i).arg .pidlock ≠ none)

/-- The files and the user of the options are there. -/
def There (i : Input defs) (prog : List UInt8) (args : List (List UInt8)) : Prop :=
  argvOf i (opts i) prog args ≠ none ∧ VarsThere i (opts i)

/-- The search for the program with `execve()` -/
def exec (i : Input defs) (prog : List UInt8) : Execvx.Search :=
  (Execvx.execvx i.pathMax i.execve prog i.errno ((opts i).arg .search) i.path).2

/-- The environment of the program: the variables that are set, merged into the one that is there
unless the option is `-E` -/
def envpOf (i : Input defs) : Option (List (List UInt8)) :=
  (newenvMerge (if (opts i).envMerge then i.envp else [])
    (((varSettings i (opts i)).filter (·.key ≠ [])).map varStr)).bind environ

/-- All that the options ask for has been done, in the order of the manual. -/
def Prepared (i : Input defs) (prog : List UInt8) (args : List (List UInt8)) (ds : List Deed) :
    Prop :=
  There i prog args ∧ Done (Did i (opts i)) sequence ds

/-- The program is accepted with its arguments. -/
def Accepted (i : Input defs) (prog : List UInt8) (args : List (List UInt8)) : Prop :=
  ¬ Refused i ∧ (cmdline i).2 = .operands (prog :: args)

/-- How the program ends -/
inductive Course (i : Input defs) (mem : Mem) : Outcome → Prop where
  | refused (e : Runlimit.Fatal) (h : Refused i) : Course i mem (.stopped [] (.options e))
  /-- Nothing has been done when the files cannot be read. -/
  | unread (e : Stop) (prog : List UInt8) (args : List (List UInt8)) (hargs : Accepted i prog args)
      (h : false ∈ mem ∨ ¬ There i prog args)
      (he : (∃ err, e = .args err) ∨ ∃ err, e = .env err) : Course i mem (.stopped [] e)
  /-- Nothing is done behind the operation that fails. -/
  | cut (s : Stage) (ds : List Deed) (e : RuntoolRlimit.Fatal) (prog : List UInt8)
      (args : List (List UInt8)) (hargs : Accepted i prog args) (hthere : There i prog args)
      (h : CutAt (Did i (opts i)) (fun s d => stageOf d = s) sequence s ds) :
      Course i mem (.stopped ds (.step e))
  | unrun (ds : List Deed) (name : Option (List UInt8)) (prog : List UInt8)
      (args : List (List UInt8)) (hargs : Accepted i prog args) (h : Prepared i prog args ds)
      (hno : false ∈ mem ∨ (exec i prog).replaced = false)
      (hname : name = if (opts i).arg .argfile = none then some (nameOf (opts i) prog) else none) :
      Course i mem (.stopped ds (.unrun name))
  | runs (ds : List Deed) (x : Image) (prog : List UInt8) (args : List (List UInt8))
      (hargs : Accepted i prog args) (h : Prepared i prog args ds)
      (hexec : (exec i prog).replaced = true) (htried : x.tried = (exec i prog).tried)
      (hargv : argvOf i (opts i) prog args = some x.argv) (henvp : envpOf i = some x.envp) :
      Course i mem (.runs ds x)
  /-- The argument of `-F` or `-R` has a value that is too long for its array. -/
  | outside (s : Stage) (prog : List UInt8) (args : List (List UInt8))
      (hargs : Accepted i prog args) (hthere : There i prog args) (h : Lost i (opts i) s) :
      Course i mem .outside

/-- Nothing in the file or the directory of the variables ends in a backslash of its own. -/
def Plain (i : Input defs) : Prop := ∀ arg, (opts i).arg .env = some arg → EnvPlain i arg

section
variable {i : Input defs} {mem m : Mem} {prog : List UInt8} {args argv : List (List UInt8)}
  {ds : List Deed} {t : Env}

theorem main_eq (i : Input defs) (mem : Mem) : main i mem =
    match optionsOf (cmdline i) with
    | .ok out => afterOptions i out.1 out.2 mem
    | .stopped e => .stopped [] e
    | .outside => .outside := by
  rw [main, options_settled]
  rfl

theorem newenvExec_course (hargs : Accepted i prog args)
    (hprepared : Prepared i prog args ds) (hleft : m <:+ mem)
    (hargv : argvOf i (opts i) prog args = some argv) (hpushed : Pushed t)
    (hcalls : t.calls = varSettings i (opts i)) :
    Course i mem (newenvExec i (opts i) prog argv m t ds) := by
  rw [newenvExec]
  by_cases hgot : m.headD true = false
  · rw [if_pos hgot]
    have hmem : false ∈ mem := hleft.subset (Runargs.mem_of_headD hgot)
    exact .unrun ds _ prog args hargs hprepared (.inl hmem) rfl
  · rw [if_neg hgot]
    obtain ⟨envp, henvp⟩ :=
      NewenvInside.merge_inside (if (opts i).envMerge then i.envp else []) t.newenv
    rw [henvp, Option.elim_some]
    rw [hpushed, hcalls] at henvp
    by_cases hexec : (exec i prog).replaced = true
    · have hruns : Course i mem (.runs ds ⟨(exec i prog).tried, argv, envp⟩) :=
        .runs ds _ prog args hargs hprepared hexec rfl hargv henvp
      simp only [exec] at hexec hruns
      rw [if_pos hexec]
      exact hruns
    · have hunrun : Course i mem (.stopped ds (.unrun
          (if (opts i).arg .argfile = none then some (nameOf (opts i) prog) else none))) :=
        .unrun ds _ prog args hargs hprepared (.inr (Bool.eq_false_iff.mpr hexec)) rfl
      simp only [exec] at hexec
      rw [if_neg hexec]
      exact hunrun

theorem operate_course (hargs : Accepted i prog args)
    (hthere : There i prog args) (hleft : m <:+ mem)
    (hargv : argvOf i (opts i) prog args = some argv) (hpushed : Pushed t)
    (hcalls : t.calls = varSettings i (opts i)) :
    Course i mem (operate i (opts i) prog argv (m, t)) := by
  rw [operate]
  rcases operations_ends (i := i) (o := opts i) with
    ⟨ds, hds, hdone⟩ | ⟨s, ds, e, hds, hcut⟩ | ⟨hout, s, -, hlost⟩
  · rw [hds, List.nil_append]
    exact newenvExec_course hargs ⟨hthere, hdone⟩ hleft hargv hpushed hcalls
  · rw [hds, List.nil_append]
    exact .cut s ds e prog args hargs hthere hcut
  · rw [hout]
    exact .outside s prog args hargs hthere hlost

theorem gather_course (hargs : Accepted i prog args) (hbehind : 0 ∈ i.behind) (hplain : Plain i)
    (mem : Mem) : Course i mem (
      match gather i (opts i) prog args mem with
      | .ok g => operate i (opts i) prog g.1 g.2
      | .stopped e => .stopped [] e
      | .outside => .outside) := by
  rw [gather]
  rcases vector_cases (o := opts i) hbehind prog args mem with
    ⟨e, he, hno⟩ | ⟨m, argv, hok, hleft, hargv⟩
  · rw [he]
    exact .unread _ prog args hargs (hno.imp id fun hno h => h.1 hno) (.inl ⟨e, rfl⟩)
  · rw [hok, Res.bind]
    rcases newVars_sets hplain hbehind m with
      ⟨e, he, hno⟩ | ⟨m', t, ht, hleft', hpushed, hcalls, hthere⟩
    · simp only [he, recast, Res.bind]
      have hmissing := hno.imp (hleft.subset ·) fun hno (h : There i prog args) => hno h.2
      exact .unread _ prog args hargs hmissing (.inr ⟨e, rfl⟩)
    · simp only [ht, recast, Res.bind]
      have hfound : There i prog args := by
        refine ⟨?_, hthere⟩
        rw [hargv]
        exact Option.some_ne_none argv
      exact operate_course hargs hfound (hleft'.trans hleft) hargv hpushed hcalls

end

/-- `runtool -m077 -c/srv /bin/date`, where every call of the system succeeds -/
def dateInSrv : Input [] where
  prog := ⟨[114, 117, 110, 116, 111, 111, 108], by decide⟩
  args := [⟨[45, 109, 48, 55, 55], by decide⟩, ⟨[45, 99, 47, 115, 114, 118], by decide⟩,
    ⟨[47, 98, 105, 110, 47, 100, 97, 116, 101], by decide⟩]
  envp := [[65, 61, 49]]
  path := none
  file := fun _ => none
  kind := fun _ => none
  dir := fun _ => ⟨true, true, true, [], true, true⟩
  behind := [0]
  sys :=
    { fork := true
      setsid := true
      pidlockSet := fun _ _ _ => true
      fds := RuntoolFdset.obligingFds
      limits := RuntoolRlimit.obliging []
      chdir := fun _ => true
      chroot := fun _ => true
      root := false
      getpwnam := fun _ => none
      setgroups := fun _ => true
      setgid := fun _ => true
      setuid := fun _ => true }
  target := ⟨List.replicate 400 0, List.length_replicate⟩
  nbuf := ⟨List.replicate 40 0, List.length_replicate⟩
  execve := fun _ => none
  pathMax := 4096
  errno := 0

/-- The mask is set before the directory is changed. -/
example : main dateInSrv [] = .runs [.umask 63, .chdir [47, 115, 114, 118]]
    ⟨[[47, 98, 105, 110, 47, 100, 97, 116, 101]], [[47, 98, 105, 110, 47, 100, 97, 116, 101]],
      [[65, 61, 49]]⟩ := by decide +kernel

/-! ## Another order of the options -/

theorem leaves_reordered {os os' : List Opt} (h : Reordered os os')
    (hleaves : ∃ o ∈ os', Leaves o) : ∃ o ∈ os, Leaves o := by
  obtain ⟨o, ho, hleaves⟩ := hleaves
  exact ⟨o, h.mem ho, hleaves⟩

theorem optionsOf_reordered {p p' : List Opt × Final} (h : Reordered p.1 p'.1) (hfin : p'.2 = p.2) :
    optionsOf p' = optionsOf p := by
  have hleaves : (∃ o ∈ p'.1, Leaves o) ↔ ∃ o ∈ p.1, Leaves o :=
    ⟨leaves_reordered h, leaves_reordered fun g => (h g).symm⟩
  rw [optionsOf, optionsOf, settled_reordered h, hfin]
  simp only [hleaves]

/-- Where the options that undo each other keep their order, the order of the options makes no
difference to what is done, nor to how it ends. -/
theorem runtool_reordered (i : Input defs) (args' : List Text) (mem : Mem)
    (h : Reordered (cmdline i).1 (cmdline { i with args := args' }).1)
    (hfin : (cmdline { i with args := args' }).2 = (cmdline i).2) :
    main { i with args := args' } mem = main i mem := by
  rw [main_eq, main_eq, optionsOf_reordered h hfin]
  rfl

/-- The two options the other way round -/
theorem runtool_reordered_date :
    main { dateInSrv with args := [⟨[45, 99, 47, 115, 114, 118], by decide⟩,
      ⟨[45, 109, 48, 55, 55], by decide⟩, ⟨[47, 98, 105, 110, 47, 100, 97, 116, 101], by decide⟩] }
      [] = main dateInSrv [] := by
  have hgroups : group 109 ≠ group 99 := by decide
  have hswap : Reordered ([] ++ (109, some [48, 55, 55]) :: (99, some [47, 115, 114, 118]) :: [])
      ([] ++ (99, some [47, 115, 114, 118]) :: (109, some [48, 55, 55]) :: []) :=
    reordered_swap hgroups [] []
  apply runtool_reordered
  · exact hswap
  · decide

end

end Perp.RuntoolSequence
