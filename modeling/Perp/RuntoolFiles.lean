import Perp.Runtool

set_option autoImplicit false

/-!
# The files of runtool

The vector that an argument file makes, and the variables that are set.
-/
namespace Perp.RuntoolFiles
open CstrTrim (trimmed)
open FileLines
open IoqGetln (Mem State)
open Newenv (newenvSet)
open Refusal
open Rlimit (RlimitDef)
open RunenvDir (Source Entry Reader doEntry readEntry setVar)
open RunenvFile (Env Setting)
open Runtool

/-! ## The vector -/

section
variable {defs : List RlimitDef} {i : Input defs} {o : Opts} {prog : List UInt8}
  {args : List (List UInt8)} {mem : Mem}

/-- The vector of the manual, if the argument file can be opened -/
def argvOf (i : Input defs) (o : Opts) (prog : List UInt8) (args : List (List UInt8)) :
    Option (List (List UInt8)) :=
  (o.arg .argfile).elim (some (nameOf o prog :: args)) fun argfile =>
    (i.file argfile).map fun f =>
      let lines := Runargs.lineArgs f.text.bytes
      nameOf o prog :: if o.argInsert then args ++ lines else lines ++ args

theorem doArgfile_adds {optc argfile : List UInt8} {f : Source} {a : Runargs.Arglist}
    {xs : List (Option (List UInt8))} (hf : i.file argfile = some f) (hbehind : 0 ∈ i.behind)
    (h : Runargs.Filled a.2 xs) :
    Runargs.Adds (xs ++ (Runargs.lineArgs f.text.bytes).map some) a.1
      (doArgfile i optc argfile a) := by
  have hready := opened_ready f.text.bytes f.quiet a.1
  have hunread := opened_unread f.text.bytes f.answers a.1
  have hnul : 0 ∉ (opened f.text.bytes f.answers a.1).unread := hunread ▸ f.text.nul
  have hfuel : (opened f.text.bytes f.answers a.1).unread.length < f.text.bytes.length + 1 := by
    rw [hunread]
    exact Nat.lt_succ_self _
  have hrun := fun readErr => readLoop_comes (Runargs.lines_follow readErr) hready hnul hbehind
    hfuel h (allLines_of fun _ => trivial)
  simp only [hunread, Runargs.foldl_append, ← Runargs.lineArgs_eq] at hrun
  rw [doArgfile, hf, Option.elim_some]
  exact hrun _

theorem assemble_adds {argfile : List UInt8} {f : Source} (hf : i.file argfile = some f)
    (hbehind : 0 ∈ i.behind) (o : Opts) (name : List UInt8) (args : List (List UInt8)) (mem : Mem) :
    Runargs.Adds ((name :: if o.argInsert then args ++ Runargs.lineArgs f.text.bytes
      else Runargs.lineArgs f.text.bytes ++ args).map some ++ [none]) mem
      (assemble i o argfile name args mem) := by
  have hmade : (name :: if o.argInsert then args ++ Runargs.lineArgs f.text.bytes
      else Runargs.lineArgs f.text.bytes ++ args).map some ++ [none] =
      (([] ++ [some name] ++ (if o.argInsert then args else []).map some) ++
        (Runargs.lineArgs f.text.bytes).map some ++
        (if o.argInsert then [] else args).map some) ++ [none] := by
    cases o.argInsert <;> simp
  rw [hmade, assemble]
  apply (Runargs.arglistAdd_adds (a := (mem, _)) Runargs.filled_empty (some name)).bind
  intro a₁ h₁
  apply (Runargs.addArgs_adds _ h₁).bind
  intro a₂ h₂
  apply (doArgfile_adds hf hbehind h₂).bind
  intro a₃ h₃
  apply (Runargs.addArgs_adds _ h₃).bind
  intro a₄ h₄
  exact Runargs.arglistAdd_adds h₄ none

theorem assemble_unopened {argfile : List UInt8} (hf : i.file argfile = none) (o : Opts)
    (name : List UInt8) (args : List (List UInt8)) (mem : Mem) :
    ∃ e, assemble i o argfile name args mem = .stopped e := by
  rw [assemble]
  rcases Runargs.arglistAdd_adds (a := (mem, _)) Runargs.filled_empty (some name) with
    ⟨e, he, -⟩ | ⟨a₁, ha₁, -, h₁⟩
  · exact ⟨e, by rw [he]; rfl⟩
  · rw [ha₁, Res.bind]
    rcases Runargs.addArgs_adds (a := a₁) (if o.argInsert then args else []) h₁ with
      ⟨e, he, -⟩ | ⟨a₂, ha₂, -⟩
    · exact ⟨e, by rw [he]; rfl⟩
    · rw [ha₂, Res.bind, doArgfile, hf]
      exact ⟨_, rfl⟩

/-- It is the vector of the manual; or the file cannot be opened, or there is no memory. -/
theorem vector_cases (hbehind : 0 ∈ i.behind) (prog : List UInt8) (args : List (List UInt8))
    (mem : Mem) :
    (∃ e, vector i o prog args mem = .stopped (.args e) ∧
      (false ∈ mem ∨ argvOf i o prog args = none)) ∨
      ∃ m argv, vector i o prog args mem = .ok (m, argv) ∧ m <:+ mem ∧
        argvOf i o prog args = some argv := by
  rw [vector, argvOf]
  cases o.arg .argfile with
  | none => exact .inr ⟨mem, _, rfl, List.suffix_rfl, rfl⟩
  | some argfile =>
    rw [Option.elim_some, Option.elim_some]
    cases hf : i.file argfile with
    | none =>
      obtain ⟨e, he⟩ := assemble_unopened hf o (nameOf o prog) args mem
      exact .inl ⟨e, by rw [he]; rfl, .inr rfl⟩
    | some f =>
      rcases assemble_adds hf hbehind o (nameOf o prog) args mem with
        ⟨e, he, -, hmem⟩ | ⟨a, ha, hleft, hfilled⟩
      · exact .inl ⟨e, by rw [he]; rfl, .inl hmem⟩
      · have hvector := Runargs.Filled.vector hfilled
        refine .inr ⟨a.1, _, ?_, hleft, rfl⟩
        rw [ha, recast, Res.bind]
        simp only [id_eq] at hvector
        rw [hvector]
        rfl

end

/-! ## The variables -/

/-- The string of a variable; one that is to be removed has no value. -/
def varStr (c : Setting) : List UInt8 := c.key ++ c.val.elim [] (61 :: ·)

/-- The strings are those of the calls that have a name. -/
def Pushed (t : Env) : Prop := t.newenv = (t.calls.filter (·.key ≠ [])).map varStr

section
variable {mem m : Mem} {t t' : Env} {c : Setting}

theorem pushed_nil : Pushed ⟨[], []⟩ := rfl

theorem setVar_ok (h : setVar mem t c = .ok (m, t')) (ht : Pushed t) :
    Pushed t' ∧ t'.calls = t.calls ++ [c] := by
  rw [setVar] at h
  by_cases hset : (newenvSet (mem.headD true) t.newenv c.key c.val).1 = -1
  · simp only [if_pos hset] at h
    cases h
  · simp only [if_neg hset] at h
    cases h
    refine ⟨?_, rfl⟩
    change (newenvSet (mem.headD true) t.newenv c.key c.val).2 =
      ((t.calls ++ [c]).filter (·.key ≠ [])).map varStr
    by_cases hkey : c.key = []
    · have hsame : (newenvSet (mem.headD true) t.newenv c.key c.val).2 = t.newenv := by
        rw [newenvSet, if_pos hkey]
      rw [hsame, ht, List.filter_append, List.filter_cons_of_neg (by simp [hkey]), List.filter_nil,
        List.append_nil]
    · have hgot : mem.headD true = true := by
        by_contra hno
        apply hset
        rw [newenvSet, if_neg hkey, if_neg hno]
      have hpush : (newenvSet (mem.headD true) t.newenv c.key c.val).2 =
          t.newenv ++ [varStr c] := by
        rw [newenvSet, if_neg hkey, if_pos hgot]
        rfl
      rw [hpush, ht, List.filter_append, List.filter_cons_of_pos (by simp [hkey]), List.filter_nil,
        List.map_append]
      rfl

theorem doLine_eq (b : List UInt8) (mem : Mem) (t : Env) : RunenvFile.doLine b mem t =
    Res.reading (RunenvFile.parseLine b) fun out =>
      out.2.elim (.ok (out.1, mem, t)) fun c =>
        (setVar mem t c).bind fun x => .ok (out.1, x.1, x.2) := by
  rw [RunenvFile.doLine]
  congr 1
  funext out
  congr 1
  funext c
  rw [setVar]
  by_cases hset : (newenvSet (mem.headD true) t.newenv c.key c.val).1 = -1
  · simp only [if_pos hset]
    rfl
  · simp only [if_neg hset]
    rfl

theorem doLine_pushed {b : List UInt8} {done : List UInt8 × Mem × Env} (ht : Pushed t)
    (h : RunenvFile.doLine b mem t = .ok done) : Pushed done.2.2 := by
  rw [doLine_eq] at h
  cases hparse : RunenvFile.parseLine b with
  | none =>
    rw [hparse] at h
    cases h
  | some out =>
    rw [hparse, Res.reading, Option.elim_some] at h
    cases hc : out.2 with
    | none =>
      rw [hc] at h
      cases h
      exact ht
    | some c =>
      rw [hc, Option.elim_some] at h
      cases hset : setVar mem t c with
      | ok x =>
        rw [hset] at h
        cases h
        exact (setVar_ok hset ht).1
      | stopped e =>
        rw [hset] at h
        cases h
      | outside =>
        rw [hset] at h
        cases h

theorem doEntry_pushed {behind : List UInt8} {M : RunenvDir.Mesgs} {x x' : Reader} {e : Entry}
    (h : doEntry behind M x e = .ok x') (ht : Pushed x.env) : Pushed x'.env := by
  rw [doEntry] at h
  split at h
  · cases h
    exact ht
  · cases hf : e.file with
    | none =>
      rw [hf] at h
      cases h
    | some f =>
      rw [hf, Option.elim_some, readEntry] at h
      obtain ⟨L, -, h⟩ := Res.reading_ok h
      obtain ⟨out, -, h⟩ := Res.reading_ok h
      split at h
      · cases h
      · obtain ⟨line, -, h⟩ := Res.reading_ok h
        obtain ⟨set, hset, h⟩ := Res.bind_ok h
        cases h
        exact (setVar_ok hset ht).1

theorem fold_pushed {behind : List UInt8} {M : RunenvDir.Mesgs} {es : List Entry} {x x' : Reader}
    (h : Res.fold (doEntry behind M) es x = .ok x') (ht : Pushed x.env) : Pushed x'.env := by
  induction es generalizing x with
  | nil =>
    cases h
    exact ht
  | cons e es ih =>
    obtain ⟨x₁, hx₁, h⟩ := Res.bind_ok h
    exact ih h (doEntry_pushed hx₁ ht)

theorem doEnvdir_pushed {behind : List UInt8} {d : RunenvDir.Dir} {optc arg : List UInt8}
    (h : RunenvDir.runtoolDoEnvdir behind d optc arg mem = .ok (m, t)) : Pushed t := by
  rw [RunenvDir.runtoolDoEnvdir, RunenvDir.doEnvdir] at h
  split at h
  · cases h
  · split at h
    · cases h
    · split at h
      · cases h
      · obtain ⟨x, hx, h⟩ := Res.bind_ok h
        have hpushed := fold_pushed hx pushed_nil
        split at h
        · cases h
        · split at h
          · cases h
          · cases h
            exact hpushed

/-- Where no value ends in a backslash of its own, all lines are plain. -/
theorem allLines_plain {behind : List UInt8} {fuel : ℕ} {s : State} (hs : Ready s)
    (hnul : 0 ∉ s.unread) (hbehind : 0 ∈ behind)
    (h : ∀ l ∈ s.unread.splitOn 10, ¬ ValUnescape.Dangling (RunenvFile.valueOf (trimmed l))) :
    AllLines behind RunenvFile.doLine RunenvFile.Plain fuel s t := by
  induction fuel generalizing s t with
  | zero => trivial
  | succ fuel ih =>
    obtain ⟨S, r, s', hclear, hcall, hnext⟩ := next_turn hs hnul hbehind
    rw [allLines_turn hclear hcall]
    intro hgot hmore
    cases hnext with
    | denied _ hmem => exact absurd rfl hgot
    | done _ hunread hmem hend => exact absurd ⟨rfl, hend⟩ hmore
    | line l rest stale _ hunread hl hready hrest hmem hheld =>
      obtain ⟨hlnul, hrnul⟩ := line_nul hunread hnul
      rw [hunread, List.splitOn_append_cons_self_of_not_mem hl] at h
      have hplain : RunenvFile.Plain (l ++ [10] ++ 0 :: stale) := by
        rw [RunenvFile.plain_line hlnul, RunlimitFile.trimmed_newline]
        exact fun _ _ => .inl (h l List.mem_cons_self)
      simp only [hheld]
      refine ⟨hplain, fun done hok _ => ?_⟩
      have hsize := (RunenvFile.lines_follow .dieUsage).size _ _ _ _ _ hlnul hplain hok
      rw [← hheld] at hsize
      apply ih (putBack_ready hready hsize done.2.1)
      · rw [← hrest] at hrnul
        exact hrnul
      · rw [← hrest] at h
        exact fun l hl => h l (List.mem_cons_of_mem _ hl)
    | last stale _ hunread hl hmore' hmem hheld =>
      rw [List.splitOn_eq_singleton hl] at h
      simp only [hheld]
      refine ⟨?_, fun done _ hno => absurd rfl hno⟩
      rw [RunenvFile.plain_line hnul]
      exact fun _ _ => .inl (h s.unread List.mem_cons_self)

end

section
variable {defs : List RlimitDef} {i : Input defs} {o : Opts} {mem m : Mem} {t : Env}

/-- The variables come to these calls of `newenv_set()`; or there is no memory, or something else
is missing. -/
def Sets (calls : List Setting) (mem : Mem) (there : Prop)
    (r : Res RunenvFile.Stop (Mem × Env)) : Prop :=
  (∃ e, r = .stopped e ∧ (false ∈ mem ∨ ¬ there)) ∨
    ∃ m t, r = .ok (m, t) ∧ m <:+ mem ∧ Pushed t ∧ t.calls = calls ∧ there

theorem Sets.bind {calls calls' : List Setting} {there there' : Prop}
    {r : Res RunenvFile.Stop (Mem × Env)} {next : Mem × Env → Res RunenvFile.Stop (Mem × Env)}
    (h : Sets calls mem there r)
    (hnext : ∀ m t, Pushed t → t.calls = calls → Sets calls' m there' (next (m, t))) :
    Sets calls' mem (there ∧ there') (r.bind next) := by
  rcases h with ⟨e, rfl, hno⟩ | ⟨m, t, rfl, hleft, hpushed, hcalls, hthere⟩
  · exact .inl ⟨e, rfl, hno.imp id fun hno h => hno h.1⟩
  · rcases hnext m t hpushed hcalls with
      ⟨e, he, hno⟩ | ⟨m', t', ht', hleft', hpushed', hcalls', hthere'⟩
    · exact .inl ⟨e, he, hno.imp (hleft.subset ·) fun hno h => hno h.2⟩
    · exact .inr ⟨m', t', ht', hleft'.trans hleft, hpushed', hcalls', hthere, hthere'⟩

theorem setVar_sets (ht : Pushed t) {c : Setting} (hkey : c.key ≠ []) :
    Sets (t.calls ++ [c]) mem True (setVar mem t c) := by
  rcases RunenvDir.setVar_cases mem t hkey with ⟨e, he, -, hmem⟩ | ⟨m, t', hok, hleft, hcalls⟩
  · exact .inl ⟨e, he, .inl hmem⟩
  · exact .inr ⟨m, t', hok, hleft, (setVar_ok hok ht).1, hcalls, trivial⟩

/-- No value ends in a backslash of its own. -/
def LinesPlain (f : Source) : Prop :=
  ∀ l ∈ f.text.bytes.splitOn 10, ¬ ValUnescape.Dangling (RunenvFile.valueOf (trimmed l))

theorem doEnvfile_sets {optc arg : List UInt8} (hplain : ∀ f, i.file arg = some f → LinesPlain f)
    (hbehind : 0 ∈ i.behind) (mem : Mem) :
    Sets ((i.file arg).elim [] fun f => RunenvFile.reference f.text.bytes) mem (i.file arg ≠ none)
      (doEnvfile i optc arg mem) := by
  rw [doEnvfile]
  cases hf : i.file arg with
  | none => exact .inl ⟨_, rfl, .inr fun h => h rfl⟩
  | some f =>
    rw [Option.elim_some, Option.elim_some]
    have hready := opened_ready f.text.bytes f.quiet mem
    have hunread := opened_unread f.text.bytes f.answers mem
    have hnul : 0 ∉ (opened f.text.bytes f.answers mem).unread := hunread ▸ f.text.nul
    have hfuel : (opened f.text.bytes f.answers mem).unread.length < f.text.bytes.length + 1 := by
      rw [hunread]
      exact Nat.lt_succ_self _
    have hrun := fun mesg => readLoop_comes (t := (⟨[], []⟩ : Env)) (b := [])
      (RunenvFile.lines_follow mesg) hready hnul hbehind hfuel rfl
      (allLines_plain hready hnul hbehind (hunread.symm ▸ hplain f hf))
    simp only [hunread, RunenvFile.foldl_settings, List.nil_append] at hrun
    rcases hrun _ with ⟨e, he, -, hmem⟩ | ⟨⟨m, t⟩, hok, hleft, hcalls⟩
    · exact .inl ⟨e, he, .inl hmem⟩
    · refine .inr ⟨m, t, hok, hleft, ?_, hcalls, Option.some_ne_none f⟩
      -- the strings follow the calls on every line
      exact (readLoop_keeps (I := Pushed) (J := fun _ : RunenvFile.Stop => True)
        (fun _ _ => trivial) (fun _ _ _ _ _ _ => trivial)
        (fun _ _ _ _ ht hdone => doLine_pushed ht hdone) pushed_nil).2 _ hok

/-- The calls for the file or the directory of `-e` or `-E` -/
def envSettings (i : Input defs) (arg : List UInt8) : List Setting :=
  match i.kind arg with
  | some .file => (i.file arg).elim [] fun f => RunenvFile.reference f.text.bytes
  | some .dir => RunenvDir.settings (i.dir arg)
  | _ => []

/-- It can be read. -/
def EnvThere (i : Input defs) (arg : List UInt8) : Prop :=
  match i.kind arg with
  | some .file => i.file arg ≠ none
  | some .dir => (i.dir arg).Readable
  | _ => False

/-- Nothing in it ends in a backslash of its own. -/
def EnvPlain (i : Input defs) (arg : List UInt8) : Prop :=
  match i.kind arg with
  | some .file => ∀ f, i.file arg = some f → LinesPlain f
  | some .dir => ∀ e ∈ (i.dir arg).entries, e.Plain
  | _ => True

theorem doEnv_sets {optc arg : List UInt8} (hplain : EnvPlain i arg) (hbehind : 0 ∈ i.behind)
    (mem : Mem) : Sets (envSettings i arg) mem (EnvThere i arg) (doEnv i optc arg mem) := by
  rw [EnvPlain] at hplain
  rw [doEnv, envSettings, EnvThere]
  cases hk : i.kind arg with
  | none => exact .inl ⟨_, rfl, .inr id⟩
  | some k =>
    rw [hk] at hplain
    cases k with
    | file => exact doEnvfile_sets hplain hbehind mem
    | dir =>
      rcases RunenvDir.doEnvdir_reads (RunenvDir.runtoolMesgs optc arg) mem hbehind hplain with
        ⟨e, he, -, hno⟩ | ⟨m, t, hok, hleft, hcalls, hthere⟩
      · exact .inl ⟨e, he, hno⟩
      · exact .inr ⟨m, t, hok, hleft, doEnvdir_pushed hok, hcalls, hthere⟩
    | other => exact .inl ⟨_, rfl, .inr id⟩

/-- The calls for the user of `-U` -/
def uidSettings (i : Input defs) (user : List UInt8) : List Setting :=
  (i.sys.getpwnam user).elim [] fun pw => [gidVar pw, uidVar pw]

theorem doEnvuid_sets (ht : Pushed t) (user : List UInt8) (mem : Mem) :
    Sets (t.calls ++ uidSettings i user) mem (i.sys.getpwnam user ≠ none)
      (doEnvuid i user (mem, t)) := by
  rw [doEnvuid, uidSettings]
  cases hpw : i.sys.getpwnam user with
  | none => exact .inl ⟨_, rfl, .inr fun h => h rfl⟩
  | some pw =>
    have hboth : Sets (t.calls ++ [gidVar pw, uidVar pw]) mem (True ∧ True)
        ((setVar mem t (gidVar pw)).bind fun x => setVar x.1 x.2 (uidVar pw)) := by
      apply (setVar_sets ht (List.cons_ne_nil _ _)).bind
      intro m t' ht' hcalls
      have hlast : Sets (t'.calls ++ [uidVar pw]) m True (setVar m t' (uidVar pw)) :=
        setVar_sets ht' (List.cons_ne_nil _ _)
      rw [hcalls, List.append_assoc] at hlast
      exact hlast
    rcases hboth with ⟨e, he, hno⟩ | ⟨m, t', hok, hleft, hpushed, hcalls, -⟩
    · exact .inl ⟨e, he, hno.imp id fun hno => absurd ⟨trivial, trivial⟩ hno⟩
    · exact .inr ⟨m, t', hok, hleft, hpushed, hcalls, Option.some_ne_none pw⟩

/-- The calls for both -/
def varSettings (i : Input defs) (o : Opts) : List Setting :=
  (o.arg .env).elim [] (envSettings i) ++ (o.arg .envuid).elim [] (uidSettings i)

/-- What the variables are taken from is there. -/
def VarsThere (i : Input defs) (o : Opts) : Prop :=
  (∀ arg, o.arg .env = some arg → EnvThere i arg) ∧
    ∀ user, o.arg .envuid = some user → i.sys.getpwnam user ≠ none

theorem newVars_sets (hplain : ∀ arg, o.arg .env = some arg → EnvPlain i arg)
    (hbehind : 0 ∈ i.behind) (mem : Mem) :
    Sets (varSettings i o) mem (VarsThere i o) (newVars i o mem) := by
  rw [newVars, varSettings, VarsThere]
  have hfirst : Sets ((o.arg .env).elim [] (envSettings i)) mem
      (∀ arg, o.arg .env = some arg → EnvThere i arg)
      ((o.arg .env).elim (.ok (mem, ⟨[], []⟩)) fun arg =>
        doEnv i [if o.envMerge then 101 else 69] arg mem) := by
    cases harg : o.arg .env with
    | none =>
      refine .inr ⟨mem, ⟨[], []⟩, rfl, List.suffix_rfl, pushed_nil, rfl, ?_⟩
      intro arg harg
      cases harg
    | some arg =>
      simp only [Option.some.injEq, forall_eq']
      exact doEnv_sets (hplain arg harg) hbehind mem
  apply hfirst.bind
  intro m t ht hcalls
  cases huser : o.arg .envuid with
  | none =>
    refine .inr ⟨m, t, rfl, List.suffix_rfl, ht, ?_, ?_⟩
    · rw [Option.elim_none, List.append_nil]
      exact hcalls
    · intro user huser
      cases huser
  | some user =>
    have hsets := doEnvuid_sets (i := i) ht user m
    rw [hcalls] at hsets
    simp only [Option.some.injEq, forall_eq']
    exact hsets

end

end Perp.RuntoolFiles
