import Perp.RunenvFile

set_option autoImplicit false

/-!
# The environment directory

`do_envdir()` of `runenv` and of `runtool`: each file of a directory sets the variable of its
name to its first line. One string is used for all the lines.
-/
namespace Perp.RunenvDir
open Cstr (Text)
open CstrTrim
open FileLines
open IoqGet (ReadAns)
open IoqGetln (Mem Dynstr State Built)
open Newenv (newenvSet)
open Refusal
open RunenvFile (Env Setting Stop newenvSet_eq value_cases)
open Runlimit (Piece)
open RunlimitFile (text not_mem_trimmed trimmed_newline)
open ValUnescape

/-! ## The function -/

/-- What is in a file, and how it will be read -/
structure Source where
  text : Text
  answers : List ReadAns
  quiet : .error ∉ answers

/-- What `readdir()` gives, and the file if it can be opened -/
structure Entry where
  name : Text
  ne : name.bytes ≠ []
  file : Option Source

/-- Whether the calls around the loop succeed, and what `readdir()` gives in it -/
structure Dir where
  here : Bool
  chdir : Bool
  opendir : Bool
  entries : List Entry
  whole : Bool
  fchdir : Bool

/-- The messages of `fatal_syserr()`; those about a file take its name. -/
structure Mesgs where
  here : List Piece
  chdir : List Piece
  opendir : List Piece
  open_ : List UInt8 → List Piece
  read : List UInt8 → List Piece
  readdir : List Piece
  fchdir : List Piece

/-- Those of `runenv` -/
def runenvMesgs (envdir : List UInt8) : Mesgs where
  here := [.text "unable to open current directory"]
  chdir := [.text "unable to chdir to ", .str envdir]
  opendir := [.text "unable to open directory ", .str envdir]
  open_ name := [.text "unable to open ", .str envdir, .text "/", .str name]
  read name := [.text "unable to read ", .str envdir, .text "/", .str name]
  readdir := [.text "unable to read directory ", .str envdir]
  fchdir := [.text "failure changing to original directory"]

def optionOf (optc arg : List UInt8) : List Piece :=
  [.text "(option -", .str optc, .text " ", .str arg, .text ")"]

/-- Those of `runtool` -/
def runtoolMesgs (optc arg : List UInt8) : Mesgs where
  here := .text "unable to open current directory " :: optionOf optc arg
  chdir := .text "unable to chdir " :: optionOf optc arg
  opendir := .text "unable to open directory " :: optionOf optc arg
  open_ name :=
    [.text "unable to open ", .str arg, .text "/", .str name, .text " "] ++ optionOf optc arg
  read name :=
    [.text "unable to read ", .str arg, .text "/", .str name, .text " "] ++ optionOf optc arg
  readdir := .text "unable to read directory " :: optionOf optc arg
  fchdir := .text "failure changing to original directory " :: optionOf optc arg

/-- The answers of `malloc()` that are left, the string, and the calls that have been made -/
structure Reader where
  mem : Mem
  L : Dynstr
  env : Env

def setVar (mem : Mem) (t : Env) (c : Setting) : Res Stop (Mem × Env) :=
  let set := newenvSet (mem.headD true) t.newenv c.key c.val
  let t : Env := ⟨t.calls ++ [c], set.2⟩
  if set.1 = -1 then .stopped ⟨.syserr [.text "failure allocating new environment"], t.calls⟩
  else .ok (mem.tail, t)

/-- The work on the line in its memory, and the value it comes to -/
def lineValue (L : Dynstr) : Option (Dynstr × Option (List UInt8)) :=
  if L.s = none then some (L, none)
  else
    (cstrTrim (held L)).bind fun b =>
      (runenvValUnescape b).bind fun b =>
        b.head?.map fun c => (putBack L b, if c = 0 then none else some (text b))

def Entry.isDot (e : Entry) : Prop := e.name.bytes.head? = some 46

instance (e : Entry) : Decidable e.isDot := inferInstanceAs (Decidable (_ = _))

def readEntry (behind name : List UInt8) (unread : Stop) (f : Source) (x : Reader) :
    Res Stop Reader :=
  Res.reading (dynstrClear x.L) fun L =>
    Res.reading (ioqGetln behind (f.text.bytes.length + 1)
        { opened f.text.bytes f.answers x.mem with S := L }) fun out =>
      if out.1 = -1 then .stopped unread
      else
        Res.reading (lineValue out.2.S) fun line =>
          (setVar out.2.mem x.env ⟨name, line.2⟩).bind fun set => .ok ⟨set.1, line.1, set.2⟩

/-- A turn of the loop -/
def doEntry (behind : List UInt8) (M : Mesgs) (x : Reader) (e : Entry) : Res Stop Reader :=
  let name := e.name.bytes
  if e.isDot then .ok x
  else
    e.file.elim (.stopped ⟨.syserr (M.open_ name), x.env.calls⟩) fun f =>
      readEntry behind name ⟨.syserr (M.read name), x.env.calls⟩ f x

def doEnvdir (behind : List UInt8) (d : Dir) (M : Mesgs) (mem : Mem) : Res Stop (Mem × Env) :=
  if d.here = false then .stopped ⟨.syserr M.here, []⟩
  else if d.chdir = false then .stopped ⟨.syserr M.chdir, []⟩
  else if d.opendir = false then .stopped ⟨.syserr M.opendir, []⟩
  else
    (Res.fold (doEntry behind M) d.entries ⟨mem, ⟨none, 0, 0⟩, ⟨[], []⟩⟩).bind fun x =>
      if d.whole = false then .stopped ⟨.syserr M.readdir, x.env.calls⟩
      else if d.fchdir = false then .stopped ⟨.syserr M.fchdir, x.env.calls⟩
      else .ok (x.mem, x.env)

def runenvDoEnvdir (behind : List UInt8) (d : Dir) (envdir : List UInt8) :
    Mem → Res Stop (Mem × Env) := doEnvdir behind d (runenvMesgs envdir)

def runtoolDoEnvdir (behind : List UInt8) (d : Dir) (optc arg : List UInt8) :
    Mem → Res Stop (Mem × Env) := doEnvdir behind d (runtoolMesgs optc arg)

/-! ## What it is for -/

/-- A file is read up to its first newline. -/
def firstLine (s : List UInt8) : List UInt8 := s.takeWhile (· ≠ 10)

/-- An empty value is none. -/
def valueOf (s : List UInt8) : Option (List UInt8) :=
  if trimmed (firstLine s) = [] then none else some (translate (trimmed (firstLine s)))

def Entry.setting (e : Entry) : Option Setting :=
  if e.isDot then none else e.file.map fun f => ⟨e.name.bytes, valueOf f.text.bytes⟩

/-- The calls that a directory is to make -/
def settings (d : Dir) : List Setting := d.entries.filterMap Entry.setting

/-- The line as it is read, with its newline if there is one -/
def lineRead (s : List UInt8) : List UInt8 := firstLine s ++ if 10 ∈ s then [10] else []

/-- The first line does not end in a backslash of its own when it is trimmed, or what trimming
leaves behind it begins with a NUL. -/
def Source.Plain (f : Source) : Prop :=
  ¬ Dangling (trimmed (firstLine f.text.bytes)) ∨
    (trimBehind (lineRead f.text.bytes)).head? = some 0

def Entry.Missing (e : Entry) : Prop := ¬ e.isDot ∧ e.file = none

/-- One of the calls on the directory or its files fails. -/
structure Dir.Readable (d : Dir) : Prop where
  here : d.here = true
  chdir : d.chdir = true
  opendir : d.opendir = true
  files : ∀ e ∈ d.entries, ¬ e.Missing
  whole : d.whole = true
  fchdir : d.fchdir = true

/-! ## A line -/

variable {l stale behind name : List UInt8} {M : Mesgs} {L : Dynstr} {mem : Mem} {t : Env}

theorem text_nil (h : 0 ∉ l) {b : List UInt8} (hb : b ≠ []) (htext : text b = l) :
    ∃ c, b.head? = some c ∧ (c = 0 ↔ l = []) := by
  subst htext
  obtain ⟨c, rest, rfl⟩ := List.exists_cons_of_ne_nil hb
  refine ⟨c, rfl, ?_⟩
  rw [text]
  by_cases hc : c = 0
  · rw [List.takeWhile_cons_of_neg (by simp [hc])]
    exact iff_of_true hc rfl
  · rw [List.takeWhile_cons_of_pos (by simp [hc])]
    exact iff_of_false hc (List.cons_ne_nil _ _)

theorem translate_nil (s : List UInt8) : translate s = [] ↔ s = [] := by
  cases s with
  | nil => exact iff_of_true rfl rfl
  | cons c s =>
    refine iff_of_false ?_ (List.cons_ne_nil c s)
    cases s with
    | nil => exact List.cons_ne_nil c []
    | cons d s =>
      rw [ValUnescape.translate]
      split
      · obtain ⟨z, rest, hz, -⟩ := escaped_head d
        rw [hz]
        exact List.cons_ne_nil z _
      · exact List.cons_ne_nil c _

theorem lineValue_eq (hL : Built L) (hs : L.s ≠ none) (hl : 0 ∉ l)
    (hheld : held L = l ++ 0 :: stale)
    (hplain : ¬ Dangling (trimmed l) ∨ (trimBehind l).head? = some 0) :
    ∃ L', lineValue L = some (L', if trimmed l = [] then none else some (translate (trimmed l))) ∧
      Built L' := by
  have hnul := not_mem_trimmed hl
  have hhead : ¬ Dangling (trimmed l) ∨ (trimBehind l ++ stale).head? = some 0 := by
    refine hplain.imp id fun h => ?_
    rw [List.head?_append, h]
    rfl
  rcases value_cases hnul (trimBehind l ++ stale) with ⟨b, hb, hlen, htext, -⟩ | ⟨-, hdangling, hno⟩
  · have hvalue := htext.mpr hhead
    have hne : b ≠ [] := by
      rintro rfl
      simp at hlen
    obtain ⟨c, hc, hzero⟩ := text_nil (not_mem_translate hnul) hne hvalue
    refine ⟨putBack L b, ?_, putBack_built hL ?_⟩
    · rw [lineValue, if_neg hs, hheld, trim_exact hl, Option.bind_some, runenvValUnescape, hb,
        Option.bind_some, hc, Option.map_some, hvalue]
      by_cases hempty : trimmed l = []
      · rw [if_pos hempty, if_pos (hzero.mpr ((translate_nil _).mpr hempty))]
      · rw [if_neg hempty, if_neg fun h => hempty ((translate_nil _).mp (hzero.mp h))]
    · have htrim := trimBehind_length l
      rw [hlen, hheld]
      simp only [List.length_append, List.length_cons]
      omega
  · exact absurd (RunenvFile.ends_of_head (hhead.resolve_left fun h => h hdangling)) hno

/-! ## A file -/

/-- The string after a call of `ioq_getln()` for the first line -/
theorem getln_first (hL : Built L) (f : Source) (hbehind : 0 ∈ behind) (mem : Mem) :
    ∃ S, dynstrClear L = some S ∧ ∃ r s, ioqGetln behind (f.text.bytes.length + 1)
        { opened f.text.bytes f.answers mem with S := S } = some (r, s) ∧
      (r = -1 ∧ false ∈ mem ∨ r ≠ -1 ∧ s.mem <:+ mem ∧ Built s.S ∧
        (f.text.bytes = [] ∧ s.S.s = none ∨ s.S.s ≠ none ∧
          ∃ stale, held s.S = lineRead f.text.bytes ++ 0 :: stale)) := by
  obtain ⟨S, hclear, hbuilt, hn, hended⟩ := clear_eq hL
  have hopened := opened_ready f.text.bytes f.quiet mem
  have hready : Ready { opened f.text.bytes f.answers mem with S := S } :=
    ⟨⟨hopened.sound.valid, hopened.sound.small, hbuilt⟩, hopened.quiet⟩
  have hunread :
      ({ opened f.text.bytes f.answers mem with S := S } : State).unread = f.text.bytes :=
    opened_unread f.text.bytes f.answers mem
  have hempty : IoqGetln.contents S = [] := contents_nil hn
  obtain ⟨r, s, hcall, hrun⟩ :=
    getln_call hready (hunread ▸ f.text.nul) hbehind (Nat.lt_succ_self _)
  rw [hunread] at hcall
  refine ⟨S, hclear, r, s, hcall, ?_⟩
  have hsome {S : Dynstr} (h : Ended S) : S.s ≠ none := by
    obtain ⟨cells, hcells, -⟩ := h
    rw [hcells]
    exact Option.some_ne_none cells
  cases hrun with
  | denied _ hmem => exact .inl ⟨rfl, hmem⟩
  | line l rest _ hs hl htook =>
    have hcontents := htook.contents
    rw [hempty, List.nil_append] at hcontents
    have hend := htook.ended.resolve_left fun hnil => by simp at hnil
    obtain ⟨stale, hheld⟩ := held_line hcontents hend
    refine .inr ⟨by decide, htook.mem, htook.ready.sound.built, .inr ⟨hsome hend, stale, ?_⟩⟩
    have hfirst : firstLine f.text.bytes = l := by
      rw [firstLine, ← hunread, hs, List.takeWhile_append_of_pos, List.takeWhile_cons_of_neg,
        List.append_nil]
      · simp
      · intro c hc
        have hne : c ≠ 10 := fun h => hl (h ▸ hc)
        simp [hne]
    have hmem : 10 ∈ f.text.bytes := by
      rw [← hunread, hs]
      exact List.mem_append_right l List.mem_cons_self
    rw [hheld, lineRead, hfirst, if_pos hmem]
  | last _ hs htook =>
    have hcontents := htook.contents
    rw [hempty, List.nil_append, hunread] at hcontents
    rw [hunread] at hs
    refine .inr ⟨by decide, htook.mem, htook.ready.sound.built, ?_⟩
    have hread : lineRead f.text.bytes = f.text.bytes := by
      rw [lineRead, if_neg hs, List.append_nil, firstLine, List.takeWhile_eq_self_iff]
      intro c hc
      have hne : c ≠ 10 := fun h => hs (h ▸ hc)
      simp [hne]
    rw [hread]
    rcases htook.ended with ⟨hnil, hsame⟩ | hend
    · rw [hunread] at hnil
      have hS : s.S = S := hsame
      rcases hended with hnone | hend
      · exact .inl ⟨hnil, by rw [hS]; exact hnone⟩
      · rw [← hS] at hend
        exact .inr ⟨hsome hend, held_line hcontents hend⟩
    · exact .inr ⟨hsome hend, held_line hcontents hend⟩

theorem trimmed_read (s : List UInt8) : trimmed (lineRead s) = trimmed (firstLine s) := by
  rw [lineRead]
  by_cases h : 10 ∈ s
  · rw [if_pos h, trimmed_newline]
  · rw [if_neg h, List.append_nil]

theorem setVar_cases (mem : Mem) (t : Env) {c : Setting} (hkey : c.key ≠ []) :
    (∃ e, setVar mem t c = .stopped e ∧ e.calls = t.calls ++ [c] ∧ false ∈ mem) ∨
      ∃ m t', setVar mem t c = .ok (m, t') ∧ m <:+ mem ∧ t'.calls = t.calls ++ [c] := by
  rw [setVar]
  have hset := newenvSet_eq (mem.headD true) t.newenv c.val hkey
  by_cases hgot : mem.headD true = false
  · rw [if_pos (hset.mpr hgot)]
    refine .inl ⟨_, rfl, rfl, ?_⟩
    rw [IoqGetln.headD_false hgot]
    exact List.mem_cons_self
  · rw [if_neg fun h => hgot (hset.mp h)]
    exact .inr ⟨_, _, rfl, List.tail_suffix mem, rfl⟩

/-- A turn comes to these calls: it fails for want of memory, or for want of the file; or it has
made them. -/
def Turns (mem : Mem) (calls : List Setting) (missing : Prop) (r : Res Stop Reader) : Prop :=
  (∃ e, r = .stopped e ∧ e.calls <+: calls ∧ (false ∈ mem ∨ missing)) ∨
    ∃ x, r = .ok x ∧ x.mem <:+ mem ∧ Built x.L ∧ x.env.calls = calls ∧ ¬ missing

variable {x : Reader}

theorem readEntry_turns (hL : Built x.L) (f : Source) (hbehind : 0 ∈ behind) (hplain : f.Plain)
    (hname : name ≠ []) (unread : Stop) (hunread : unread.calls = x.env.calls) :
    Turns x.mem (x.env.calls ++ [⟨name, valueOf f.text.bytes⟩]) False
      (readEntry behind name unread f x) := by
  obtain ⟨S, hclear, r, s, hcall, hrun⟩ := getln_first hL f hbehind x.mem
  rw [readEntry, hclear, Res.reading, Option.elim_some, hcall, Res.reading, Option.elim_some]
  rcases hrun with ⟨rfl, hmem⟩ | ⟨hgot, hmem, hbuilt, hline⟩
  · rw [if_pos rfl]
    exact .inl ⟨unread, rfl, hunread ▸ List.prefix_append _ _, .inl hmem⟩
  · rw [if_neg hgot]
    have hvalue : ∃ L', lineValue s.S = some (L', valueOf f.text.bytes) ∧ Built L' := by
      rcases hline with ⟨hnil, hnone⟩ | ⟨hs, stale, hheld⟩
      · have hempty : valueOf f.text.bytes = none := by
          rw [hnil]
          decide
        exact ⟨s.S, by rw [lineValue, if_pos hnone, hempty], hbuilt⟩
      · have hread : 0 ∉ lineRead f.text.bytes := by
          have hfirst : 0 ∉ firstLine f.text.bytes := fun h =>
            f.text.nul ((List.takeWhile_prefix _).subset h)
          rw [lineRead, List.mem_append, not_or]
          exact ⟨hfirst, by split <;> simp⟩
        rw [valueOf, ← trimmed_read]
        exact lineValue_eq hbuilt hs hread hheld (by rw [trimmed_read]; exact hplain)
    obtain ⟨L', hL', hbuilt'⟩ := hvalue
    rw [hL', Res.reading, Option.elim_some]
    rcases setVar_cases s.mem x.env (c := ⟨name, valueOf f.text.bytes⟩) hname with
      ⟨e, he, hcalls, hno⟩ | ⟨m, t', hset, hleft, hcalls⟩
    · rw [he]
      exact .inl ⟨e, rfl, hcalls ▸ List.prefix_rfl, .inl (hmem.subset hno)⟩
    · rw [hset]
      exact .inr ⟨_, rfl, hleft.trans hmem, hbuilt', hcalls, id⟩

/-- An entry can be treated: its file, if it is opened, is plain. -/
def Entry.Plain (e : Entry) : Prop := ¬ e.isDot → ∀ f, e.file = some f → f.Plain

theorem doEntry_turns (hL : Built x.L) (e : Entry) (hbehind : 0 ∈ behind) (hplain : e.Plain) :
    Turns x.mem (x.env.calls ++ e.setting.toList) e.Missing (doEntry behind M x e) := by
  rw [doEntry, Entry.setting]
  by_cases hdot : e.isDot
  · rw [if_pos hdot, if_pos hdot, Option.toList_none, List.append_nil]
    exact .inr ⟨x, rfl, List.suffix_rfl, hL, rfl, fun h => h.1 hdot⟩
  · rw [if_neg hdot, if_neg hdot]
    cases hfile : e.file with
    | none =>
      refine .inl ⟨_, rfl, ?_, .inr ⟨hdot, hfile⟩⟩
      exact List.prefix_append _ _
    | some f =>
      have hthere : ¬ e.Missing := fun h => by
        rw [h.2] at hfile
        cases hfile
      rcases readEntry_turns hL f hbehind (hplain hdot f hfile) e.ne
          ⟨.syserr (M.read e.name.bytes), x.env.calls⟩ rfl with
        ⟨err, herr, hcalls, hno⟩ | ⟨x', hx', hleft, hbuilt, hcalls, -⟩
      · exact .inl ⟨err, herr, hcalls, .inl (hno.resolve_right id)⟩
      · exact .inr ⟨x', hx', hleft, hbuilt, hcalls, hthere⟩

/-- The loop -/
theorem fold_turns (es : List Entry) (hbehind : 0 ∈ behind) (hL : Built x.L)
    (hplain : ∀ e ∈ es, e.Plain) :
    Turns x.mem (x.env.calls ++ es.filterMap Entry.setting) (∃ e ∈ es, e.Missing)
      (Res.fold (doEntry behind M) es x) := by
  induction es generalizing x with
  | nil =>
    rw [List.filterMap_nil, List.append_nil]
    exact .inr ⟨x, rfl, List.suffix_rfl, hL, rfl, by simp⟩
  | cons e es ih =>
    have hsettings : x.env.calls ++ (e :: es).filterMap Entry.setting =
        (x.env.calls ++ e.setting.toList) ++ es.filterMap Entry.setting := by
      rw [List.append_assoc]
      cases h : e.setting with
      | none => rw [List.filterMap_cons_none h, Option.toList_none, List.nil_append]
      | some c => rw [List.filterMap_cons_some h, Option.toList_some, List.singleton_append]
    rw [hsettings, Res.fold]
    rcases doEntry_turns (M := M) hL e hbehind (hplain e List.mem_cons_self) with
      ⟨err, herr, hcalls, hno⟩ | ⟨x', hx', hleft, hbuilt, hcalls, hthere⟩
    · rw [herr]
      refine .inl ⟨err, rfl, hcalls.trans (List.prefix_append _ _), hno.imp id fun h => ?_⟩
      exact ⟨e, List.mem_cons_self, h⟩
    · rw [hx', Res.bind, ← hcalls]
      rcases ih hbuilt fun e he => hplain e (List.mem_cons_of_mem _ he) with
        ⟨err, herr, hcalls', hno⟩ | ⟨x'', hx'', hleft', hbuilt', hcalls', hthere'⟩
      · refine .inl ⟨err, herr, hcalls', hno.imp (hleft.subset ·) fun hmissing => ?_⟩
        obtain ⟨e', he', h⟩ := hmissing
        exact ⟨e', List.mem_cons_of_mem _ he', h⟩
      · refine .inr ⟨x'', hx'', hleft'.trans hleft, hbuilt', hcalls', ?_⟩
        rintro ⟨e', he', h⟩
        rcases List.mem_cons.mp he' with rfl | hmem
        · exact hthere h
        · exact hthere' ⟨e', hmem, h⟩

theorem built_start : Built ⟨none, 0, 0⟩ := ⟨rfl, fun h => absurd rfl h, fun _ => rfl⟩

/-- The calls are those of the directory; or a call of the system has failed, and they are the
first of them. -/
def Reads (d : Dir) (mem : Mem) (r : Res Stop (Mem × Env)) : Prop :=
  (∃ e, r = .stopped e ∧ e.calls <+: settings d ∧ (false ∈ mem ∨ ¬ d.Readable)) ∨
    ∃ m t, r = .ok (m, t) ∧ m <:+ mem ∧ t.calls = settings d ∧ d.Readable

theorem doEnvdir_reads {d : Dir} (M : Mesgs) (mem : Mem) (hbehind : 0 ∈ behind)
    (hplain : ∀ e ∈ d.entries, e.Plain) : Reads d mem (doEnvdir behind d M mem) := by
  rw [doEnvdir]
  by_cases hhere : d.here = false
  · rw [if_pos hhere]
    refine .inl ⟨_, rfl, List.nil_prefix, .inr fun h => ?_⟩
    rw [h.here] at hhere
    cases hhere
  · rw [if_neg hhere]
    by_cases hchdir : d.chdir = false
    · rw [if_pos hchdir]
      refine .inl ⟨_, rfl, List.nil_prefix, .inr fun h => ?_⟩
      rw [h.chdir] at hchdir
      cases hchdir
    · rw [if_neg hchdir]
      by_cases hopendir : d.opendir = false
      · rw [if_pos hopendir]
        refine .inl ⟨_, rfl, List.nil_prefix, .inr fun h => ?_⟩
        rw [h.opendir] at hopendir
        cases hopendir
      · rw [if_neg hopendir]
        rcases fold_turns (x := ⟨mem, ⟨none, 0, 0⟩, ⟨[], []⟩⟩) (M := M) d.entries hbehind
            built_start hplain with
          ⟨e, he, hcalls, hno⟩ | ⟨x, hx, hleft, -, hcalls, hthere⟩
        · rw [he]
          refine .inl ⟨e, rfl, hcalls, hno.imp id fun ⟨e, hmem, hmissing⟩ h => ?_⟩
          exact h.files e hmem hmissing
        · have hsame : x.env.calls = settings d := hcalls
          rw [hx, Res.bind]
          by_cases hwhole : d.whole = false
          · rw [if_pos hwhole]
            refine .inl ⟨_, rfl, hsame ▸ List.prefix_rfl, .inr fun h => ?_⟩
            rw [h.whole] at hwhole
            cases hwhole
          · rw [if_neg hwhole]
            by_cases hfchdir : d.fchdir = false
            · rw [if_pos hfchdir]
              refine .inl ⟨_, rfl, hsame ▸ List.prefix_rfl, .inr fun h => ?_⟩
              rw [h.fchdir] at hfchdir
              cases hfchdir
            · rw [if_neg hfchdir]
              refine .inr ⟨x.mem, x.env, rfl, hleft, hsame, ?_⟩
              rw [Bool.not_eq_false] at hhere hchdir hopendir hwhole hfchdir
              exact ⟨hhere, hchdir, hopendir, fun e hmem h => hthere ⟨e, hmem, h⟩, hwhole, hfchdir⟩

/-- A directory with the files `A`, of two lines, and `B`, of an empty one, and a hidden file -/
def twoFiles : Dir where
  here := true
  chdir := true
  opendir := true
  entries := [
    ⟨⟨[65], by decide⟩, List.cons_ne_nil _ _,
      some ⟨⟨[32, 120, 92, 116, 121, 10, 122, 10], by decide⟩, [], List.not_mem_nil⟩⟩,
    ⟨⟨[46, 100], by decide⟩, List.cons_ne_nil _ _, none⟩,
    ⟨⟨[66], by decide⟩, List.cons_ne_nil _ _, some ⟨⟨[10], by decide⟩, [], List.not_mem_nil⟩⟩]
  whole := true
  fchdir := true

/-- `A` is set to `x`, a tab and `y`, and `B` is removed. -/
example : settings twoFiles = [⟨[65], some [120, 9, 121]⟩, ⟨[66], none⟩] := by decide

end Perp.RunenvDir
