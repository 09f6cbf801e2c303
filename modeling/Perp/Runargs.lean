import Perp.Capacity
import Perp.CstrTrim
import Perp.FileLines
import Perp.Newenv
import Perp.OptionLoop
import Perp.Runlimit

set_option autoImplicit false

/-!
# The argument vector of runargs

The options, the lines of the argument file, and the array that `execvx()` is given.
-/
namespace Perp.Runargs
open Cstr (Text)
open CstrTrim (cstrTrim trim_eq trimmed)
open FileLines
open IoqGet (ReadAns)
open IoqGetln (Mem)
open Newenv (Slot environ)
open Nextopt (Opt Final Seen parse)
open OptionLoop
open Refusal
open Runlimit (Fatal optError stdinName)
open RunlimitFile (text text_eq head_nul not_mem_trimmed)

/-! ## The array -/

/-- `struct dynstuf`, of pointers to strings -/
structure Dynstuf where
  stuf : Option (List Slot)
  slots : ℕ
  items : ℕ
  deriving DecidableEq, Repr

/-- `dynstuf_grow()` -/
def dynstufGrow (mem : Mem) (S : Dynstuf) (add : ℕ) : ℤ × Dynstuf × Mem :=
  let need := S.items + add
  if S.stuf = none ∨ S.slots < need then
    let need := need * 2
    let old := S.stuf.getD []
    if mem.headD true then
      let stuf := old.take need ++ List.replicate (need - old.length) none
      (0, { S with stuf := some stuf, slots := need }, mem.tail)
    else (-1, S, mem.tail)
  else (0, S, mem)

/-- `dynstuf_push()` -/
def dynstufPush (mem : Mem) (S : Dynstuf) (data : Option (List UInt8)) :
    Option (ℤ × Dynstuf × Mem) :=
  let out := dynstufGrow mem S 1
  if out.1 = 0 then
    let S := out.2.1
    (Inplace.store (S.stuf.getD []) S.items (some data)).map fun stuf =>
      (0, ⟨some stuf, S.slots, S.items + 1⟩, out.2.2)
  else some (-1, out.2.1, out.2.2)

/-! ## The program -/

/-- How the program ends before `execvx()` -/
inductive Stop where
  | fatal (e : Fatal)
  | alloc
  deriving DecidableEq, Repr

/-- What the program is run with: its arguments, the files, how they will be read, and the memory
behind the buffer of the queue -/
structure Input where
  prog : Text
  args : List Text
  file : List UInt8 → Option Text
  stdin : Text
  answers : List ReadAns
  quiet : .error ∉ answers
  behind : List UInt8

/-- The list of arguments, with the answers of `malloc()` that are left -/
abbrev Arglist := Mem × Dynstuf

/-- What `cstr_dup()` gives for an argument; it is not called for NULL. -/
def dup (mem : Mem) (arg : Option (List UInt8)) : Bool × Mem :=
  arg.elim (true, mem) fun _ => (mem.headD true, mem.tail)

def arglistAdd (arg : Option (List UInt8)) (a : Arglist) : Res Stop Arglist :=
  let got := dup a.1 arg
  if got.1 then
    Res.reading (dynstufPush got.2 a.2 arg) fun out =>
      if out.1 = -1 then .stopped .alloc else .ok (out.2.2, out.2.1)
  else .stopped .alloc

/-- The work on a line -/
def doLine : DoLine Stop Dynstuf := fun b mem S =>
  Res.reading (cstrTrim b) fun b =>
    Res.reading b.head? fun c =>
      if c = 0 ∨ c = 35 then .ok (b, mem, S)
      else (arglistAdd (some (text b)) (mem, S)).bind fun a => .ok (b, a)

/-- What an argument file has; `-` is the standard input. -/
def source (i : Input) (argfile : List UInt8) : Option Text :=
  if argfile = [45] then some i.stdin else i.file argfile

def doArgfile (i : Input) (argfile : List UInt8) (a : Arglist) : Res Stop Arglist :=
  let name := if argfile = [45] then stdinName else argfile
  (source i argfile).elim (.stopped (.fatal (.syserr [.text "unable to open ", .str argfile])))
    fun s => readLoop i.behind (fun _ => .fatal (.syserr [.text "error reading ", .str name])) doLine
      (s.bytes.length + 1) (opened s.bytes i.answers a.1) a.2

/-- `"hVi"` -/
def optlist : List UInt8 := [104, 86, 105]

def optCase (e : Seen) (_ : Bool) : Res Stop Bool :=
  if e.ret = 104 ∨ e.ret = 86 then .stopped (.fatal (.exit 0))
  else if e.ret = 105 then .ok true
  else .stopped (.fatal (optError e))

/-- The loop over the arguments of the command line -/
def addArgs (args : List (List UInt8)) (a : Arglist) : Res Stop Arglist :=
  Res.fold (fun a arg => arglistAdd (some arg) a) args a

/-- The arguments before the file's with `-i`, and else behind them -/
def assemble (i : Input) (insert : Bool) (argfile prog : List UInt8) (args : List (List UInt8))
    (mem : Mem) : Res Stop Arglist :=
  (arglistAdd (some prog) (mem, ⟨none, 0, 0⟩)).bind fun a =>
    (addArgs (if insert then args else []) a).bind fun a =>
      (doArgfile i argfile a).bind fun a =>
        (addArgs (if insert then [] else args) a).bind fun a => arglistAdd none a

def afterOptions (i : Input) (mem : Mem) (out : Bool × List (List UInt8)) :
    Res Stop (List UInt8 × Dynstuf) :=
  match out.2 with
  | argfile :: prog :: args =>
    (assemble i out.1 argfile prog args mem).bind fun a => .ok (prog, a.2)
  | _ => .stopped (.fatal (.usage [.text "missing required argument(s)"]))

/-- `main()` up to `execvx()`: the program and the vector that it is given -/
def main (i : Input) (mem : Mem) : Res Stop (List UInt8 × Dynstuf) :=
  (options optCase ⟨optlist, by decide⟩ i.prog i.args false).bind (afterOptions i mem)

/-! ## What it is for -/

/-- What is left of a line is neither empty nor a comment. -/
def isArg (t : List UInt8) : Bool := t ≠ [] ∧ t.head? ≠ some 35

/-- The arguments that the lines of a file are -/
def lineArgs (s : List UInt8) : List (List UInt8) := ((s.splitOn 10).map trimmed).filter isArg

/-- The vector as the manual has it: with `-i` the arguments of the file come first. -/
def documented (insert : Bool) (prog : List UInt8) (args lines : List (List UInt8)) :
    List (List UInt8) :=
  prog :: if insert then lines ++ args else args ++ lines

def cmdline (i : Input) : List Opt × Final := parse optlist (i.args.map Text.bytes)

/-- Whether there is an option `-i` -/
def inserts (i : Input) : Bool := (cmdline i).1.foldl (fun insert o => insert || o.1 = 105) false

/-- There is no vector to be made. -/
inductive Refused (i : Input) : Prop where
  | option (o : Opt) (h : o ∈ (cmdline i).1) (hbad : o.1 = 104 ∨ o.1 = 86)
  | usage (h : ∀ argfile prog args, (cmdline i).2 ≠ .operands (argfile :: prog :: args))
  | file (argfile : List UInt8) (rest : List (List UInt8))
      (h : (cmdline i).2 = .operands (argfile :: rest)) (hopen : source i argfile = none)

/-- A command line with what is in its argument file -/
structure Asks (i : Input) (argfile prog : List UInt8) (args : List (List UInt8)) (s : Text) : Prop where
  operands : (cmdline i).2 = .operands (argfile :: prog :: args)
  letters : ∀ o ∈ (cmdline i).1, ¬ (o.1 = 104 ∨ o.1 = 86)
  source : source i argfile = some s

/-- The program ends before, or `execvx()` is given the vector of the manual. -/
def Right (i : Input) (mem : Mem) (r : Res Stop (List UInt8 × Dynstuf)) : Prop :=
  (∃ e, r = .stopped e ∧ (Refused i ∨ false ∈ mem)) ∨
    ∃ S argfile prog args s, r = .ok (prog, S) ∧ Asks i argfile prog args s ∧
      environ (S.stuf.getD []) = some (documented (inserts i) prog args (lineArgs s.bytes))

/-! ## The array that has been filled -/

/-- The first slots are of the pointers that have been pushed. -/
structure Filled (S : Dynstuf) (xs : List (Option (List UInt8))) : Prop where
  items : S.items = xs.length
  slots : S.slots = (S.stuf.getD []).length
  stored : xs.map some <+: S.stuf.getD []

variable {S : Dynstuf} {xs : List (Option (List UInt8))} {mem : Mem} {a : Arglist}

theorem filled_empty : Filled ⟨none, 0, 0⟩ [] := ⟨rfl, rfl, List.nil_prefix⟩

theorem Filled.room (h : Filled S xs) : S.items ≤ S.slots := by
  have hlen := h.stored.length_le
  rw [List.length_map] at hlen
  rw [h.items, h.slots]
  exact hlen

theorem grow_cases (h : Filled S xs) (mem : Mem) :
    dynstufGrow mem S 1 = (-1, S, mem.tail) ∧ mem.headD true = false ∨
    ∃ S' mem', dynstufGrow mem S 1 = (0, S', mem') ∧ Filled S' xs ∧ S'.items < S'.slots ∧
      mem' <:+ mem := by
  have hroom := h.room
  rw [dynstufGrow]
  by_cases hneed : S.stuf = none ∨ S.slots < S.items + 1
  · rw [if_pos hneed]
    cases hgot : mem.headD true with
    | false => exact .inl ⟨rfl, rfl⟩
    | true =>
      apply Or.inr
      refine ⟨_, _, rfl, ⟨h.items, ?_, ?_⟩, ?_, List.tail_suffix mem⟩
      · simp only [Option.getD_some, List.length_append, List.length_take, List.length_replicate]
        omega
      · have hslots := h.slots
        have hall : (S.stuf.getD []).length ≤ (S.items + 1) * 2 := by
          rcases hneed with hnone | hless
          · rw [hnone]
            exact Nat.zero_le _
          · omega
        simp only [Option.getD_some, List.take_of_length_le hall]
        exact h.stored.trans (List.prefix_append _ _)
      · change S.items < (S.items + 1) * 2
        omega
  · rw [if_neg hneed]
    rw [not_or, Nat.not_lt] at hneed
    exact .inr ⟨S, mem, rfl, h, hneed.2, List.suffix_rfl⟩

theorem push_cases (h : Filled S xs) (mem : Mem) (data : Option (List UInt8)) :
    (∃ S' mem', dynstufPush mem S data = some (-1, S', mem') ∧ mem.headD true = false) ∨
      ∃ S' mem', dynstufPush mem S data = some (0, S', mem') ∧ Filled S' (xs ++ [data]) ∧
        mem' <:+ mem := by
  rw [dynstufPush]
  rcases grow_cases h mem with ⟨hgrow, hgot⟩ | ⟨S', mem', hgrow, hfilled, hroom, hleft⟩
  · exact .inl ⟨_, _, by rw [hgrow]; rfl, hgot⟩
  · apply Or.inr
    obtain ⟨more, hmore⟩ := hfilled.stored
    have hplace : (xs.map some).length = S'.items := by rw [List.length_map, hfilled.items]
    have hne : more ≠ [] := by
      intro hnil
      rw [hfilled.slots, ← hmore, hnil, List.append_nil, hplace] at hroom
      exact Nat.lt_irrefl _ hroom
    obtain ⟨c, more, rfl⟩ := List.exists_cons_of_ne_nil hne
    have hstore : Inplace.store (S'.stuf.getD []) S'.items (some data) =
        some (xs.map some ++ some data :: more) := by
      rw [← hmore, ← hplace, Inplace.store_at]
    refine ⟨⟨some (xs.map some ++ some data :: more), S'.slots, S'.items + 1⟩, mem', ?_, ?_, hleft⟩
    · rw [hgrow]
      simp only [hstore, Option.map_some, if_pos]
    · refine ⟨?_, ?_, ?_⟩
      · rw [List.length_append, ← hfilled.items]
        rfl
      · rw [hfilled.slots, ← hmore]
        simp only [Option.getD_some, List.length_append, List.length_cons]
      · simp [List.prefix_append_right_inj]

theorem Filled.vector {args : List (List UInt8)} (h : Filled S (args.map some ++ [none])) :
    environ (S.stuf.getD []) = some args := by
  obtain ⟨more, hmore⟩ := h.stored
  rw [← hmore]
  clear hmore h
  induction args with
  | nil => rfl
  | cons arg args ih =>
    rw [List.map_cons, List.cons_append, List.map_cons, List.cons_append, environ, ih]
    rfl

/-! ## The sizes of the array -/

/-- The sizes of an array, in a `size_t`, the memory in bytes -/
def cutStuf (S : Dynstuf) : Capacity.Dynstuf :=
  ⟨S.stuf.map fun stuf => .ofNat (8 * stuf.length), .ofNat S.slots, .ofNat S.items⟩

theorem dynstufGrow_cut {add : ℕ} (hslots : S.slots < 2 ^ 64) (hfit : 16 * (S.items + add) < 2 ^ 64) :
    Capacity.dynstufGrow (mem.headD true) (cutStuf S) (.ofNat add) =
      ((dynstufGrow mem S add).1, cutStuf (dynstufGrow mem S add).2.1) := by
  have hitems := Capacity.toNat_cut (n := S.items) (by omega)
  have hadd := Capacity.toNat_cut (n := add) (by omega)
  have htotal : (cutStuf S).total (.ofNat add) = S.items + add := by
    rw [Capacity.total_eq, hadd]
    exact congrArg (· + add) hitems
  have henough : (cutStuf S).Enough (.ofNat add) ↔ ¬ (S.stuf = none ∨ S.slots < S.items + add) := by
    rw [Capacity.Dynstuf.Enough, htotal, not_or, Nat.not_lt]
    simp [cutStuf, Capacity.toNat_cut hslots]
  rw [dynstufGrow]
  by_cases hneed : S.stuf = none ∨ S.slots < S.items + add
  · have hnot := fun h => henough.mp h hneed
    have hhalf : (cutStuf S).total (.ofNat add) < 2 ^ 63 := by omega
    have hbytes : 2 * (cutStuf S).total (.ofNat add) ≤
        16 * (cutStuf S).total (.ofNat add) % 2 ^ 64 := by omega
    obtain ⟨slots, bytes, hs, hb, hgrow⟩ := Capacity.stuf_grown hnot hhalf hbytes
    rw [htotal] at hs hb
    rw [hgrow, if_pos hneed]
    cases mem.headD true with
    | false => rfl
    | true =>
      have hlen : ((S.stuf.getD []).take ((S.items + add) * 2) ++
          List.replicate ((S.items + add) * 2 - (S.stuf.getD []).length) none).length =
            (S.items + add) * 2 := by
        rw [List.length_append, List.length_take, List.length_replicate]
        omega
      have hslots' : slots = .ofNat ((S.items + add) * 2) := by
        apply UInt64.toNat_inj.mp
        rw [hs, Capacity.toNat_cut (by omega), Nat.mul_comm]
      have hbytes' : bytes = .ofNat (8 * ((S.items + add) * 2)) := by
        apply UInt64.toNat_inj.mp
        rw [hb, Capacity.toNat_cut (by omega)]
        omega
      simp only [if_pos, cutStuf, Option.map_some, hlen, hslots', hbytes']
  · rw [Capacity.stuf_enough (henough.mpr hneed), if_neg hneed]

/-! ## The arguments -/

/-- Nothing has gone wrong but that there was no memory. -/
def Adds (xs : List (Option (List UInt8))) (mem : Mem) (r : Res Stop Arglist) : Prop :=
  Comes (fun _ _ => True) (fun S xs => Filled S xs) xs mem id r

theorem Adds.bind {r : Res Stop Arglist} {ys : List (Option (List UInt8))}
    {next : Arglist → Res Stop Arglist} (h : Adds xs mem r)
    (hnext : ∀ a : Arglist, Filled a.2 xs → Adds ys a.1 (next a)) : Adds ys mem (r.bind next) := by
  rcases h with ⟨e, rfl, -, hmem⟩ | ⟨a, rfl, hleft, hfilled⟩
  · exact .inl ⟨e, rfl, trivial, hmem⟩
  · rcases hnext a hfilled with ⟨e, he, -, hmem⟩ | ⟨a', ha', hleft', hfilled'⟩
    · exact .inl ⟨e, he, trivial, hleft.subset hmem⟩
    · exact .inr ⟨a', ha', hleft'.trans hleft, hfilled'⟩

theorem mem_of_headD (h : mem.headD true = false) : false ∈ mem := by
  rw [IoqGetln.headD_false h]
  exact List.mem_cons_self

theorem arglistAdd_adds {a : Arglist} (h : Filled a.2 xs) (arg : Option (List UInt8)) :
    Adds (xs ++ [arg]) a.1 (arglistAdd arg a) := by
  have hdup : (dup a.1 arg).2 <:+ a.1 ∧ ((dup a.1 arg).1 = false → false ∈ a.1) := by
    cases arg with
    | none => exact ⟨List.suffix_rfl, fun hno => by cases hno⟩
    | some arg => exact ⟨List.tail_suffix a.1, mem_of_headD⟩
  rw [arglistAdd]
  by_cases hgot : (dup a.1 arg).1 = true
  · rw [if_pos hgot]
    rcases push_cases h (dup a.1 arg).2 arg with
      ⟨S', mem', hpush, hno⟩ | ⟨S', mem', hpush, hfilled, hleft⟩
    · rw [hpush]
      exact .inl ⟨.alloc, rfl, trivial, hdup.1.subset (mem_of_headD hno)⟩
    · rw [hpush]
      exact .inr ⟨(mem', S'), rfl, hleft.trans hdup.1, hfilled⟩
  · rw [if_neg hgot]
    exact .inl ⟨.alloc, rfl, trivial, hdup.2 (Bool.eq_false_iff.mpr hgot)⟩

theorem addArgs_adds (args : List (List UInt8)) {a : Arglist} (h : Filled a.2 xs) :
    Adds (xs ++ args.map some) a.1 (addArgs args a) := by
  induction args generalizing xs a with
  | nil =>
    rw [List.map_nil, List.append_nil]
    exact .inr ⟨a, rfl, List.suffix_rfl, h⟩
  | cons arg args ih =>
    rw [List.map_cons, ← List.singleton_append, ← List.append_assoc]
    exact (arglistAdd_adds h (some arg)).bind fun a ha => ih ha

/-! ## The lines -/

/-- What a line adds -/
def lineArg (l : List UInt8) : List (List UInt8) :=
  if isArg (trimmed l) = true then [trimmed l] else []

theorem doLine_adds {l : List UInt8} (hl : 0 ∉ l) (S : Dynstuf) (stale : List UInt8) (mem : Mem) :
    ∃ b, b.length = (l ++ 0 :: stale).length ∧
      doLine (l ++ 0 :: stale) mem S = (addArgs (lineArg l) (mem, S)).bind fun a => .ok (b, a) := by
  obtain ⟨junk, hlen, htrim⟩ := trim_eq hl stale
  have hnul := not_mem_trimmed hl
  obtain ⟨c, hhead, hzero, hmark⟩ := head_nul hnul (junk ++ stale)
  refine ⟨trimmed l ++ 0 :: (junk ++ stale), ?_, ?_⟩
  · simp only [List.length_append, List.length_cons]
    omega
  · rw [doLine, htrim, Res.reading, Option.elim_some, hhead, Res.reading, Option.elim_some, lineArg]
    have harg : isArg (trimmed l) = true ↔ ¬ (c = 0 ∨ c = 35) := by
      rw [isArg, decide_eq_true_iff, hzero, hmark, not_or]
    by_cases hskip : c = 0 ∨ c = 35
    · have hnone : ¬ isArg (trimmed l) = true := fun h => harg.mp h hskip
      rw [if_pos hskip, if_neg hnone]
      rfl
    · rw [if_neg hskip, if_pos (harg.mpr hskip), text_eq hnul, addArgs, Res.fold]
      cases arglistAdd (some (trimmed l)) (mem, S) <;> rfl

theorem lineArgs_eq (s : List UInt8) : lineArgs s = (s.splitOn 10).flatMap lineArg := by
  rw [lineArgs]
  induction s.splitOn 10 with
  | nil => rfl
  | cons l ls ih =>
    rw [List.map_cons, List.flatMap_cons, lineArg, ← ih]
    by_cases h : isArg (trimmed l) = true
    · rw [List.filter_cons_of_pos h, if_pos h]
      rfl
    · rw [List.filter_cons_of_neg h, if_neg h]
      rfl

theorem lineArg_newline (l : List UInt8) : lineArg (l ++ [10]) = lineArg l := by
  rw [lineArg, RunlimitFile.trimmed_newline, lineArg]

theorem lines_follow (readErr : Stop) : Follows (fun _ => readErr) doLine (fun _ => True) Filled
    (fun _ _ => True) fun xs l => xs ++ (lineArg l).map some := by
  constructor
  · intro l stale mem S done hl _ hdone
    obtain ⟨b, hb, hrun⟩ := doLine_adds hl S stale mem
    rw [hrun] at hdone
    cases hadd : addArgs (lineArg l) (mem, S) with
    | ok a =>
      rw [hadd] at hdone
      cases hdone
      exact hb
    | stopped e =>
      rw [hadd] at hdone
      cases hdone
    | outside =>
      rw [hadd] at hdone
      cases hdone
  · intro l stale mem S xs hl _ hS
    obtain ⟨b, -, hrun⟩ := doLine_adds hl S stale mem
    rw [hrun]
    rcases addArgs_adds (a := (mem, S)) (lineArg l) hS with ⟨e, he, -, hmem⟩ | ⟨a, ha, hleft, hfilled⟩
    · rw [he]
      exact .inl ⟨e, rfl, trivial, hmem⟩
    · rw [ha]
      exact .inr ⟨(b, a), rfl, hleft, hfilled⟩
  · exact fun _ _ _ => trivial
  · exact fun _ _ _ _ => trivial
  · intro xs l
    rw [lineArg_newline]
  · intro xs
    exact List.append_nil xs

theorem foldl_append (ls : List (List UInt8)) (xs : List (Option (List UInt8))) :
    ls.foldl (fun xs l => xs ++ (lineArg l).map some) xs = xs ++ (ls.flatMap lineArg).map some := by
  induction ls generalizing xs with
  | nil => exact (List.append_nil xs).symm
  | cons l ls ih => rw [List.foldl_cons, ih, List.flatMap_cons, List.map_append, List.append_assoc]

theorem doArgfile_adds {i : Input} {argfile : List UInt8} {s : Text} {a : Arglist}
    (hs : source i argfile = some s) (hbehind : s.bytes = [] ∨ 0 ∈ i.behind) (h : Filled a.2 xs) :
    Adds (xs ++ (lineArgs s.bytes).map some) a.1 (doArgfile i argfile a) := by
  have hready := opened_ready s.bytes i.quiet a.1
  have hunread := opened_unread s.bytes i.answers a.1
  rw [doArgfile, hs, Option.elim_some]
  rcases hbehind with hnil | hbehind
  · have hnone : lineArgs [] = [] := by decide
    rw [readLoop_empty hready (hunread.trans hnil), hnil, hnone, List.map_nil, List.append_nil]
    exact .inr ⟨a, rfl, List.suffix_rfl, h⟩
  · have hnul : 0 ∉ (opened s.bytes i.answers a.1).unread := hunread ▸ s.nul
    have hfuel : (opened s.bytes i.answers a.1).unread.length < s.bytes.length + 1 := by
      rw [hunread]
      exact Nat.lt_succ_self _
    have hrun := fun readErr => readLoop_comes (lines_follow readErr) hready hnul hbehind hfuel h
      (allLines_of fun _ => trivial)
    simp only [hunread, foldl_append, ← lineArgs_eq] at hrun
    exact hrun _

theorem doArgfile_overruns {i : Input} {argfile : List UInt8} {s : Text} (hs : source i argfile = some s)
    (hne : s.bytes ≠ []) (hbehind : 0 ∉ i.behind) (a : Arglist) :
    doArgfile i argfile a = .outside := by
  have hready := opened_ready s.bytes i.quiet a.1
  have hunread := opened_unread s.bytes i.answers a.1
  rw [doArgfile, hs, Option.elim_some]
  apply readLoop_overruns hready _ _ hbehind
  · rw [hunread]
    exact s.nul
  · rw [hunread]
    exact hne

/-! ## The vector -/

section
variable {i : Input} {insert : Bool} {argfile prog : List UInt8} {args : List (List UInt8)} {s : Text}

/-- The vector as it is made -/
def made (insert : Bool) (prog : List UInt8) (args lines : List (List UInt8)) : List (List UInt8) :=
  prog :: if insert then args ++ lines else lines ++ args

theorem made_eq (insert : Bool) (prog : List UInt8) (args lines : List (List UInt8)) :
    made insert prog args lines = documented insert prog args lines ↔ args ++ lines = lines ++ args := by
  rw [made, documented, List.cons.injEq, and_iff_right rfl]
  cases insert with
  | false => exact eq_comm
  | true => exact Iff.rfl

theorem assemble_adds (hs : source i argfile = some s) (hbehind : s.bytes = [] ∨ 0 ∈ i.behind)
    (insert : Bool) (prog : List UInt8) (args : List (List UInt8)) (mem : Mem) :
    Adds ((made insert prog args (lineArgs s.bytes)).map some ++ [none]) mem
      (assemble i insert argfile prog args mem) := by
  have hmade : (made insert prog args (lineArgs s.bytes)).map some ++ [none] =
      (([] ++ [some prog] ++ (if insert then args else []).map some) ++
        (lineArgs s.bytes).map some ++ (if insert then [] else args).map some) ++ [none] := by
    rw [made]
    cases insert <;> simp
  rw [hmade, assemble]
  apply (arglistAdd_adds (a := (mem, _)) filled_empty (some prog)).bind
  intro a₁ h₁
  apply (addArgs_adds _ h₁).bind
  intro a₂ h₂
  apply (doArgfile_adds hs hbehind h₂).bind
  intro a₃ h₃
  apply (addArgs_adds _ h₃).bind
  intro a₄ h₄
  exact arglistAdd_adds h₄ none

theorem Adds.goes {r : Res Stop Arglist} (h : Adds xs [] r) :
    ∃ S, r = .ok ([], S) ∧ Filled S xs := by
  rcases h with ⟨-, -, -, hmem⟩ | ⟨a, rfl, hleft, hfilled⟩
  · cases hmem
  · have hnil : a.1 = [] := List.suffix_nil.mp hleft
    exact ⟨a.2, by rw [← hnil], hfilled⟩

theorem assemble_overruns (hs : source i argfile = some s) (hne : s.bytes ≠ [])
    (hbehind : 0 ∉ i.behind) : assemble i insert argfile prog args [] = .outside := by
  obtain ⟨S₁, hprog, h₁⟩ := (arglistAdd_adds (a := ([], _)) filled_empty (some prog)).goes
  obtain ⟨S₂, hargs, -⟩ := (addArgs_adds (a := ([], S₁)) (if insert then args else []) h₁).goes
  rw [assemble, hprog, Res.bind, hargs, Res.bind, doArgfile_overruns hs hne hbehind]
  rfl

theorem assemble_unopened (hs : source i argfile = none) (insert : Bool) (prog : List UInt8)
    (args : List (List UInt8)) (mem : Mem) :
    ∃ e, assemble i insert argfile prog args mem = .stopped e := by
  rw [assemble]
  rcases arglistAdd_adds (a := (mem, _)) filled_empty (some prog) with
    ⟨e, he, -⟩ | ⟨a₁, ha₁, -, h₁⟩
  · exact ⟨e, by rw [he]; rfl⟩
  · rw [ha₁, Res.bind]
    rcases addArgs_adds (a := a₁) (if insert then args else []) h₁ with ⟨e, he, -⟩ | ⟨a₂, ha₂, -⟩
    · exact ⟨e, by rw [he]; rfl⟩
    · rw [ha₂, Res.bind, doArgfile, hs]
      exact ⟨_, rfl⟩

/-! ## The program -/

theorem optCase_stops : Stops optCase := by
  rintro ⟨ret, got, arg⟩ st (rfl | rfl)
  · exact ⟨_, rfl⟩
  · exact ⟨_, rfl⟩

theorem option_letters {c : UInt8} {b : Bool} (h : Nextopt.takes optlist c = some b) :
    c = 104 ∨ c = 86 ∨ c = 105 :=
  Nextopt.takes_all (P := fun c _ => c = 104 ∨ c = 86 ∨ c = 105) (by decide) h

theorem optCase_steps : Steps optCase ⟨optlist, by decide⟩ (fun _ o => o.1 = 104 ∨ o.1 = 86)
    (fun insert o => insert || o.1 = 105) Eq := by
  rintro st _ ⟨c, arg⟩ h rfl
  rcases option_letters h with rfl | rfl | rfl
  · exact Res.meets_stopped _ (.inl rfl)
  · exact Res.meets_stopped _ (.inr rfl)
  · exact Res.meets_ok (by simp) (by simp)

/-- What the options leave is refused, or is the argument file, the program and its arguments. -/
theorem main_cases (i : Input) :
    Refused i ∧ (∀ mem, ∃ e, main i mem = .stopped e) ∨
      ∃ argfile prog args s, Asks i argfile prog args s ∧
        ∀ mem, main i mem =
          (assemble i (inserts i) argfile prog args mem).bind fun a => .ok (prog, a.2) := by
  rcases options_meets optCase_stops (by decide) optCase_steps i.prog i.args rfl with
    ⟨hfault, e, he⟩ | ⟨hgo, ⟨insert, operands⟩, hok, hinsert, hargs⟩
  · refine .inl ⟨?_, fun mem => ⟨e, by rw [main, he]; rfl⟩⟩
    rw [faulty_const] at hfault
    rcases hfault with ⟨o, ho, hbad⟩ | hno
    · exact .option o ho hbad
    · exact .usage fun argfile prog args => hno (argfile :: prog :: args)
  · rw [faulty_const, not_or] at hgo
    obtain rfl : insert = inserts i := hinsert
    have hmain : ∀ mem, main i mem = afterOptions i mem (inserts i, operands) := by
      intro mem
      rw [main, hok, Res.bind]
    have husage : (∀ argfile prog args, operands ≠ argfile :: prog :: args) → Refused i := by
      intro hno
      apply Refused.usage
      intro argfile prog args hmore
      exact hno argfile prog args (Final.operands.inj (hargs.symm.trans hmore))
    rcases operands with _ | ⟨argfile, _ | ⟨prog, args⟩⟩
    · exact .inl ⟨husage (by simp), fun mem => ⟨_, hmain mem⟩⟩
    · exact .inl ⟨husage (by simp), fun mem => ⟨_, hmain mem⟩⟩
    · cases hs : source i argfile with
      | none =>
        refine .inl ⟨.file argfile (prog :: args) hargs hs, fun mem => ?_⟩
        obtain ⟨e, he⟩ := assemble_unopened hs (inserts i) prog args mem
        have hrun : main i mem =
            (assemble i (inserts i) argfile prog args mem).bind fun a => .ok (prog, a.2) := hmain mem
        exact ⟨e, by rw [hrun, he]; rfl⟩
      | some s =>
        exact .inr ⟨argfile, prog, args, s, ⟨hargs, fun o ho hbad => hgo.1 ⟨o, ho, hbad⟩, hs⟩, hmain⟩

theorem Asks.unique {argfile' prog' : List UInt8} {args' : List (List UInt8)} {s' : Text}
    (h : Asks i argfile prog args s) (h' : Asks i argfile' prog' args' s') :
    argfile = argfile' ∧ prog = prog' ∧ args = args' ∧ s = s' := by
  have hsame := Final.operands.inj (h.operands.symm.trans h'.operands)
  rw [List.cons.injEq, List.cons.injEq] at hsame
  obtain ⟨rfl, rfl, rfl⟩ := hsame
  exact ⟨rfl, rfl, rfl, Option.some.inj (h.source.symm.trans h'.source)⟩

theorem Asks.not_refused (h : Asks i argfile prog args s) : ¬ Refused i := by
  rintro (⟨o, ho, hbad⟩ | husage | ⟨argfile', rest, hargs, hopen⟩)
  · exact h.letters o ho hbad
  · exact husage argfile prog args h.operands
  · have hsame := Final.operands.inj (h.operands.symm.trans hargs)
    rw [List.cons.injEq] at hsame
    rw [← hsame.1, h.source] at hopen
    cases hopen

/-- It makes no difference which arguments come first; and the file is empty, or there is a NUL
behind the buffer. -/
def Ordered (i : Input) : Prop :=
  ∃ argfile prog args s, Asks i argfile prog args s ∧
    args ++ lineArgs s.bytes = lineArgs s.bytes ++ args ∧ (s.bytes = [] ∨ 0 ∈ i.behind)

/-- `runargs f p a`, where the file `f` is the line `b` -/
def oneLine : Input where
  prog := ⟨[114, 117, 110, 97, 114, 103, 115], by decide⟩
  args := [⟨[102], by decide⟩, ⟨[112], by decide⟩, ⟨[97], by decide⟩]
  file := fun _ => some ⟨[98, 10], by decide⟩
  stdin := ⟨[98, 10], by decide⟩
  answers := []
  quiet := List.not_mem_nil
  behind := [0]

end

end Perp.Runargs
