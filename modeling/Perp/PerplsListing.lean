import Perp.Dynstufs
import Perp.OptionLoop
import Perp.PerplsColors
import Perp.Runlimit
import Perp.Stamp8601
import Perp.StatusVerdicts
import Perp.TinylogPrune

set_option autoImplicit false

/-!
# The listing of perpls

`main()` of `perpls`, from the command line to the lines that it prints.
-/
namespace Perp.PerplsListing
open Cstr (Text)
open Dynstufs
open Nextopt (Opt Final Seen parse)
open OptionLoop
open PerplsColors
open PerplsPanel
open Refusal
open Runlimit (Fatal Piece)
open RunlimitFile (text)
open Stamp8601 (nfmtUint32)
open TinylogPrune (cstrCmp)

/-! ## The program -/

/-- An entry of the base directory: what `readdir()` gives, and whether `stat()` finds a
directory -/
structure Entry where
  name : Text
  isDir : Bool
  deriving DecidableEq, Repr

/-- What comes of `domsock_connect()` -/
inductive Connected where
  | connected
  /-- `ECONNREFUSED` -/
  | refused
  | failed
  deriving DecidableEq, Repr

/-- What the program is run with -/
structure Input where
  prog : Text
  args : List Text
  getenv : List UInt8 → Option Text
  isatty : Bool
  /-- `PERPLS_COLORS_DEFAULT` -/
  builtin : Text
  /-- does `chdir()` succeed? -/
  chdir : List UInt8 → Bool
  /-- what `readdir()` gives; none if `opendir()` fails -/
  dir : Option (List Entry)
  connect : List UInt8 → Connected
  now : Tain
  /-- the answers of `malloc()` and `realloc()` for the list -/
  listMem : Bool × Bool
  /-- the answers of `malloc()`: four for each service, the last of them for the list -/
  mem : List Bool
  /-- the memory that a service is given -/
  raw : List UInt8 → Svstat
  /-- how the query of a service goes, by its place in the list and its name -/
  asked : ℕ → List UInt8 → Asked
  qsort : Qsort Svstat
  /-- `sysstr_errno()` -/
  sysstrErrno : UInt32 → List UInt8

structure Opts where
  basedir : Option (List UInt8)
  optG : Bool
  useColor : Bool
  optK : Bool
  optR : Bool
  optT : Bool
  deriving DecidableEq, Repr

/-- How the program ends before it prints the list -/
inductive Stop where
  | fatal (e : Fatal)
  | alloc
  /-- `-K` -/
  | capabilities (db : List UInt8)
  deriving DecidableEq, Repr

/-- `":hVb:cGgKrt"` -/
def optlist : List UInt8 := [58, 104, 86, 98, 58, 99, 71, 103, 75, 114, 116]

def optError (e : Seen) : Fatal :=
  if e.ret = 58 then .usage [.text "missing argument for option -", .str [e.got]]
  else if e.ret = 63 ∧ e.got ≠ 63 then .usage [.text "invalid option -", .str [e.got]]
  else .dieUsage

def optCase (e : Seen) (st : Opts) : Res Stop Opts :=
  if e.ret = 104 ∨ e.ret = 86 then .stopped (.fatal (.exit 0))
  else if e.ret = 98 then Res.reading e.arg fun arg => .ok { st with basedir := some arg }
  else if e.ret = 99 then .ok { st with basedir := some [46] }
  else if e.ret = 71 then .ok { st with optG := true, useColor := true }
  else if e.ret = 103 then .ok { st with optG := false, useColor := false }
  else if e.ret = 75 then .ok { st with optK := true }
  else if e.ret = 114 then .ok { st with optR := true }
  else if e.ret = 116 then .ok { st with optT := true }
  else .stopped (.fatal (optError e))

/-- `"PERPLS_COLORS"` -/
def colorsName : List UInt8 := [80, 69, 82, 80, 76, 83, 95, 67, 79, 76, 79, 82, 83]

/-- `cap_db`; none is a listing without colors. -/
def capDb (i : Input) (st : Opts) : Option Text :=
  if st.useColor then
    let db := (i.getenv colorsName).filter (·.bytes ≠ [])
    if st.optG then db.orElse fun _ => if i.builtin.bytes = [] then none else some i.builtin
    else if i.isatty then db else none
  else none

/-- The table of colors, if they are used; `-K` ends the program. -/
def colors (i : Input) (st : Opts) : Res Stop (Option Captab) :=
  (capDb i st).elim (.ok none) fun db =>
    Res.reading (captabInit (some db)) fun tab =>
      if st.optK then .stopped (.capabilities db.bytes) else .ok (some tab)

/-- `"PERP_BASE"` -/
def baseName : List UInt8 := [80, 69, 82, 80, 95, 66, 65, 83, 69]

/-- The base directory: of the option, else of the environment; `.` if that is nothing -/
def basedir (i : Input) (st : Opts) : List UInt8 :=
  let base := (st.basedir.orElse fun _ => (i.getenv baseName).map Text.bytes).getD []
  if base = [] then [46] else base

/-- `svstat_init()` of a new object, and `dynstuf_push()` -/
def addService (i : Input) (a : List Bool × Dynstuf Svstat) (name : List UInt8) :
    Res Stop (List Bool × Dynstuf Svstat) :=
  if (a.1.take 3).all id then
    Res.reading (dynstufPush ((a.1.drop 3).headD true) a.2 (some (svstatInit (i.raw name) name)))
      fun out => if out.1 ≠ 0 then .stopped .alloc else .ok (a.1.drop 4, out.2)
  else .stopped .alloc

/-- An entry of the directory: neither one that begins with `.`, nor one that is no directory -/
def addEntry (i : Input) (a : List Bool × Dynstuf Svstat) (e : Entry) :
    Res Stop (List Bool × Dynstuf Svstat) :=
  if e.name.bytes.head? = some 46 ∨ e.isDir = false then .ok a else addService i a e.name.bytes

/-- What the list is sorted by -/
inductive SortBy where
  | name
  | uptime
  deriving DecidableEq, Repr

/-- The list of services, and what it is to be sorted by -/
def svList (i : Input) (st : Opts) (base : List UInt8) (argv : List (List UInt8))
    (svstuf : Dynstuf Svstat) : Res Stop (Option SortBy × Dynstuf Svstat) :=
  let sortBy := if st.optT then some .uptime else none
  if argv ≠ [] then
    (Res.fold (addService i) argv (i.mem, svstuf)).bind fun a => .ok (sortBy, a.2)
  else
    i.dir.elim
      (.stopped (.fatal (.syserr [.text "failure opendir() on base directory ", .str base])))
      fun es => (Res.fold (addEntry i) es (i.mem, svstuf)).bind fun a =>
        .ok (sortBy.orElse fun _ => some .name, a.2)

/-- `"/.control/perpd.sock"` -/
def socketName : List UInt8 :=
  [47, 46, 99, 111, 110, 116, 114, 111, 108, 47, 112, 101, 114, 112, 100, 46, 115, 111, 99, 107]

/-- `sizeof pathbuf` -/
def pathbufSize : ℕ := 256

/-- The loop of the queries, and the greatest length of a name -/
def queryLoop (i : Input) : ℕ → UInt64 → Dynstuf Svstat → ℕ → Option (Dynstuf Svstat × ℕ)
  | 0, _, S, width => some (S, width)
  | turns + 1, k, S, width =>
    if k < S.items then
      (dynstufGet S k).join.bind fun sv =>
        (S.put k (some (svstatQuery (i.asked k.toNat sv.name) sv))).bind fun S =>
          let w := sv.name.length
          queryLoop i turns (k + 1) S (if w > width then w else width)
    else some (S, width)

/-- What the comparisons read through their arguments; the list has no NULL. -/
def field {β : Type} [Inhabited β] (f : Svstat → β) (p : Ptr Svstat) : β := (p.map f).getD default

def cmpByname (a b : Ptr Svstat) : ℤ := cstrCmp (field (·.name) a) (field (·.name) b)

def cmpByuptime (a b : Ptr Svstat) : ℤ :=
  if field (·.uptimeMain) a < field (·.uptimeMain) b then -1
  else if field (·.uptimeMain) a > field (·.uptimeMain) b then 1
  else cstrCmp (field (·.name) a) (field (·.name) b)

def SortBy.cmp : SortBy → Ptr Svstat → Ptr Svstat → ℤ
  | .name => cmpByname
  | .uptime => cmpByuptime

/-- `PADMAX` -/
def padMax : ℕ := 80

/-- `name_pad()`; none is NULL. -/
def namePad (name : List UInt8) (width : ℕ) : Option (List UInt8) :=
  if width > padMax then none
  else some (name.take width ++ List.replicate (width - name.length) 32)

/-- `ioq_vputs()` of strings up to the first NULL -/
def vputs : List (Option (List UInt8)) → List UInt8
  | [] => []
  | none :: _ => []
  | some s :: rest => s ++ vputs rest

def ascii (s : List Char) : List UInt8 := s.map fun c => UInt8.ofNat c.toNat

/-- `"\033[00m"` -/
def plainColor : List UInt8 := [27, 91, 48, 48, 109]

/-- The panel and the name -/
def headOf (colors : Option Captab) (width : ℕ) (sv : Svstat) : List UInt8 :=
  let panel := some (ascii sv.panel.text)
  let name := namePad sv.name width
  colors.elim (vputs [panel, some [32, 32], name]) fun tab =>
    vputs [panel, some [32, 32], some (plainColor ++ [27, 91]),
      some (text (tab (panelCap sv.panel))),
      some [109], name, some plainColor]

/-- A number that is shown only of a process that is there -/
def shownNumber (m : Marks) (n : UInt32) : List UInt8 :=
  if m.up = '+' ∨ m.up = 'o' then nfmtUint32 n else [45]

/-- The `switch` on `panel[1]` -/
def tailOf (i : Input) (sv : Svstat) : List UInt8 :=
  if sv.panel.state = 'E' then
    vputs [some (ascii "  error: ".toList), some (ascii sv.errmsg.toList), some [32, 91],
      some (i.sysstrErrno sv.sysErrno), some [93]]
  else if sv.panel.state = '+' then
    vputs [some [32, 32], some (ascii "uptime: ".toList),
      some (shownNumber sv.panel.main sv.uptimeMain.toUInt32), some (ascii "s/".toList),
      some (shownNumber sv.panel.log sv.uptimeLog.toUInt32), some (ascii "s".toList),
      some (ascii "  pids: ".toList), some (shownNumber sv.panel.main (UInt32.ofInt sv.pidMain)),
      some [47], some (shownNumber sv.panel.log (UInt32.ofInt sv.pidLog))]
  else if sv.panel.state = '-' then ascii "  (service not activated)".toList
  else if sv.panel.state = '!' then ascii "  (service deactivation in progress)".toList
  else if sv.panel.state = 'R' then ascii "  (service reactivation in progress)".toList
  else ascii "  ???".toList

/-- The line of a service as `svstat_unpack()` and `svstat_setcap()` have left it -/
def lineOf (i : Input) (colors : Option Captab) (width : ℕ) (sv : Svstat) : List UInt8 :=
  headOf colors width sv ++ tailOf i sv ++ [10]

def printLoop (i : Input) (colors : Option Captab) (width : ℕ) (S : Dynstuf Svstat) :
    ℕ → UInt64 → Option (List UInt8)
  | 0, _ => some []
  | turns + 1, k =>
    if k < S.items then
      (dynstufGet S k).join.bind fun sv =>
        (printLoop i colors width S turns (k + 1)).map
          (lineOf i colors width (svstatSetcap (svstatUnpack sv i.now)) ++ ·)
    else some []

/-- From the list of services to the listing -/
def list (i : Input) (colors : Option Captab) (optR : Bool) (sortBy : Option SortBy)
    (svstuf : Dynstuf Svstat) : Option (List UInt8) :=
  (queryLoop i svstuf.items.toNat 0 svstuf 0).bind fun out =>
    (sortBy.elim (some out.1) fun by_ => dynstufSort i.qsort by_.cmp out.1).bind fun S =>
      (if optR then dynstufReverse S else some S).bind fun S =>
        printLoop i colors out.2 S S.items.toNat 0

def afterOptions (i : Input) (out : Opts × List (List UInt8)) : Res Stop (List UInt8) :=
  let st := out.1
  (colors i st).bind fun colors =>
    (dynstufNew i.listMem.1 i.listMem.2).elim (.stopped .alloc) fun svstuf =>
      let base := basedir i st
      if i.chdir base then
        (svList i st base out.2 svstuf).bind fun sv =>
          let path := base ++ socketName
          if path.length < pathbufSize then
            match i.connect path with
            | .connected => Res.reading (list i colors st.optR sv.1 sv.2) .ok
            | .refused => .stopped (.fatal (.syserr [.text "perpd not running on control socket ",
              .str path]))
            | .failed => .stopped (.fatal (.syserr
              [.text "failure connecting to perpd control socket ", .str path]))
          else .stopped (.fatal (.syserr [.text "failure locating perpd control socket ",
            .str path]))
      else .stopped (.fatal (.syserr [.text "unable to chdir() to ", .str base]))

/-- `main()`: what it prints -/
def main (i : Input) : Res Stop (List UInt8) :=
  (options optCase ⟨optlist, by decide⟩ i.prog i.args ⟨none, false, true, false, false, false⟩).bind
    (afterOptions i)

/-! ## What it is for -/

def cmdline (i : Input) : List Opt × Final := parse optlist (i.args.map Text.bytes)

/-- An option, as the loop is to take it -/
def setOpt (st : Opts) (o : Opt) : Opts :=
  if o.1 = 98 then { st with basedir := o.2 }
  else if o.1 = 99 then { st with basedir := some [46] }
  else if o.1 = 71 then { st with optG := true, useColor := true }
  else if o.1 = 103 then { st with optG := false, useColor := false }
  else if o.1 = 75 then { st with optK := true }
  else if o.1 = 114 then { st with optR := true }
  else { st with optT := true }

def opts (i : Input) : Opts :=
  (cmdline i).1.foldl setOpt ⟨none, false, true, false, false, false⟩

/-- The services of the listing: those of the command line, or the directories of the base
directory that do not begin with `.` -/
def names (i : Input) (operands : List (List UInt8)) : List (List UInt8) :=
  if operands ≠ [] then operands
  else ((i.dir.getD []).filter fun e => ¬ (e.name.bytes.head? = some 46 ∨ e.isDir = false)).map
    (·.name.bytes)

/-- The services, queried one after the other -/
def rows (i : Input) (names : List (List UInt8)) : List Svstat :=
  names.mapIdx fun k name => svstatQuery (i.asked k name) (svstatInit (i.raw name) name)

def widest (names : List (List UInt8)) : ℕ := names.foldl (fun w name => max w name.length) 0

/-- The rows as they are to be printed: by name if no services have been named or `-t` is given,
and else as they have been named; the other way around with `-r`. -/
structure Ordered (sorted reversed : Bool) (rows order : List Svstat) : Prop where
  perm : order.Perm rows
  byName : sorted = true → (if reversed then order.reverse else order).Pairwise
    fun a b => a.name ≤ b.name
  asNamed : sorted = false → (if reversed then order.reverse else order) = rows

/-- The lines of the services, in an order: without colors, what follows the names stands in one
column, but no name is printed if there is one that is longer than `PADMAX`. -/
structure Lines (i : Input) (tab : Option Captab) (width : ℕ) (order : List Svstat)
    (out : List UInt8) : Prop where
  text : out = order.flatMap fun sv => lineOf i tab width (svstatSetcap (svstatUnpack sv i.now))
  column : tab = none → ∀ sv : Svstat,
    headOf tab width sv = ascii sv.panel.text ++ [32, 32] ++ (namePad sv.name width).getD [] ∧
      (headOf tab width sv).length = 13 + if width ≤ padMax then width else 0
  whole : width ≤ padMax → ∀ sv ∈ order,
    ∃ spaces, namePad sv.name width = some (sv.name ++ List.replicate spaces 32)

/-- What is printed: one line for each service -/
def Printed (i : Input) (out : List UInt8) : Prop :=
  ∃ operands order, (cmdline i).2 = .operands operands ∧
    Ordered (operands.isEmpty || (opts i).optT) (opts i).optR (rows i (names i operands)) order ∧
    Lines i ((capDb i (opts i)).bind fun db => captabInit (some db)) (widest (names i operands))
      order out

/-- Nothing is in the way of the listing. -/
structure Ready (i : Input) : Prop where
  letters : ∀ o ∈ (cmdline i).1, ¬ (o.1 = 104 ∨ o.1 = 86)
  operands : ∃ operands, (cmdline i).2 = .operands operands ∧
    (operands = [] → i.dir ≠ none) ∧ (names i operands).length + 1 < 2 ^ 59
  noCapabilities : (opts i).optK = false
  chdir : i.chdir (basedir i (opts i)) = true
  path : (basedir i (opts i) ++ socketName).length < pathbufSize
  connect : i.connect (basedir i (opts i) ++ socketName) = .connected
  listMem : i.listMem = (true, true)
  mem : ∀ got ∈ i.mem, got = true

end Perp.PerplsListing
