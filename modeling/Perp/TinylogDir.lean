import Mathlib.Logic.Function.Basic
import Perp.LinkDir
import Perp.TinylogPost
import Perp.TinylogPrune

set_option autoImplicit false

/-!
# The log directory

tinylog between the system calls that touch its directory: `init_current()`,
`tinylog_post()`, `tinylog_rotate()`, `tinylog_keep()` and `tinylog_gzip()` as
steps, any of which may be the last before a crash.
-/
namespace Perp.TinylogDir
open LinkDir Stamp8601 TinylogPost

abbrev Name := List UInt8

/-- "current" -/
def nmCurrent : Name := [99, 117, 114, 114, 101, 110, 116]
/-- "previous" -/
def nmPrevious : Name := [112, 114, 101, 118, 105, 111, 117, 115]
/-- "zipped" -/
def nmZipped : Name := [122, 105, 112, 112, 101, 100]
/-- `ZIP_EXT`, ".Z" -/
def zipExt : Name := [46, 90]
/-- `fn8601` as it is initialised, "_yyyymmddThhmmss.uuuuuu.?.Z" -/
def fn8601Init : Name :=
  [95, 121, 121, 121, 121, 109, 109, 100, 100, 84, 104, 104, 109, 109, 115, 115, 46, 117, 117, 117,
    117, 117, 117, 46, 63, 46, 90]

/-- `fn8601` for a moment and an extension -/
def fn8601 (now : Tm) (ext : UInt8) : Name :=
  95 :: stamp8601Make (List.replicate 22 0) now ++ [46, ext]

/-- Names with an underscore, which only archives get. -/
def archival (n : Name) : Bool := n.head? = some 95

/-- The names under which logs are looked for. -/
def logName (n : Name) : Bool := n = nmCurrent || n = nmPrevious || archival n

structure File where
  /-- what was written to it; of a zipped file, what it unzips to -/
  bytes : List UInt8
  /-- mode 0100 -/
  clean : Bool
  deriving DecidableEq, Repr

structure Disk where
  names : Names Name
  file : ℕ → File
  /-- the next file to be created -/
  next : ℕ
  /-- the files that have been opened as `current` -/
  logs : List ℕ
  /-- the logs that have been linked under an archive name -/
  archived : List ℕ
  /-- the log that a zipped file was made from; any other file is its own -/
  copyOf : ℕ → ℕ
  /-- of each log, how many bytes were in archives that were pruned -/
  prunedLen : ℕ → ℕ
  /-- the logs that had no archive when `rename()` or `unlink()` took their last name -/
  lost : List ℕ

namespace Disk

/-- `rename()` or `unlink()` leaves these names. -/
def leave (d : Disk) (names : Names Name) : Disk :=
  { d with
    names := names
    lost := d.lost ++
      d.logs.filter fun i => 0 < nlink d.names i && nlink names i = 0 && i ∉ d.archived }

def unlink (d : Disk) (n : Name) : Disk := d.leave (LinkDir.unlink d.names n)

def rename (d : Disk) (a b : Name) : Disk := d.leave (LinkDir.rename d.names a b)

/-- A log `i` gets an archive name. -/
def archive (d : Disk) (n : Name) (i : ℕ) : Disk :=
  { d with names := LinkDir.link d.names n i, archived := i :: d.archived }

/-- A new file under a free name; `copy` is the log that it will be made from. -/
def create (d : Disk) (n : Name) (copy : ℕ) : Disk :=
  { d with
    names := LinkDir.link d.names n d.next
    file := Function.update d.file d.next ⟨[], false⟩
    next := d.next + 1
    copyOf := Function.update d.copyOf d.next copy }

/-- `open()` of `current`, which creates it if need be: the file and the disk. -/
def openCurrent (d : Disk) : ℕ × Disk :=
  match lookup d.names nmCurrent with
  | some i => (i, { d with logs := i :: d.logs })
  | none => (d.next, { d.create nmCurrent d.next with logs := d.next :: d.logs })

def chmod (d : Disk) (i : ℕ) (clean : Bool) : Disk :=
  { d with file := Function.update d.file i { d.file i with clean := clean } }

def append (d : Disk) (i : ℕ) (data : List UInt8) : Disk :=
  { d with file := Function.update d.file i { d.file i with bytes := (d.file i).bytes ++ data } }

/-- gzip has made a file `z` out of the file `i`; `data` is what it unzips to. -/
def fill (d : Disk) (z i : ℕ) (data : List UInt8) : Disk :=
  { d with
    file := Function.update d.file z { d.file z with bytes := data }
    copyOf := Function.update d.copyOf z (d.copyOf i) }

/-- `open()` of "zipped" with `O_CREAT | O_TRUNC`, for the file `i` -/
def openZipped (d : Disk) (i : ℕ) : Disk :=
  match lookup d.names nmZipped with
  | some z => d.fill z i []
  | none => d.create nmZipped (d.copyOf i)

/-- `unlink()` of an archive in `tinylog_prune()` -/
def prune (d : Disk) (n : Name) : Disk :=
  match lookup d.names n with
  | none => d
  | some j =>
    { d.unlink n with
      prunedLen := Function.update d.prunedLen (d.copyOf j)
        (max (d.prunedLen (d.copyOf j)) (d.file j).bytes.length) }

end Disk

/-- The caller of `tinylog_keep()` -/
inductive Ret where
  | initCurrent | rotate
  deriving DecidableEq, Repr

/-- The argument `log` of `tinylog_keep()` -/
def Ret.log : Ret → Name
  | .initCurrent => nmCurrent
  | .rotate => nmPrevious

/-- The next system call. -/
inductive Pc where
  /-- `stat()` in `init_current()` -/
  | stat
  | keepStat (r : Ret)
  | keepLink (r : Ret)
  | keepUnlink (r : Ret)
  | gzipFork (r : Ret)
  | gzipWait (r : Ret)
  | gzipRename (r : Ret)
  | gzipChmod (r : Ret)
  /-- the `unlink()` of a file that gzip has failed to make -/
  | gzipUndo (r : Ret) (n : Name)
  | gzipUnlink (r : Ret)
  | prune (r : Ret)
  | openCurrent (r : Ret)
  | chmodCurrent (r : Ret)
  /-- `do_log()` is between two lines -/
  | ready
  /-- `rename()` in `tinylog_rotate()` -/
  | renameCurrent
  | write
  /-- `fchmod()` at the end of `do_log()` -/
  | closing
  deriving DecidableEq, Repr

structure Opts where
  size : Option UInt32
  resume : Bool
  wantzip : Bool
  deriving DecidableEq, Repr

structure Proc where
  opts : Opts
  pc : Pc
  fd : ℕ
  currentSize : ℕ
  flagrotate : ℕ
  fn8601 : Name
  /-- the argument `ext` of `tinylog_keep()` -/
  ext : UInt8
  /-- the rest of the line that is being written -/
  left : List UInt8
  /-- the length of that line -/
  len : ℕ
  deriving DecidableEq, Repr

structure World where
  disk : Disk
  /-- tinylog, or none when it does not run -/
  proc : Option Proc
  /-- the processes that wait for `proc` in `tinylog_gzip()` -/
  parents : List Proc

inductive Act where
  | start (o : Opts)
  | ok
  | fails
  /-- `link()`, with the clock before it -/
  | clock (now : Tm) (ok : Bool)
  /-- a gzip child returns where it should run gzip -/
  | childReturns
  /-- gzip ends; if it fails, `output` is what it has made -/
  | exited (ok : Bool) (output : List UInt8)
  | pruned (n : Name)
  | post (hups : ℕ) (line : List UInt8)
  | eof
  | wrote (k : ℕ)
  /-- the process ends, with success or not -/
  | dies (ok : Bool)
  /-- all processes end -/
  | crash
  deriving DecidableEq, Repr

def proc0 (o : Opts) : Proc :=
  { opts := o
    pc := .stat
    fd := 0
    currentSize := 0
    flagrotate := 0
    fn8601 := fn8601Init
    ext := 0
    left := []
    len := 0 }

/-- A process that has waited for one that ends goes on with the status. -/
def Proc.resumed (p : Proc) (ok : Bool) : Proc :=
  match p.pc with
  | .gzipWait r => { p with pc := if ok then .gzipRename r else .gzipUndo r nmZipped }
  | _ => p

def World.ends (w : World) (d : Disk) (ok : Bool) : World :=
  match w.parents with
  | [] => ⟨d, none, []⟩
  | p :: parents => ⟨d, some (p.resumed ok), parents⟩

/-- The rest of `tinylog_post()` after its test -/
def Proc.posting (p : Proc) (line : List UInt8) : Proc :=
  { p with pc := .write, left := line, len := line.length }

/-- A step of the process `p`: what becomes of the disk and of the process. -/
def procStep (d : Disk) (p : Proc) (a : Act) : Option (Disk × Proc) :=
  match p.pc, a with
  | .stat, .ok =>
    match lookup d.names nmCurrent with
    | none => some (d, { p with pc := .openCurrent .initCurrent, currentSize := 0 })
    | some i =>
      if ¬ (d.file i).clean then
        some (d, { p with pc := .keepStat .initCurrent, ext := 117, currentSize := 0 })
      else if p.opts.resume = false then
        some (d, { p with pc := .keepStat .initCurrent, ext := 115, currentSize := 0 })
      else
        some (d, { p with pc := .openCurrent .initCurrent, currentSize := (d.file i).bytes.length })
  | .keepStat r, .ok =>
    match lookup d.names r.log with
    | none => some (d, { p with pc := .openCurrent r })
    | some i =>
      if nlink d.names i = 1 then some (d, { p with pc := .keepLink r })
      else some (d, { p with pc := .keepUnlink r })
  | .keepStat _, .fails => some (d, p)
  | .keepLink r, .clock now ok =>
    let p := { p with fn8601 := TinylogDir.fn8601 now p.ext }
    match lookup d.names r.log, lookup d.names p.fn8601, ok with
    | some i, none, true => some (d.archive p.fn8601 i, { p with pc := .keepUnlink r })
    | _, _, _ => some (d, p)
  | .keepUnlink r, .ok =>
    match lookup d.names r.log with
    | none => some (d, p)
    | some _ => some (d.unlink r.log, { p with pc := if p.opts.wantzip then .gzipFork r else .prune r })
  | .keepUnlink _, .fails => some (d, p)
  | .gzipFork r, .ok =>
    match lookup d.names p.fn8601 with
    | none => none
    | some i => some (d.openZipped i, { p with pc := .gzipWait r })
  | .gzipFork _, .fails => some (d, p)
  | .gzipWait r, .exited ok output =>
    match lookup d.names nmZipped, lookup d.names p.fn8601 with
    | some z, some i =>
      if ok then some (d.fill z i (d.file i).bytes, { p with pc := .gzipRename r })
      else some (d.fill z i output, { p with pc := .gzipUndo r nmZipped })
    | _, _ => none
  | .gzipWait _, .fails => some (d, p)
  | .gzipRename r, .ok =>
    match lookup d.names nmZipped with
    | none => some (d, { p with pc := .gzipUndo r nmZipped })
    | some _ => some (d.rename nmZipped (p.fn8601 ++ zipExt), { p with pc := .gzipChmod r })
  | .gzipRename r, .fails => some (d, { p with pc := .gzipUndo r nmZipped })
  | .gzipChmod r, .ok => some (d, { p with pc := .gzipUnlink r })
  | .gzipChmod r, .fails => some (d, { p with pc := .gzipUndo r (p.fn8601 ++ zipExt) })
  | .gzipUndo r n, .ok => some (d.unlink n, { p with pc := .prune r })
  | .gzipUndo r _, .fails => some (d, { p with pc := .prune r })
  | .gzipUnlink r, .ok =>
    match lookup d.names p.fn8601 with
    | none => some (d, p)
    | some _ => some (d.unlink p.fn8601, { p with pc := .prune r })
  | .gzipUnlink _, .fails => some (d, p)
  | .prune _, .pruned n => if archival n then some (d.prune n, p) else none
  | .prune r, .ok => some (d, { p with pc := .openCurrent r })
  | .openCurrent r, .ok => some (d.openCurrent.2, { p with pc := .chmodCurrent r, fd := d.openCurrent.1 })
  | .openCurrent .rotate, .fails => some (d, p)
  | .chmodCurrent .initCurrent, .ok => some (d.chmod p.fd false, { p with pc := .ready })
  | .chmodCurrent .rotate, .ok =>
    some (d.chmod p.fd false, { p with pc := .write, currentSize := 0, flagrotate := 0 })
  | .chmodCurrent .rotate, .fails => some (d, p)
  | .ready, .post hups line =>
    let p := { p with flagrotate := p.flagrotate + hups }
    if p.flagrotate ≠ 0 || p.currentSize ≥ sizeSub (maxOf p.opts.size) line.length then
      if p.currentSize > 0 then some (d, { p.posting line with pc := .renameCurrent })
      else some (d, { p.posting line with flagrotate := 0 })
    else some (d, p.posting line)
  | .ready, .eof => some (d, { p with pc := .closing })
  | .renameCurrent, .ok =>
    match lookup d.names nmCurrent with
    | none => some (d, p)
    | some _ => some (d.rename nmCurrent nmPrevious, { p with pc := .keepStat .rotate, ext := 115 })
  | .renameCurrent, .fails => some (d, p)
  | .write, .wrote k =>
    if p.left.length ≤ k then
      some (d.append p.fd p.left,
        { p with pc := .ready, left := [], currentSize := (p.currentSize + p.len) % 2 ^ 64 })
    else some (d.append p.fd (p.left.take k), { p with left := p.left.drop k })
  | .write, .fails => some (d, p)
  | _, _ => none

def step (w : World) (a : Act) : Option World :=
  match w.proc, a with
  | none, .start o => some { w with proc := some (proc0 o) }
  | none, _ => none
  | some _, .crash => some ⟨w.disk, none, []⟩
  | some _, .dies ok => some (w.ends w.disk ok)
  | some p, .childReturns =>
    match p.pc with
    | .gzipFork r =>
      some { w with
        proc := some { p with pc := .prune r }
        parents := { p with pc := .gzipWait r } :: w.parents }
    | _ => none
  | some p, a =>
    match p.pc, a with
    | .closing, .ok => some (w.ends (w.disk.chmod p.fd true) true)
    | _, _ => (procStep w.disk p a).map fun r => { w with disk := r.1, proc := some r.2 }

end Perp.TinylogDir
