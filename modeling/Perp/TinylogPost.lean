import Perp.IoqGet
import Perp.Stamp8601

set_option autoImplicit false

/-!
# Lines of the log

tinylog between its input and its files: `do_log()`, `tinylog_post()`, and
`init_current()` and `tinylog_rotate()` as far as they decide which file is
open. Archives, their names and their number are not part of this.
-/
namespace Perp.TinylogPost
open Pkt IoqGet Stamp8601

def currentMax : ℕ := 100000
def loglineMax : ℕ := 1000
def inbufSize : ℕ := 1024

/-- A file that has been `current`: what it held when it was opened, and what
has been written to it since. -/
structure LogFile where
  found : List UInt8
  written : List UInt8
  deriving DecidableEq, Repr

def LogFile.size (f : LogFile) : ℕ := f.found.length + f.written.length

structure Tinylog where
  /-- the file at `fd_current` -/
  current : LogFile
  /-- the files that were rotated away, in order -/
  closed : List LogFile
  currentSize : ℕ
  currentMax : ℕ
  wantstamp : Bool
  flagrotate : ℕ
  deriving DecidableEq, Repr

/-- The log files of a run, in the order of their creation. -/
def Tinylog.files (t : Tinylog) : List LogFile := t.closed ++ [t.current]

/-- What goes on around one call of `tinylog_post()`: the SIGHUPs caught since
the last one, the clock, and the returns of `write()`. -/
structure Turn where
  hups : ℕ
  now : Tm
  writes : List WriteRet
  deriving DecidableEq, Repr

/-- `write_all()`: every error is tried again, and when the returns are used up
`write()` takes all that is left. -/
def writeAll (f : LogFile) : List UInt8 → List WriteRet → LogFile
  | buf, [] => { f with written := f.written ++ buf }
  | buf, .wrote w :: writes =>
    if buf.length = 0 then f
    else writeAll { f with written := f.written ++ buf.take w } (buf.drop w) writes
  | buf, .again :: writes | buf, .intr :: writes | buf, .error :: writes =>
    if buf.length = 0 then f else writeAll f buf writes

def tinylogRotate (t : Tinylog) : Tinylog :=
  if ¬ t.currentSize > 0 then { t with flagrotate := 0 }
  else
    { t with
      closed := t.closed ++ [t.current]
      current := ⟨[], []⟩
      currentSize := 0
      flagrotate := 0 }

/-- The difference of two `size_t` -/
def sizeSub (a b : ℕ) : ℕ := (a + 2 ^ 64 - b) % 2 ^ 64

/-- The test of `tinylog_post()` -/
def wantsRotate (t : Tinylog) (len : ℕ) : Bool :=
  t.flagrotate ≠ 0 || t.currentSize ≥ sizeSub t.currentMax len

def tinylogPost (t : Tinylog) (turn : Turn) (logline : List UInt8) : Tinylog :=
  let t := { t with flagrotate := t.flagrotate + turn.hups }
  let t := if wantsRotate t logline.length then tinylogRotate t else t
  { t with
    current := writeAll t.current logline turn.writes
    currentSize := (t.currentSize + logline.length) % 2 ^ 64 }

/-- The `current` that `stat()` finds. -/
structure Found where
  bytes : List UInt8
  /-- mode 0100, of a clean exit -/
  clean : Bool
  /-- `st_size` is an `off_t` -/
  size_lt : bytes.length < 2 ^ 63

structure Options where
  /-- the argument of `-s` -/
  size : Option UInt32
  /-- `-t` -/
  wantstamp : Bool
  /-- not `-r` -/
  resume : Bool
  deriving DecidableEq, Repr

/-- `current_max` as `main()` sets it -/
def maxOf : Option UInt32 → ℕ
  | none => currentMax
  | some n => if n.toNat < loglineMax * 2 then loglineMax * 2 else n.toNat

def initCurrent (o : Options) (found : Option Found) : Tinylog :=
  let bytes := match found with
    | none => []
    | some f => if ¬ f.clean then [] else if o.resume = false then [] else f.bytes
  { current := ⟨bytes, []⟩
    closed := []
    currentSize := bytes.length
    currentMax := maxOf o.size
    wantstamp := o.wantstamp
    flagrotate := 0 }

def startpos (wantstamp : Bool) : ℕ := if wantstamp then 24 else 0

/-- The filter for unprintable characters, on a `char` that is signed. -/
def filtered (c : UInt8) : UInt8 := if c.toInt8 < 32 ∧ c ≠ 9 then 63 else c

/-- The inner loop of `do_log()`: `line` is `logline` from `startpos` on. The
result is the last return of `ioq_GETC()`, the line and what `c` holds. -/
def collect (pos : ℕ) : ℕ → List UInt8 → UInt8 → Ioq → Input → ℤ × List UInt8 × UInt8 × Ioq × Input
  | 0, line, c, q, i => (1, line, c, q, i)
  | fuel + 1, line, c, q, i =>
    match ioqGetc q i c with
    | (r, c, q, i) =>
      if r ≠ 1 then (r, line, c, q, i)
      else if c = 10 then (r, line, c, q, i)
      else if pos + line.length < loglineMax then
        collect pos fuel (line ++ [filtered c]) (filtered c) q i
      else collect pos fuel line c q i

/-- What `do_log()` holds between two lines. -/
structure Logger where
  t : Tinylog
  q : Ioq
  i : Input
  c : UInt8
  /-- the last return of `ioq_GETC()` -/
  r : ℤ
  turns : ℕ → Turn

/-- What stands in `logline` before `startpos`. -/
def stamp (wantstamp : Bool) (now : Tm) : List UInt8 :=
  if wantstamp then bufWrite (stamp8601Make (List.replicate 24 0) now) 22 [58, 32] else []

/-- The line of `do_log()` with its timestamp and its newline. -/
def logline (wantstamp : Bool) (now : Tm) (line : List UInt8) : List UInt8 :=
  stamp wantstamp now ++ line ++ [10]

/-- The inner loop of `do_log()` gets by with a turn for each byte to come. -/
def collected (s : Logger) : ℤ × List UInt8 × UInt8 × Ioq × Input :=
  collect (startpos s.t.wantstamp) ((unread s.q s.i).length + 1) [] s.c s.q s.i

/-- What the next pass of `do_log()` hands to `tinylog_post()`. -/
def posting (s : Logger) : Option (List UInt8) :=
  match collected s with
  | (r, line, _) =>
    if r = -1 then none
    else if startpos s.t.wantstamp + line.length > startpos s.t.wantstamp then
      some (logline s.t.wantstamp (s.turns 0).now line)
    else none

/-- One pass of the outer loop of `do_log()`. -/
def doLogPass (s : Logger) : Logger :=
  match collected s with
  | (r, _, c, q, i) =>
    match posting s with
    | none => { s with q := q, i := i, c := c, r := r }
    | some line =>
      { t := tinylogPost s.t (s.turns 0) line
        q := q
        i := i
        c := c
        r := r
        turns := fun k => s.turns (k + 1) }

/-- `do_log()` after at most that many passes. It returns -1 on an error of
`read()`, and 0 at the end of the input. -/
def doLog : ℕ → Logger → Logger
  | 0, s => s
  | fuel + 1, s => if s.r = 1 then doLog fuel (doLogPass s) else s

/-- `do_log()` of a tinylog that has been started -/
def start (o : Options) (found : Option Found) (i : Input) (turns : ℕ → Turn) : Logger :=
  { t := initCurrent o found
    q := ioqInit inbufSize
    i := i
    c := 0
    r := 1
    turns := turns }

end Perp.TinylogPost
