import Perp.PerpdState

set_option autoImplicit false

/-!
# Service definitions

`perpd_svdef.c`. Each routine takes the system and one entry and returns both.
A `svdef` is changed in place by the C code, wherever it is in `svdefs[]`.
-/
namespace Perp.PerpdSvdef
open PerpdState

/-- `WTERMSIG`, `WIFEXITED`, `WEXITSTATUS` and `WIFSIGNALED` of a status of `waitpid()`. -/
def wTermsig (wstat : ℕ) : ℕ := wstat % 128
def wIfexited (wstat : ℕ) : Bool := wTermsig wstat = 0
def wExitstatus (wstat : ℕ) : ℕ := wstat / 256 % 256
def wIfsignaled (wstat : ℕ) : Bool := 0 < wTermsig wstat ∧ wTermsig wstat < 127

/-- The digits `nfmt_uint32()` writes: the last one, and before it those of `n / 10`. -/
def nfmtDigits : ℕ → ℕ → List Char
  | 0, _ => []
  | len + 1, n => (if n > 9 then nfmtDigits len (n / 10) else []) ++ [Char.ofNat (48 + n % 10)]

/-- `nfmt_uint32()`; ten digits hold every `uint32_t`. -/
def nfmtUint32 (n : ℕ) : List Char := nfmtDigits 10 (n % 2 ^ 32)

/-- `cstr_lcpy()` into a buffer of `len` bytes -/
def cstrLcpy (src : List Char) (len : ℕ) : List Char := src.take (len - 1)

/-- The additional arguments of a `reset`, decoded from `wstat`. -/
def resetArgs (sysstrSignal : ℕ → Option (List Char)) (wstat : ℕ) : List (List Char) :=
  if wIfexited wstat then ["exit".toList, nfmtUint32 (wExitstatus wstat)]
  else
    let n := if wIfsignaled wstat then wTermsig wstat else wExitstatus wstat
    [if wIfsignaled wstat then "signal".toList else "stopped".toList, nfmtUint32 n,
      (sysstrSignal n).getD "SIGUNKNOWN".toList]

def rcName : Which → List Char
  | .log => "./rc.log".toList
  | .main => "./rc.main".toList

def targetName : Target → List Char
  | .start => "start".toList
  | .reset => "reset".toList

/-- The argument vector `prog[]`. -/
def runProg (sysstrSignal : ℕ → Option (List Char)) (name : List Char) (which : Which)
    (target : Target) (wstat : ℕ) : List (List Char) :=
  [rcName which, targetName target, name] ++
    (if target = .reset then resetArgs sysstrSignal wstat else [])

/-- What the child does with descriptors 0 and 1; `none` where `dup2()` fails
and the child dies. -/
def childIo (fds : ℕ → Option Obj) (sd : Svdef) (which : Which) (target : Target) :
    Option ChildIo :=
  let io : ChildIo := ⟨fds 0, fds 1⟩
  if sd.has .haslog = false then some io
  else if which = .main then
    match Function.update fds 1 none sd.logpipe1 with
    | none => none
    | some o => some { io with stdout := some o }
  else if target = .start then
    match Function.update fds 0 none sd.logpipe0 with
    | none => none
    | some o => some { io with stdin := some o }
  else some io

/-- The fields `perpd_svdef_run()` initializes before `fork()`. -/
def aim (subsv : Subsv) (target : Target) : Subsv :=
  let subsv := match target with
    | .reset => subsv.put .isreset
    | .start => subsv.drop .isreset
  { subsv with pid := 0, wstat := 0 }.drop .failing

/-- The respawn governor: how long a child of this start waits. -/
def governor (subsv : Subsv) (target : Target) (now : Tain) : Tain :=
  if target = .start ∧ Tain.less now subsv.whenOk then Tain.minus subsv.whenOk now else .zero

/-- The parent's record of a successful `fork()`. -/
def forked (subsv : Subsv) (target : Target) (pid : ℕ) (now towait : Tain) : Subsv :=
  { subsv with
    pid := pid
    when := now
    whenOk := if target = .start then Tain.plus (Tain.plus now (.load 1 0)) towait
      else subsv.whenOk }

/-- `perpd_svdef_run()`. No caller looks at its return value. -/
def perpdSvdefRun (s : Sys) (sd : Svdef) (which : Which) (target : Target) : Sys × Svdef :=
  if which = .log ∧ sd.has .haslog = false then (s, sd)
  else if 0 < (sd.sv which).pid then (s, sd)
  else
    let subsv := aim (sd.sv which) target
    let sd := sd.setSv which subsv
    let prog := runProg s.sysstrSignal sd.name which target subsv.wstat
    let now := s.tainNow.1
    let s := s.tainNow.2
    let towait := governor subsv target now
    let ret := s.fork (sd.key, which)
    let s := ret.2.emitSv sd
      (.fork which target prog now towait (childIo s.fds sd which target) ret.1)
    match ret.1 with
    | none => (perpdTriggerFail s, sd.setSv which (subsv.put .failing))
    | some pid => (s, sd.setSv which (forked subsv target pid now towait))

/-- `stat()` of a name in the base directory. -/
structure Stat where
  dev : UInt64
  ino : UInt64
  isDir : Bool
  isSticky : Bool
  deriving DecidableEq, Repr

/-- What the system calls of an activation answer: `open()` of the service
directory, the flag files, `rc.log` (and whether it is executable), `pipe()`. -/
structure ActivateIn where
  openRet : Option ℕ
  flagDown : Bool
  flagOnce : Bool
  rcLog : Option Bool
  pipeRet : Option (ℕ × ℕ)
  deriving DecidableEq, Repr

/-- The entry as the inspection of the service directory leaves it. -/
def inspected (svdir : List Char) (st : Stat) (d : ActivateIn) (now : Tain) (fd : ℕ) : Svdef :=
  let svdef : Svdef :=
    { dev := st.dev, ino := st.ino, fdDir := fd, name := cstrLcpy svdir 32, when := now,
      bitflags := 0, logpipe0 := 0, logpipe1 := 0, svMain := .clear, svLog := .clear }
  let svdef := svdef.put .active
  let svdef := if d.flagDown then svdef.put .down else svdef
  let svdef := if d.flagOnce then svdef.put .once else svdef
  if d.rcLog = some true then svdef.put .haslog else svdef

/-- `perpd_svdef_activate()` from where the service is considered activated:
the log is started whatever the flag files say, main unless it is down. -/
def firstStart (s : Sys) (svdef : Svdef) : Sys × Svdef :=
  let r :=
    if svdef.has .haslog then
      perpdSvdefRun s (svdef.setSv .log (svdef.svLog.put .islog)) .log .start
    else (s, svdef)
  let svdef := r.2
  if svdef.has .down = false then
    perpdSvdefRun r.1
      (if svdef.has .once then svdef.setSv .main (svdef.svMain.put .isonce) else svdef) .main .start
  else (r.1, svdef.setSv .main (svdef.svMain.put .wantdown))

/-- `perpd_svdef_activate()`; no entry is -1. -/
def perpdSvdefActivate (s : Sys) (svdir : List Char) (st : Stat) (d : ActivateIn) :
    Sys × Option Svdef :=
  let n := s.serial
  let s := { s with serial := n + 1 }
  if svdir.length > 240 then (s, none)
  else
    let now := s.tainNow.1
    let s := s.tainNow.2
    let key := (st.dev, st.ino)
    match s.openFd d.openRet (.svdir key n) with
    | (none, s) => (s, none)
    | (some fd, s) =>
      let svdef := inspected svdir st d now fd
      if svdef.has .haslog then
        match s.pipe d.pipeRet (.logpipe0 key n) (.logpipe1 key n) with
        | (none, s) => (s.close fd, none)
        | (some (fd0, fd1), s) =>
          let svdef := { svdef with logpipe0 := fd0, logpipe1 := fd1 }
          let r := firstStart (s.emitSv svdef (.activate n)) svdef
          (r.1, some r.2)
      else
        let r := firstStart (s.emitSv svdef (.activate n)) svdef
        (r.1, some r.2)

def perpdSvdefKeep (svdef : Svdef) (svdir : List Char) : Svdef :=
  { svdef.put .active with name := cstrLcpy svdir 32 }

/-- `perpd_svdef_checkfail()` for one of the pair. -/
def checkfailOne (s : Sys) (sd : Svdef) (which : Which) : Sys × Svdef :=
  if (sd.sv which).has .failing then
    perpdSvdefRun s sd which (if (sd.sv which).has .isreset then .reset else .start)
  else (s, sd)

def perpdSvdefCheckfail (s : Sys) (sd : Svdef) : Sys × Svdef :=
  let s := s.emitSv sd .checkfail
  if sd.has .active = false then (s, sd)
  else
    let r := if sd.has .haslog then checkfailOne s sd .log else (s, sd)
    checkfailOne r.1 r.2 .main

/-- `kill()`; nobody but the trace sees its outcome. -/
def kill (s : Sys) (sd : Svdef) (which : Which) (target : ℤ) (sig : Signal) : Sys :=
  s.emitSv sd (.kill which target sig)

/-- `close(svdef->logpipe[1]); close(svdef->logpipe[0])` -/
def closeLogpipe (s : Sys) (sd : Svdef) : Sys :=
  let s := s.emitSv sd (.closeLog (s.fds sd.logpipe1) (s.fds sd.logpipe0))
  (s.close sd.logpipe1).close sd.logpipe0

@[simp] theorem closeLogpipe_flagTerminating (s : Sys) (sd : Svdef) :
    (closeLogpipe s sd).flagTerminating = s.flagTerminating := by
  simp only [closeLogpipe, Sys.close, Sys.emitSv, Sys.emit]

@[simp] theorem closeLogpipe_fdListen (s : Sys) (sd : Svdef) :
    (closeLogpipe s sd).fdListen = s.fdListen := by
  simp only [closeLogpipe, Sys.close, Sys.emitSv, Sys.emit]

@[simp] theorem closeLogpipe_children (s : Sys) (sd : Svdef) :
    (closeLogpipe s sd).children = s.children := by
  simp only [closeLogpipe, Sys.close, Sys.emitSv, Sys.emit]

@[simp] theorem closeLogpipe_clock (s : Sys) (sd : Svdef) :
    (closeLogpipe s sd).clock = s.clock := by
  simp only [closeLogpipe, Sys.close, Sys.emitSv, Sys.emit]

/-- The flags `perpd_svdef_wantcull()` sets to initiate termination. -/
def cullFlags (sd : Svdef) : Svdef :=
  let sd := sd.put .cull
  let sd := sd.setSv .main (sd.svMain.put .wantdown)
  if sd.has .haslog then sd.setSv .log (sd.svLog.put .wantdown) else sd

/-- `perpd_svdef_wantcull()`; the flag is its return value 1. -/
def perpdSvdefWantcull (s : Sys) (sd : Svdef) : (Sys × Svdef) × Bool :=
  let s := s.emitSv sd .wantcull
  let sd := cullFlags sd
  if 0 < sd.svMain.pid then
    let s := if sd.svMain.has .isreset = false then kill s sd .main sd.svMain.pid .sigterm else s
    let sd := sd.setSv .main (sd.svMain.drop .ispaused)
    ((kill s sd .main sd.svMain.pid .sigcont, sd), false)
  else if sd.has .haslog ∧ 0 < sd.svLog.pid then
    let s :=
      if sd.svLog.has .isreset = false then
        kill (closeLogpipe s sd) sd .log sd.svLog.pid .sigterm
      else s
    let sd := sd.setSv .log (sd.svLog.drop .ispaused)
    ((kill s sd .log sd.svLog.pid .sigcont, sd), false)
  else ((s, sd), true)

def perpdSvdefCullok (sd : Svdef) : Bool :=
  sd.has .cull && !decide (0 < sd.svMain.pid) && !(sd.has .haslog && decide (0 < sd.svLog.pid))

def perpdSvdefClose (s : Sys) (sd : Svdef) : Sys := s.close sd.fdDir

end Perp.PerpdSvdef
