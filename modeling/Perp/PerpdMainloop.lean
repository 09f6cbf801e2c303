import Perp.PerpdConn

set_option autoImplicit false

/-!
# The main loop

`perpd.c`: reaping, scanning, and the poll loop that interleaves them with the
clients. One iteration is a function of the state and of what the environment
does during it; a run is a list of such inputs.
-/
namespace Perp.PerpdMainloop
open PerpdState PerpdSvdef PerpdConn Pkt

/-- `PERP_MAX`, `PERPD_CONNMAX` -/
def perpMax : ℕ := 200
def perpdConnmax : ℕ := 20

/-- `svdefs[i] = svdefs[--nservices]` -/
def swapRemove {α : Type} (l : List α) (i : ℕ) : List α :=
  match l.getLast? with
  | none => l
  | some x => (l.set i x).dropLast

/-- The loop of `perpd_cull()` at index `i`, with `left` entries from there on. -/
def perpdCullLoop : ℕ → ℕ → Sys → List Svdef → Sys × List Svdef
  | 0, _, s, svdefs => (s, svdefs)
  | left + 1, i, s, svdefs =>
    match svdefs[i]? with
    | none => (s, svdefs)
    | some svdef =>
      if perpdSvdefCullok svdef then
        perpdCullLoop left i (perpdSvdefClose (s.emitSv svdef .cull) svdef) (swapRemove svdefs i)
      else perpdCullLoop left (i + 1) s svdefs

def perpdCull (s : Sys) (svdefs : List Svdef) : Sys × List Svdef :=
  perpdCullLoop svdefs.length 0 s svdefs

/-- The search for a dead child, main before log in each entry. -/
def findPid : List Svdef → ℕ → Option (ℕ × Which)
  | [], _ => none
  | svdef :: rest, pid =>
    if pid = svdef.svMain.pid then some (0, .main)
    else if pid = svdef.svLog.pid then some (0, .log)
    else (findPid rest pid).map (fun r => (r.1 + 1, r.2))

/-- The record of a dead child: if it terminates from running once, it wants down. -/
def reapedSv (subsv : Subsv) (wstat : ℕ) : Subsv :=
  let subsv := { subsv with pid := 0, wstat := wstat }
  if subsv.has .isonce then subsv.put .wantdown else subsv

/-- What `perpd_waitup()` does for the entry of a dead child. The flag is set
where control reaches the cull check at the end of the loop body. -/
def perpdReaped (s : Sys) (svdef : Svdef) (which : Which) (wstat : ℕ) : (Sys × Svdef) × Bool :=
  let s := s.emitSv svdef (.reap which wstat)
  let subsv := reapedSv (svdef.sv which) wstat
  let svdef := svdef.setSv which subsv
  if subsv.has .isreset = false then (perpdSvdefRun s svdef which .reset, false)
  else if subsv.has .wantdown = false then (perpdSvdefRun s svdef which .start, false)
  else if which = .main ∧ svdef.has .haslog ∧ svdef.svLog.has .wantdown ∧ 0 < svdef.svLog.pid then
    let s :=
      if svdef.svLog.has .isreset = false then
        kill (closeLogpipe s svdef) svdef .log svdef.svLog.pid .sigterm
      else s
    let s := kill s svdef .log svdef.svLog.pid .sigcont
    ((s, svdef.setSv .log (svdef.svLog.drop .ispaused)), false)
  else ((s, svdef), true)

/-- The loop of `perpd_waitup()` over what `waitpid(-1, &wstat, WNOHANG)`
returns: the pid of an unreaped child, and a status that is an exit or a death
by signal. `gotCull` and `gotCycle` count as in the source. -/
def perpdWaitupLoop : List (ℕ × ℕ) → ℕ → ℕ → Sys → List Svdef → (Sys × List Svdef) × ℕ × ℕ
  | [], gotCull, gotCycle, s, svdefs => ((s, svdefs), gotCull, gotCycle)
  | (pid, wstat) :: rest, gotCull, gotCycle, s, svdefs =>
    if 0 < pid ∧ (s.children pid).isSome ∧ (wIfexited wstat ∨ wIfsignaled wstat) then
      let s := s.waited pid
      match findPid svdefs pid with
      | none => perpdWaitupLoop rest gotCull gotCycle s svdefs
      | some (i, which) =>
        match svdefs[i]? with
        | none => perpdWaitupLoop rest gotCull gotCycle s svdefs
        | some svdef =>
          let r := perpdReaped s svdef which wstat
          let gotCull := if r.2 ∧ perpdSvdefCullok r.1.2 then gotCull + 1 else gotCull
          let gotCycle := if r.2 ∧ r.1.2.has .cycle then gotCycle + 1 else gotCycle
          perpdWaitupLoop rest gotCull gotCycle r.1.1 (svdefs.set i r.1.2)
    else perpdWaitupLoop rest gotCull gotCycle s svdefs

def perpdWaitup (reaps : List (ℕ × ℕ)) (s : Sys) (svdefs : List Svdef) : Sys × List Svdef :=
  let r := perpdWaitupLoop reaps 0 0 s svdefs
  let t := if 0 < r.2.1 then perpdCull r.1.1 r.1.2 else r.1
  (if 0 < r.2.2 then perpdTriggerScan t.1 else t.1, t.2)

/-- One name of the base directory, with what `stat()` and, if it comes to
that, the system calls of an activation answer. -/
structure Dirent where
  name : List Char
  st : Option Stat
  act : ActivateIn
  deriving DecidableEq, Repr

def perpdSvdirStat (d : Dirent) : Option Stat :=
  if d.name.head? = some '.' then none
  else d.st.filter (fun st => st.isDir && st.isSticky)

/-- The loop of `perpd_scan()` over the directory; the count is `got_fail`. -/
def perpdScanLoop : List Dirent → ℕ → Sys → List Svdef → (Sys × List Svdef) × ℕ
  | [], gotFail, s, svdefs => ((s, svdefs), gotFail)
  | d :: rest, gotFail, s, svdefs =>
    match perpdSvdirStat d with
    | none => perpdScanLoop rest gotFail s svdefs
    | some st =>
      match perpdLookup svdefs st.dev st.ino with
      | some i =>
        perpdScanLoop rest gotFail s (svdefs.modify i (fun svdef =>
          let svdef := perpdSvdefKeep svdef d.name
          if svdef.has .cull then svdef.put .cycle else svdef))
      | none =>
        if ¬ svdefs.length < perpMax then perpdScanLoop rest (gotFail + 1) s svdefs
        else
          match perpdSvdefActivate s d.name st d.act with
          | (s, none) => perpdScanLoop rest (gotFail + 1) s svdefs
          | (s, some svdef) => perpdScanLoop rest gotFail s (svdefs ++ [svdef.put .active])

/-- The pass of `perpd_scan()` over what was not flagged active, from index `i` on. -/
def perpdScanCull : ℕ → ℕ → ℕ → Sys → List Svdef → (Sys × List Svdef) × ℕ
  | 0, _, gotCull, s, svdefs => ((s, svdefs), gotCull)
  | left + 1, i, gotCull, s, svdefs =>
    match svdefs[i]? with
    | none => ((s, svdefs), gotCull)
    | some svdef =>
      if svdef.has .active then perpdScanCull left (i + 1) gotCull s svdefs
      else if svdef.has .cull = false then
        let r := perpdSvdefWantcull s svdef
        perpdScanCull left (i + 1) (if r.2 then gotCull + 1 else gotCull) r.1.1 (svdefs.set i r.1.2)
      else
        let svdef := svdef.drop .cycle
        perpdScanCull left (i + 1) (if perpdSvdefCullok svdef then gotCull + 1 else gotCull) s
          (svdefs.set i svdef)

/-- One run through the base directory: does `opendir()` succeed, which names
come, does `readdir()` end in an error. -/
structure ScanIn where
  opendirOk : Bool
  dirents : List Dirent
  readdirErr : Bool
  deriving DecidableEq, Repr

/-- `perpd_scan()`. `errno` at the end of the loop is that of `readdir()`. -/
def perpdScan (inp : ScanIn) (s : Sys) (svdefs : List Svdef) : Sys × List Svdef :=
  let s := s.emit .scan
  if inp.opendirOk = false then (s, svdefs)
  else
    let r := perpdScanLoop inp.dirents 0 s (svdefs.map (·.drop .active))
    if inp.readdirErr then (perpdTriggerScan r.1.1, r.1.2)
    else
      let c := perpdScanCull r.1.2.length 0 0 (r.1.1.emit .scanned) r.1.2
      let t := if 0 < c.2 then perpdCull c.1.1 c.1.2 else c.1
      (if 0 < r.2 then perpdTriggerScan t.1 else t.1, t.2)

/-- `perpd_svdef_checkfail()` on every entry from index `i` on. -/
def perpdCheckfailLoop : ℕ → ℕ → Sys → List Svdef → Sys × List Svdef
  | 0, _, s, svdefs => (s, svdefs)
  | left + 1, i, s, svdefs =>
    match svdefs[i]? with
    | none => (s, svdefs)
    | some svdef =>
      let r := perpdSvdefCheckfail s svdef
      perpdCheckfailLoop left (i + 1) r.1 (svdefs.set i r.2)

/-- `perpd_svdef_wantcull()` on every entry from index `i` on; the count is `got_cull`. -/
def perpdWantcullLoop : ℕ → ℕ → ℕ → Sys → List Svdef → (Sys × List Svdef) × ℕ
  | 0, _, gotCull, s, svdefs => ((s, svdefs), gotCull)
  | left + 1, i, gotCull, s, svdefs =>
    match svdefs[i]? with
    | none => ((s, svdefs), gotCull)
    | some svdef =>
      let r := perpdSvdefWantcull s svdef
      perpdWantcullLoop left (i + 1) (if r.2 then gotCull + 1 else gotCull) r.1.1 (svdefs.set i r.1.2)

/-- `revents` of a client socket; the last two only where they were asked for. -/
structure Revents where
  errHup : Bool
  pollin : Bool
  pollout : Bool
  deriving DecidableEq, Repr

/-- `poll()` reports only the events the state of the connection asks for. -/
def Revents.mask (rev : Revents) (state : ConnState) : Revents :=
  { rev with pollin := rev.pollin && state == .reading, pollout := rev.pollout && state == .writing }

def Revents.any (rev : Revents) : Bool := rev.errHup || rev.pollin || rev.pollout

/-- How `read()` and `write()` go for a client in this iteration. -/
structure ClientIn where
  rev : Revents
  reads : List ReadRet
  writes : List WriteRet
  deriving DecidableEq, Repr

/-- `accept()`, and `fd_nonblock()` on what it returned. -/
structure AcceptIn where
  ret : Option ℕ
  nonblockOk : Bool
  deriving DecidableEq, Repr

/-- What the environment does in one iteration. `signals` arrive before `poll()`
returns and `late` between that and the blocking of signals; `intr` calls of
`poll()` end in `EINTR` before the last, which may fail. -/
structure IterIn where
  signals : List Signal
  late : List Signal
  intr : ℕ
  pollErr : Bool
  clients : List ClientIn
  listen : Bool
  reaps : List (ℕ × ℕ)
  scan : ScanIn
  accept : AcceptIn
  deriving DecidableEq, Repr

/-- perpd between two iterations of its main loop. -/
structure Perpd where
  sys : Sys
  svdefs : List Svdef
  clients : List Conn
  argAutoscan : ℕ
  pollMax : ℤ
  pollInterval : ℤ
  pollRemain : ℤ
  /-- the status perpd has ended with -/
  exit : Option ℕ

/-- `perpd_conn_checkstale()` on every open connection. -/
def checkstaleLoop (now : Tain) : List Conn → Sys → Sys × List Conn
  | [], s => (s, [])
  | c :: cs, s =>
    let r := if c.connfd.isSome then perpdConnCheckstale s c now else (s, c)
    let rs := checkstaleLoop now cs r.1
    (rs.1, r.2 :: rs.2)

/-- The cull of closed connections at index `i`. -/
def connCullLoop : ℕ → ℕ → List Conn → List Conn
  | 0, _, cs => cs
  | left + 1, i, cs =>
    match cs[i]? with
    | none => cs
    | some c =>
      if c.connfd = none then connCullLoop left i (swapRemove cs i)
      else connCullLoop left (i + 1) cs

/-- A C `int`: the low 32 bits, signed. -/
def toInt32 (x : ℤ) : ℤ := (x + 2 ^ 31) % 2 ^ 32 - 2 ^ 31

/-- What one call of `pollio()` does to the clock and to `poll_remain`; `n` is
what `poll()` returned. -/
def pollio (s : Sys) (msecsMax : ℤ) (n : ℤ) (rem : ℤ) : Sys × ℤ :=
  let msecsMax := if msecsMax > 100000000 then 100000000 else msecsMax
  let before := if 0 < msecsMax then s.tainNow.1 else .zero
  let s := if 0 < msecsMax then s.tainNow.2 else s
  let s := if 0 < msecsMax ∧ 0 < n then s.tainNow.2 else s
  if n < 0 then (s, rem)
  else if msecsMax = 0 then (s, 0)
  else if msecsMax = -1 then (s, -1)
  else if n = 0 then (s, 0)
  else
    let after := s.tainNow.1
    let diff := if Tain.less before after then Tain.minus after before else Tain.minus before after
    -- both sides of the comparison are `uint64_t`
    let cap : UInt64 := .ofInt msecsMax
    let msecs := if diff.toMsecs > cap then cap else diff.toMsecs
    (s.tainNow.2, toInt32 (msecsMax - toInt32 msecs.toNat))

/-- The calls that are interrupted. -/
def pollIntr (msecsMax : ℤ) (rem : ℤ) : ℕ → Sys → Sys
  | 0, s => s
  | n + 1, s => pollIntr msecsMax rem n (pollio s msecsMax (-1) rem).1

/-- The loop over `clients[]`; the count is what is left of `nready`. -/
def clientLoop : List Conn → List ClientIn → ℕ → Sys → List Svdef → (Sys × List Svdef) × List Conn × ℕ
  | [], _, nready, s, svdefs => ((s, svdefs), [], nready)
  | c :: cs, inps, nready, s, svdefs =>
    let inp := inps.headD ⟨⟨false, false, false⟩, [], []⟩
    let rev := inp.rev.mask c.state
    if c.connfd = none then
      let r := clientLoop cs inps.tail nready s svdefs
      (r.1, c :: r.2.1, r.2.2)
    else if nready = 0 then ((s, svdefs), c :: cs, 0)
    else if rev.errHup then
      let x := perpdConnClose s c
      let r := clientLoop cs inps.tail (nready - 1) x.1 svdefs
      (r.1, x.2 :: r.2.1, r.2.2)
    else if rev.pollin then
      let x := perpdConnRead s svdefs c inp.reads
      let r := clientLoop cs inps.tail (nready - 1) x.1.1 x.1.2
      (r.1, x.2 :: r.2.1, r.2.2)
    else if rev.pollout then
      let x := perpdConnWrite s c inp.writes
      let r := clientLoop cs inps.tail (nready - 1) x.1 svdefs
      (r.1, x.2 :: r.2.1, r.2.2)
    else
      let r := clientLoop cs inps.tail nready s svdefs
      (r.1, c :: r.2.1, r.2.2)

/-- The number of descriptors `poll()` finds ready; while terminating only the
selfpipe is asked for. -/
def nreadyOf (w : Perpd) (inp : IterIn) : ℕ :=
  (if 0 < w.sys.selfpipe then 1 else 0) +
    (if w.sys.flagTerminating then 0
     else ((w.clients.zip inp.clients).filter (fun p => (p.2.rev.mask p.1.state).any)).length +
      (if inp.listen then 1 else 0))

/-- Before the poll: stale connections go, closed ones are culled, and the
interval for autoscan is set. -/
def loopTop (w : Perpd) : Perpd :=
  let r := checkstaleLoop w.sys.tainNow.1 w.clients w.sys.tainNow.2
  { w with
    sys := r.1
    clients := connCullLoop r.2.length 0 r.2
    pollInterval :=
      if 0 < w.argAutoscan then (if w.pollRemain < 100 then w.pollMax else w.pollRemain)
      else w.pollInterval }

/-- The poll, with signals unblocked. The result is `nready`, -1 on error; if
the selfpipe is ready it is taken off the count and drained. -/
def loopPoll (w : Perpd) (inp : IterIn) : Perpd × ℤ :=
  let w := { w with sys := inp.signals.foldl sigTrap w.sys }
  let nready : ℤ := if inp.pollErr then -1 else nreadyOf w inp
  let r := pollio (pollIntr w.pollInterval w.pollRemain inp.intr w.sys) w.pollInterval nready
    w.pollRemain
  let s := inp.late.foldl sigTrap r.1
  if 0 < w.sys.selfpipe ∧ inp.pollErr = false then
    ({ w with sys := { s with selfpipe := 0 }, pollRemain := r.2 }, nready - 1)
  else ({ w with sys := s, pollRemain := r.2 }, nready)

def closeClients : List Conn → Sys → Sys
  | [], s => s
  | c :: cs, s =>
    closeClients cs (match c.connfd with
      | some fd => s.close fd
      | none => s)

/-- `flag_term` -/
def loopTerm (w : Perpd) : Perpd :=
  if w.sys.flagTerm = 0 then w
  else
    let s := { w.sys.emit .term with flagTerminating := true, flagTerm := 0, flagHup := 0 }
    let s := closeClients w.clients (s.close s.fdListen)
    let r := perpdWantcullLoop w.svdefs.length 0 0 s w.svdefs
    let t := if 0 < r.2 then perpdCull r.1.1 r.1.2 else r.1
    { w with
      sys := t.1, svdefs := t.2, clients := []
      argAutoscan := 0, pollMax := -1, pollInterval := -1 }

/-- `flag_chld` -/
def loopChld (w : Perpd) (inp : IterIn) : Perpd :=
  if w.sys.flagChld = 0 then w
  else
    let t := perpdWaitup inp.reaps { w.sys with flagChld := 0 } w.svdefs
    { w with sys := t.1, svdefs := t.2 }

/-- `flag_hup`, or the interval for autoscan is over -/
def loopScan (w : Perpd) (inp : IterIn) : Perpd :=
  if w.sys.flagHup = 0 ∧ ¬ (0 < w.argAutoscan ∧ w.pollRemain < 100) then w
  else
    let t := perpdScan inp.scan { w.sys with flagHup := 0 } w.svdefs
    { w with sys := t.1, svdefs := t.2, pollInterval := w.pollMax }

/-- `flag_failing`; the flag says that the iteration ends here. -/
def loopFailing (w : Perpd) : Perpd × Bool :=
  if w.sys.flagFailing = 0 then (w, false)
  else if w.sys.flagTerminating then ({ w with exit := some 111 }, true)
  else
    let t := perpdCheckfailLoop w.svdefs.length 0 { w.sys with flagFailing := 0 } w.svdefs
    ({ w with sys := t.1, svdefs := t.2 }, decide (0 < t.1.flagFailing))

def loopAccept (w : Perpd) (inp : AcceptIn) : Perpd :=
  -- accept() fails on a listening socket that has been closed
  let ret := if w.sys.fds w.sys.fdListen = some .listen then inp.ret else none
  match w.sys.openFd ret .client with
  | (none, s) => { w with sys := s }
  | (some connfd, s) =>
    if inp.nonblockOk = false then { w with sys := s.close connfd }
    else if w.clients.length = perpdConnmax then { w with sys := s.close connfd }
    else
      let blank : Conn := ⟨none, .zero, .closed, List.replicate pktSize 0, 0, 0⟩
      let r := perpdConnStart s blank (some connfd)
      { w with sys := r.1, clients := w.clients ++ [r.2] }

/-- The clients, and then the listening socket. -/
def loopClients (w : Perpd) (inp : IterIn) (nready : ℕ) : Perpd :=
  if nready = 0 then w
  else
    let r := clientLoop w.clients inp.clients nready w.sys w.svdefs
    let w := { w with sys := r.1.1, svdefs := r.1.2, clients := r.2.1 }
    if r.2.2 = 0 then w
    else if inp.listen then loopAccept w inp.accept
    else w

/-- One iteration of `perpd_mainloop()`, after the test for its end. -/
def loopBody (w : Perpd) (inp : IterIn) : Perpd :=
  let p := loopPoll (loopTop w) inp
  if p.2 = -1 then p.1
  else
    let f := loopFailing (loopScan (loopChld (loopTerm p.1) inp) inp)
    if f.2 then f.1 else loopClients f.1 inp p.2.toNat

/-- `perpd_mainloop()` ends when everything is down; then `main()` dies with 0. -/
def perpdIterate (w : Perpd) (inp : IterIn) : Perpd :=
  if w.exit.isSome then w
  else if w.sys.flagTerminating ∧ w.svdefs = [] then { w with exit := some 0 }
  else loopBody w inp

/-- What perpd is started with: its option, its process, the descriptors that
are open when the loop begins, and what `fork()` and the clock will say. `main()`
opens `/dev/null` as 0, and what it opens next is 1 unless that was open before. -/
structure Config where
  argAutoscan : ℕ
  myPid : ℕ
  myWhen : Tain
  fds : ℕ → Option Obj
  fdListen : ℕ
  fds_listen : fds fdListen = some .listen
  fds_base : ∀ fd o, fds fd = some o → o = .other ∨ fd = fdListen ∧ o = .listen
  fds_std : fds 0 = some .other ∧ fds 1 = some .other
  forks : ℕ → Option ℕ
  clock : ℕ → Tain
  sysstrSignal : ℕ → Option (List Char)

/-- `perpd_mainloop()` before its first iteration. -/
def perpdStart (cfg : Config) : Perpd :=
  let s : Sys :=
    { flagChld := 0, flagHup := 0, flagTerm := 0, flagFailing := 0, flagTerminating := false,
      fdListen := cfg.fdListen, myPid := cfg.myPid, myWhen := cfg.myWhen, selfpipe := 0,
      fds := cfg.fds, children := fun _ => none, forks := cfg.forks, clock := cfg.clock,
      sysstrSignal := cfg.sysstrSignal, serial := 0, trace := [] }
  let pollMax := if toInt32 cfg.argAutoscan ≠ 0 then toInt32 (toInt32 cfg.argAutoscan * 1000) else -1
  { sys := perpdTriggerScan s, svdefs := [], clients := [], argAutoscan := cfg.argAutoscan,
    pollMax := pollMax, pollInterval := pollMax, pollRemain := 0, exit := none }

def perpdRun (cfg : Config) (inputs : List IterIn) : Perpd :=
  inputs.foldl perpdIterate (perpdStart cfg)

end Perp.PerpdMainloop
