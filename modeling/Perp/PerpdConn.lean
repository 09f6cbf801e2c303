import Perp.PerpdSvdef
import Perp.Pkt

set_option autoImplicit false

/-!
# Client connections

`perpd_conn.c`: signals and control commands for one subservice, the request
packets that carry them, and the state of a connection between two polls.
-/
namespace Perp.PerpdConn
open PerpdState PerpdSvdef Pkt

/-- The command byte of a control packet. -/
def Cmd.ofByte (b : UInt8) : Option Cmd :=
  match Char.ofNat b.toNat with
  | 'D' => some .metaDown
  | 'U' => some .metaUp
  | 'a' => some .alarm
  | 'c' => some .continue
  | 'd' => some .down
  | 'h' => some .hup
  | 'i' => some .interrupt
  | 'k' => some .kill
  | 'o' => some .once
  | 'p' => some .pause
  | 'q' => some .quit
  | 't' => some .term
  | 'u' => some .up
  | 'w' => some .winch
  | '1' => some .usr1
  | '2' => some .usr2
  | _ => none

def doKill (s : Sys) (svdef : Svdef) (which : Which) (sig : Signal) (isKillpg : Bool) : Sys :=
  let subsv := svdef.sv which
  if which = .log ∧ svdef.has .haslog = false then s
  else if ¬ 0 < subsv.pid then s
  else
    let pid : ℤ := if isKillpg then 0 - subsv.pid else subsv.pid
    if subsv.has .isreset = false then kill s svdef which pid sig
    -- running reset: only these two get through
    else if sig = .sigcont ∨ sig = .sigkill then kill s svdef which pid sig
    else s

/-- The commands of `do_control()` that end in `do_kill()` and nothing else. -/
def Cmd.signal : Cmd → Option Signal
  | .alarm => some .sigalrm
  | .hup => some .sighup
  | .interrupt => some .sigint
  | .kill => some .sigkill
  | .quit => some .sigquit
  | .term => some .sigterm
  | .winch => some .sigwinch
  | .usr1 => some .sigusr1
  | .usr2 => some .sigusr2
  | _ => none

def doSignal (s : Sys) (svdef : Svdef) (which : Which) (cmd : Cmd) (isKillpg : Bool) :
    Sys × Svdef :=
  let s := s.emitSv svdef (.control which cmd)
  match Cmd.signal cmd with
  | some sig => (doKill s svdef which sig isKillpg, svdef)
  | none => (s, svdef)

/-- case 'c' -/
def doContinue (s : Sys) (svdef : Svdef) (which : Which) (isKillpg : Bool) : Sys × Svdef :=
  let s := s.emitSv svdef (.control which .continue)
  let svdef := svdef.setSv which ((svdef.sv which).drop .ispaused)
  (doKill s svdef which .sigcont isKillpg, svdef)

/-- case 'd' -/
def doDown (s : Sys) (svdef : Svdef) (which : Which) (isKillpg : Bool) : Sys × Svdef :=
  let s := s.emitSv svdef (.control which .down)
  let svdef := svdef.setSv which ((svdef.sv which).put .wantdown)
  if 0 < (svdef.sv which).pid then
    let r := doSignal s svdef which .term isKillpg
    doContinue r.1 r.2 which isKillpg
  else (s, svdef)

/-- Cases 'o' and 'u': they differ in what they do to `ISONCE`. -/
def doStart (s : Sys) (svdef : Svdef) (which : Which) (cmd : Cmd) : Sys × Svdef :=
  let s := s.emitSv svdef (.control which cmd)
  let subsv := svdef.sv which
  let subsv := if cmd = .once then subsv.put .isonce else subsv.drop .isonce
  let svdef := svdef.setSv which (subsv.drop .wantdown)
  if (svdef.sv which).pid = 0 then perpdSvdefRun s svdef which .start else (s, svdef)

/-- case 'p' -/
def doPause (s : Sys) (svdef : Svdef) (which : Which) (isKillpg : Bool) : Sys × Svdef :=
  let s := s.emitSv svdef (.control which .pause)
  if 0 < (svdef.sv which).pid ∧ (svdef.sv which).has .isreset = false then
    let svdef := svdef.setSv which ((svdef.sv which).put .ispaused)
    (doKill s svdef which .sigstop isKillpg, svdef)
  else (s, svdef)

/-- `do_control()` on a recognized command. The meta commands are ignored on
the log and are the plain ones on both of the pair otherwise. -/
def doControl (s : Sys) (svdef : Svdef) (which : Which) (cmd : Cmd) (isKillpg : Bool) :
    Sys × Svdef :=
  match cmd with
  | .metaDown =>
    let s := s.emitSv svdef (.control which .metaDown)
    if which = .main then
      let r := doDown s svdef .main isKillpg
      doDown r.1 r.2 .log isKillpg
    else (s, svdef)
  | .metaUp =>
    let s := s.emitSv svdef (.control which .metaUp)
    if which = .main then
      let r := doStart s svdef .log .up
      doStart r.1 r.2 .main .up
    else (s, svdef)
  | .continue => doContinue s svdef which isKillpg
  | .down => doDown s svdef which isKillpg
  | .once => doStart s svdef which .once
  | .up => doStart s svdef which .up
  | .pause => doPause s svdef which isKillpg
  | cmd => doSignal s svdef which cmd isKillpg

inductive ConnState where
  | closed | reading | writing
  deriving DecidableEq, Repr

/-- `struct perpd_conn`; no descriptor is -1. -/
structure Conn where
  connfd : Option ℕ
  stamp : Tain
  state : ConnState
  pkt : List UInt8
  n : ℕ
  w : ℕ
  deriving DecidableEq, Repr

def eNOENT : UInt32 := 2
def eBUSY : UInt32 := 16
def eNOTDIR : UInt32 := 20
def ePROTO : UInt32 := 71
def eNOTSUP : UInt32 := 95

def svcmdFlagLog : UInt8 := 0x01
def svcmdFlagKillpg : UInt8 := 0x02

/-- `perpd_lookup()`: the place of the entry in `svdefs[]`. -/
def perpdLookup (svdefs : List Svdef) (dev ino : UInt64) : Option ℕ :=
  svdefs.findIdx? (fun sd => sd.ino == ino && sd.dev == dev)

def perpdConnExecReply (client : Conn) (err : UInt32) : Conn :=
  let pkt := (pktLoad client.pkt 2 69 (upak32Pack err)).1
  { client with pkt := pkt, n := pktLen pkt, w := 0, state := .writing }

/-- `perpd_conn_exec_control()`: 18 bytes of device, inode, command and flags. -/
def perpdConnExecControl (s : Sys) (svdefs : List Svdef) (client : Conn) :
    (Sys × List Svdef) × Conn :=
  let payload := pktData client.pkt
  let dev := upak64Unpack payload
  let ino := upak64Unpack (payload.drop 8)
  let cmd := byteAt payload 16
  let flags := byteAt payload 17
  match perpdLookup svdefs dev ino with
  | none => ((s, svdefs), perpdConnExecReply client eNOENT)
  | some i =>
    match svdefs[i]? with
    | none => ((s, svdefs), perpdConnExecReply client eNOENT)
    | some svdef =>
      if svdef.has .cull then ((s, svdefs), perpdConnExecReply client eBUSY)
      else
        let which : Which := if flags &&& svcmdFlagLog != 0 then .log else .main
        let isKillpg := flags &&& svcmdFlagKillpg != 0
        match Cmd.ofByte cmd with
        | none => ((s, svdefs), perpdConnExecReply client ePROTO)
        | some cmd =>
          let r := doControl s svdef which cmd isKillpg
          ((r.1, svdefs.set i r.2), perpdConnExecReply client 0)

/-- The 66 bytes of a status reply. -/
def statusPayload (s : Sys) (svdef : Svdef) : List UInt8 :=
  let subsv (v : Subsv) := upak32Pack (UInt32.ofNat v.pid) ++ v.when.pack ++ [v.bitflags, 0]
  upak32Pack (UInt32.ofNat s.myPid) ++ s.myWhen.pack ++
    svdef.when.pack ++ [svdef.bitflags, 0] ++
    subsv svdef.svMain ++
    (if svdef.has .haslog then subsv svdef.svLog else List.replicate 18 0)

def perpdConnExecQuery (s : Sys) (svdefs : List Svdef) (client : Conn) : Sys × Conn :=
  let input := pktData client.pkt
  let dev := upak64Unpack input
  let ino := upak64Unpack (input.drop 8)
  match (perpdLookup svdefs dev ino).bind (svdefs[·]?) with
  | none => (s, perpdConnExecReply client eNOTDIR)
  | some svdef =>
    let pkt := (pktLoad client.pkt 2 83 (statusPayload s svdef)).1
    (s.emitSv svdef .status, { client with pkt := pkt, n := pktLen pkt, w := 0, state := .writing })

/-- `perpd_conn_exec()`. A bad header is answered, and then the packet, which
by now is that answer, is dispatched like any other. -/
def perpdConnExec (s : Sys) (svdefs : List Svdef) (client : Conn) : (Sys × List Svdef) × Conn :=
  let n := client.n
  let s := s.emit (.request (client.pkt.take n))
  let client :=
    if n < pktHeader ∨ pktProto client.pkt ≠ 2 ∨ pktLen client.pkt ≠ n then
      perpdConnExecReply client ePROTO
    else client
  let type := pktType client.pkt
  if type = 67 then
    if n ≠ 18 + 3 then ((s, svdefs), perpdConnExecReply client ePROTO)
    else perpdConnExecControl s svdefs client
  else if type = 81 then
    if n ≠ 16 + 3 then ((s, svdefs), perpdConnExecReply client ePROTO)
    else
      let r := perpdConnExecQuery s svdefs client
      ((r.1, svdefs), r.2)
  else if type = 89 then ((s, svdefs), perpdConnExecReply client eNOTSUP)
  else ((s, svdefs), perpdConnExecReply client ePROTO)

def perpdConnReset (client : Conn) : Conn :=
  { client with connfd := none, state := .closed, n := 0, w := 0 }

def perpdConnClose (s : Sys) (client : Conn) : Sys × Conn :=
  (match client.connfd with
    | some fd => s.close fd
    | none => s,
   perpdConnReset client)

def perpdConnStart (s : Sys) (client : Conn) (connfd : Option ℕ) : Sys × Conn :=
  (s.tainNow.2,
    { client with connfd := connfd, stamp := s.tainNow.1, state := .reading, n := 0, w := 0 })

def perpdConnsecs : UInt64 := 8

def perpdConnCheckstale (s : Sys) (client : Conn) (now : Tain) : Sys × Conn :=
  if Tain.less client.stamp now ∧
      Tain.less (.load perpdConnsecs 0) (Tain.minus now client.stamp) then
    perpdConnClose s client
  else (s, client)

def perpdPktCheck (pkt : List UInt8) (n : ℕ) : Bool := !(n < pktHeader || n < pktLen pkt)

def perpdConnRead (s : Sys) (svdefs : List Svdef) (client : Conn) (outs : List ReadRet) :
    (Sys × List Svdef) × Conn :=
  let r := pktRead outs client.pkt client.n
  let client := { client with pkt := r.2 }
  if r.1 = -1 ∨ r.1 = 0 then
    let c := perpdConnClose s client
    ((c.1, svdefs), c.2)
  else
    let client := { client with n := client.n + r.1.toNat }
    if perpdPktCheck client.pkt client.n then perpdConnExec s svdefs client
    else ((s, svdefs), client)

def perpdConnWrite (s : Sys) (client : Conn) (outs : List WriteRet) : Sys × Conn :=
  let r := pktWrite outs client.pkt client.w
  let s := s.emit (.sent client.connfd r.2)
  if r.1 = -1 then perpdConnClose s client
  else
    let w := client.w + r.1.toNat
    if w = client.n then perpdConnStart s client client.connfd
    else (s, { client with w := w })

end Perp.PerpdConn
