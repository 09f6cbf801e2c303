import Perp.Execvx
import Perp.Runargs
import Perp.RunenvDir
import Perp.RuntoolFdset
import Perp.Settings
import Perp.Stages
import Perp.Stamp8601

set_option autoImplicit false

/-!
# The whole of runtool

`main()`: the options, the files of arguments and of variables, the operations on the process,
and the program at the end.
-/
namespace Perp.Runtool
open Cstr (Text)
open FileLines
open Items (Run)
open IoqGetln (Mem)
open Newenv (environ newenvMerge)
open Nextopt (Opt Final Seen parse)
open Nuscan (nuscanUint32 nuscanUint32o)
open OptionLoop
open Refusal
open Rlimit (RlimitDef)
open RunenvDir (Source Dir setVar runtoolDoEnvdir)
open RunenvFile (Env Setting)
open Runlimit (optError)
open RuntoolFdset (FdCall FdSystem doFdset)
open RuntoolRlimit (Fatal SetLimit doRunlimit)
open Stamp8601 (nfmtUint32)

/-! ## The options -/

/-- The variables `arg_alias` to `arg_umask` of `main()` -/
inductive Arg where
  | alias_ | argfile | chdir | chroot | env | envuid | fdset | pidlock | rlimit | search | setlock
  | setuid | sleep | umask
  deriving DecidableEq, Repr

structure Opts where
  arg : Arg → Option (List UInt8)
  argInsert : Bool
  detach : Bool
  envMerge : Bool
  setsid : Bool

def initial : Opts := ⟨fun _ => none, false, false, true, false⟩

/-- How the program ends before it has become another one -/
inductive Stop where
  | options (e : Runlimit.Fatal)
  | args (e : Runargs.Stop)
  | env (e : RunenvFile.Stop)
  | step (e : Fatal)
  /-- `unable to run`, with the name if there is one: else the message breaks off there. -/
  | unrun (name : Option (List UInt8))
  deriving DecidableEq, Repr

/-- `":hV0:a:A:c:C:de:E:F:L:m:P:R:sS:u:U:Wz:"` -/
def optlist : List UInt8 :=
  [58, 104, 86, 48, 58, 97, 58, 65, 58, 99, 58, 67, 58, 100, 101, 58, 69, 58, 70, 58, 76, 58, 109,
    58, 80, 58, 82, 58, 115, 83, 58, 117, 58, 85, 58, 87, 122, 58]

/-- `arg_... = nopt.opt_arg;` -/
def take (st : Opts) (a : Arg) (e : Seen) : Res Stop Opts :=
  Res.reading e.arg fun s => .ok { st with arg := Function.update st.arg a (some s) }

def optCase (e : Seen) (st : Opts) : Res Stop Opts :=
  if e.ret = 104 ∨ e.ret = 86 then .stopped (.options (.exit 0))
  else if e.ret = 48 then take st .alias_ e
  else if e.ret = 97 then take { st with argInsert := false } .argfile e
  else if e.ret = 65 then take { st with argInsert := true } .argfile e
  else if e.ret = 99 then take st .chdir e
  else if e.ret = 67 then take st .chroot e
  else if e.ret = 100 then .ok { st with detach := true, setsid := true }
  else if e.ret = 101 then take { st with envMerge := true } .env e
  else if e.ret = 69 then take { st with envMerge := false } .env e
  else if e.ret = 70 then take st .fdset e
  else if e.ret = 76 then take st .setlock e
  else if e.ret = 109 then take st .umask e
  else if e.ret = 80 then take st .pidlock e
  else if e.ret = 82 then take st .rlimit e
  else if e.ret = 115 then .ok { st with setsid := true }
  else if e.ret = 83 then take st .search e
  else if e.ret = 117 then take st .setuid e
  else if e.ret = 85 then take st .envuid e
  -- warnings go to stderr only
  else if e.ret = 87 then .ok st
  else if e.ret = 122 then take st .sleep e
  else .stopped (.options (optError e))

/-! ## The operations on the process -/

/-- What has been done to the process -/
inductive Deed where
  /-- The parent has left. -/
  | fork
  /-- with the return, of which there is only a warning -/
  | setsid (ok : Bool)
  | lock (file : List UInt8) (pid wait : Bool)
  | umask (mode : UInt32)
  | fd (call : FdCall)
  | limit (set : SetLimit)
  | chdir (path : List UInt8)
  | chroot (path : List UInt8)
  | setgroups (gid : UInt32)
  | setgid (gid : UInt32)
  | setuid (uid : UInt32)
  /-- `sleep()`, or `pause()` if there are no seconds -/
  | sleep (secs : UInt32)
  deriving DecidableEq, Repr

structure Passwd where
  uid : UInt32
  gid : UInt32
  deriving DecidableEq, Repr

/-- Which calls of the system succeed, and what it knows -/
structure System (defs : List RlimitDef) where
  fork : Bool
  setsid : Bool
  pidlockSet : List UInt8 → Bool → Bool → Bool
  fds : FdSystem
  limits : RuntoolRlimit.System defs
  chdir : List UInt8 → Bool
  chroot : List UInt8 → Bool
  /-- `getuid() == 0` -/
  root : Bool
  getpwnam : List UInt8 → Option Passwd
  setgroups : UInt32 → Bool
  setgid : UInt32 → Bool
  setuid : UInt32 → Bool

/-- What `stat()` finds -/
inductive Kind where
  | file
  | dir
  | other
  deriving DecidableEq, Repr

/-- What the program is run with: its arguments and environment, the files, the memory behind
the buffer of the queue, the system, the arrays on the stack as they are, and the answers of
`execve()` with the largest length of a path and `errno` -/
structure Input (defs : List RlimitDef) where
  prog : Text
  args : List Text
  envp : List (List UInt8)
  path : Option (List UInt8)
  file : List UInt8 → Option Source
  kind : List UInt8 → Option Kind
  dir : List UInt8 → Dir
  behind : List UInt8
  sys : System defs
  target : {b : List UInt8 // b.length = 400}
  nbuf : {b : List UInt8 // b.length = 40}
  execve : ℕ → Option ℤ
  pathMax : ℕ
  errno : ℤ

section
variable {defs : List RlimitDef} (sys : System defs)

/-- A call that is fatal when it fails -/
def call (ok : Bool) (d : Deed) (e : Fatal) (done : List Deed) : Run Deed Fatal :=
  if ok = true then .on (done ++ [d]) else .ended done e

def setlock (file : List UInt8) (pid wait : Bool) : List Deed → Run Deed Fatal :=
  call (sys.pidlockSet file pid wait) (.lock file pid wait)
    (.syserr "unable to acquire lock on" file "")

def doSetlock (pid : Bool) (arg : List UInt8) (done : List Deed) : Run Deed Fatal :=
  if arg.head? = some 58 then
    if arg.tail = [] then
      .ended done (.usage "empty lockfile argument with option " [45, if pid then 80 else 76])
    else setlock sys arg.tail pid true done
  else setlock sys arg pid false done

def doUmask (arg : List UInt8) (done : List Deed) : Run Deed Fatal :=
  let z := nuscanUint32o arg
  if z.2 ≠ [] then .ended done (.usage "bad octal numeric argument for option -m: " arg)
  else .on (done ++ [.umask z.1])

/-- A part of the program that keeps account of its own calls -/
def within {ω : Type} (deed : ω → Deed) (run : Run ω Fatal) (done : List Deed) : Run Deed Fatal :=
  match run with
  | .on xs => .on (done ++ xs.map deed)
  | .ended xs e => .ended (done ++ xs.map deed) e
  | .outside => .outside

def doChdir (arg : List UInt8) : List Deed → Run Deed Fatal :=
  call (sys.chdir arg) (.chdir arg) (.syserr "failure on chdir to " arg "")

def doChroot (arg : List UInt8) (done : List Deed) : Run Deed Fatal :=
  if sys.root = false then .ended done (.usage "must have root privilege to chroot" [])
  else call (sys.chroot arg) (.chroot arg) (.syserr "failure on chroot to " arg "") done

def doSetuid (user : List UInt8) (done : List Deed) : Run Deed Fatal :=
  if sys.root = false then .ended done (.usage "must have root privilege to setuid" [])
  else
    (sys.getpwnam user).elim
      (.ended done (.usage "no user account found for setuid option -u: " user)) fun pw =>
        ((call (sys.setgroups pw.gid) (.setgroups pw.gid)
            (.syserr "failure setgroups() for setuid option -u: " user "") done).andThen
          (call (sys.setgid pw.gid) (.setgid pw.gid)
            (.syserr "failure setgid() for setuid option -u: " user ""))).andThen
          (call (sys.setuid pw.uid) (.setuid pw.uid)
            (.syserr "failure setuid() for setuid option -u: " user ""))

def doSleep (arg : List UInt8) (done : List Deed) : Run Deed Fatal :=
  let z := nuscanUint32 arg
  if z.2 ≠ [] then .ended done (.usage "bad numeric argument for sleep option -z: " arg)
  else .on (done ++ [.sleep z.1])

end

section
variable {defs : List RlimitDef} (i : Input defs) (o : Opts)

/-- `if(arg_...)` -/
def given (a : Arg) (act : List UInt8 → List Deed → Run Deed Fatal) (done : List Deed) :
    Run Deed Fatal :=
  (o.arg a).elim (.on done) fun arg => act arg done

def detach (done : List Deed) : Run Deed Fatal :=
  if o.detach = true then call i.sys.fork .fork (.syserr "failure to detach" [] "") done
  else .on done

def session (done : List Deed) : Run Deed Fatal :=
  if o.setsid = true then .on (done ++ [.setsid i.sys.setsid]) else .on done

def lock (done : List Deed) : Run Deed Fatal :=
  (o.arg .setlock).elim (given o .pidlock (doSetlock i.sys true) done) fun arg =>
    doSetlock i.sys false arg done

/-- The operations, as they stand in `main()` -/
def operations : Run Deed Fatal :=
  (((((((((detach i o []).andThen
    (session i o)).andThen
    (lock i o)).andThen
    (given o .umask doUmask)).andThen
    (given o .fdset fun arg => within .fd (doFdset i.sys.fds i.target arg))).andThen
    (given o .rlimit fun arg => within .limit (doRunlimit i.sys.limits i.nbuf arg))).andThen
    (given o .chdir (doChdir i.sys))).andThen
    (given o .chroot (doChroot i.sys))).andThen
    (given o .setuid (doSetuid i.sys))).andThen
    (given o .sleep doSleep)

/-! ## The files -/

/-- The file of `-a` or `-A`, by the letter -/
def doArgfile (optc argfile : List UInt8) (a : Runargs.Arglist) :
    Res Runargs.Stop Runargs.Arglist :=
  (i.file argfile).elim
    (.stopped (.fatal
      (.syserr [.text "unable to open file for option -", .str optc, .text " ", .str argfile])))
    fun f => readLoop i.behind
      (fun _ => .fatal (.syserr
        [.text "error reading argument file for option -", .str optc, .text " ", .str argfile]))
      Runargs.doLine (f.text.bytes.length + 1) (opened f.text.bytes f.answers a.1) a.2

/-- The vector with the arguments of the file, behind those of the command line with `-A` -/
def assemble (argfile name : List UInt8) (args : List (List UInt8)) (mem : Mem) :
    Res Runargs.Stop Runargs.Arglist :=
  (Runargs.arglistAdd (some name) (mem, ⟨none, 0, 0⟩)).bind fun a =>
    (Runargs.addArgs (if o.argInsert then args else []) a).bind fun a =>
      (doArgfile i [if o.argInsert then 65 else 97] argfile a).bind fun a =>
        (Runargs.addArgs (if o.argInsert then [] else args) a).bind fun a =>
          Runargs.arglistAdd none a

def recast {ε ε' α : Type} (f : ε → ε') : Res ε α → Res ε' α
  | .ok a => .ok a
  | .stopped e => .stopped (f e)
  | .outside => .outside

/-- The name that the program is given for itself -/
def nameOf (prog : List UInt8) : List UInt8 := (o.arg .alias_).getD prog

/-- `argv` of the program -/
def vector (prog : List UInt8) (args : List (List UInt8)) (mem : Mem) :
    Res Stop (Mem × List (List UInt8)) :=
  (o.arg .argfile).elim (.ok (mem, nameOf o prog :: args)) fun argfile =>
    (recast Stop.args (assemble i o argfile (nameOf o prog) args mem)).bind fun a =>
      Res.reading (environ (a.2.stuf.getD [])) fun argv => .ok (a.1, argv)

def doEnvfile (optc arg : List UInt8) (mem : Mem) : Res RunenvFile.Stop (Mem × Env) :=
  (i.file arg).elim
    (.stopped ⟨.syserr
      [.text "failure opening file for option -", .str optc, .text ": ", .str arg], []⟩)
    fun f => readLoop i.behind
      (fun t => ⟨.syserr [.text "error reading file for option -", .str optc, .text ": ", .str arg],
        t.calls⟩)
      RunenvFile.doLine (f.text.bytes.length + 1) (opened f.text.bytes f.answers mem) ⟨[], []⟩

def doEnv (optc arg : List UInt8) (mem : Mem) : Res RunenvFile.Stop (Mem × Env) :=
  (i.kind arg).elim
    (.stopped ⟨.syserr [.text "failure stat() on path argument for option -", .str optc,
      .text ": ", .str arg], []⟩)
    fun k =>
      if k = .file then doEnvfile i optc arg mem
      else if k = .dir then runtoolDoEnvdir i.behind (i.dir arg) optc arg mem
      else .stopped ⟨.usage [.text "argument is neither file nor directory for option -",
        .str optc, .text ": ", .str arg], []⟩

/-- `GID` and `UID` -/
def gidVar (pw : Passwd) : Setting := ⟨[71, 73, 68], some (nfmtUint32 pw.gid)⟩

def uidVar (pw : Passwd) : Setting := ⟨[85, 73, 68], some (nfmtUint32 pw.uid)⟩

def doEnvuid (user : List UInt8) (x : Mem × Env) : Res RunenvFile.Stop (Mem × Env) :=
  (i.sys.getpwnam user).elim
    (.stopped ⟨.usage [.text "no user account found for envuid option -U: ", .str user],
      x.2.calls⟩)
    fun pw => (setVar x.1 x.2 (gidVar pw)).bind fun x => setVar x.1 x.2 (uidVar pw)

/-- The calls of `newenv_set()` -/
def newVars (mem : Mem) : Res RunenvFile.Stop (Mem × Env) :=
  ((o.arg .env).elim (.ok (mem, ⟨[], []⟩)) fun arg =>
      doEnv i [if o.envMerge then 101 else 69] arg mem).bind fun x =>
    (o.arg .envuid).elim (.ok x) fun user => doEnvuid i user x

/-! ## The program -/

/-- What the process becomes -/
structure Image where
  /-- what `execve()` has been given, the last time with success -/
  tried : List (List UInt8)
  argv : List (List UInt8)
  envp : List (List UInt8)
  deriving DecidableEq, Repr

/-- The end, with what has been done until then -/
inductive Outcome where
  | stopped (done : List Deed) (e : Stop)
  | outside
  | runs (done : List Deed) (x : Image)
  deriving DecidableEq, Repr

/-- `newenv_exec()`, and the message behind it. With an argument file `argv` has been advanced to
its NULL. -/
def newenvExec (prog : List UInt8) (argv : List (List UInt8)) (mem : Mem) (env : Env)
    (done : List Deed) : Outcome :=
  let unrun : Outcome := .stopped done
    (.unrun (if o.arg .argfile = none then some (nameOf o prog) else none))
  if mem.headD true = false then unrun
  else
    ((newenvMerge (if o.envMerge then i.envp else []) env.newenv).bind environ).elim .outside
      fun envp =>
        let out := Execvx.execvx i.pathMax i.execve prog i.errno (o.arg .search) i.path
        if out.2.replaced = true then .runs done ⟨out.2.tried, argv, envp⟩ else unrun

def operate (prog : List UInt8) (argv : List (List UInt8)) (x : Mem × Env) : Outcome :=
  match operations i o with
  | .on done => newenvExec i o prog argv x.1 x.2 done
  | .ended done e => .stopped done (.step e)
  | .outside => .outside

/-- The files are read before anything is done. -/
def gather (prog : List UInt8) (args : List (List UInt8)) (mem : Mem) :
    Res Stop (List (List UInt8) × Mem × Env) :=
  (vector i o prog args mem).bind fun v =>
    (recast Stop.env (newVars i o v.1)).bind fun x => .ok (v.2, x)

def afterOptions (operands : List (List UInt8)) (mem : Mem) : Outcome :=
  match operands with
  | [] => .stopped [] (.options (.usage [.text "missing required program argument"]))
  | prog :: args =>
    if o.arg .setlock ≠ none ∧ o.arg .pidlock ≠ none then
      .stopped [] (.options
        (.usage [.text "options -L (setlock) and -P (pidlock) are mutually exclusive"]))
    else
      match gather i o prog args mem with
      | .ok g => operate i o prog g.1 g.2
      | .stopped e => .stopped [] e
      | .outside => .outside

end

def main {defs : List RlimitDef} (i : Input defs) (mem : Mem) : Outcome :=
  match options optCase ⟨optlist, by decide⟩ i.prog i.args initial with
  | .ok out => afterOptions i out.1 out.2 mem
  | .stopped e => .stopped [] e
  | .outside => .outside

end Perp.Runtool
