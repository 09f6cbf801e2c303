import Perp.PerpdMainloop

set_option autoImplicit false

/-!
# Perpd and its clients

The request `perpctl` sends, and the plain surroundings of perpd in which a run
can be followed: the standard descriptors, one service directory, iterations in
which nothing happens but what is said.
-/
namespace Perp.PerpdClient
open PerpdState PerpdSvdef PerpdConn PerpdMainloop Pkt

/-- `upak_pack()` with `L` -/
def upak64Pack (u : UInt64) : List UInt8 :=
  [0, 8, 16, 24, 32, 40, 48, 56].map (fun k : UInt64 => (u >>> k).toUInt8)

theorem upak64Unpack_pack (u : UInt64) (rest : List UInt8) :
    upak64Unpack (upak64Pack u ++ rest) = u := by
  have h := u.toNat_lt
  apply UInt64.toNat_inj.mp
  simp [upak64Unpack, upak64Pack, byteAt, Nat.shiftRight_eq_div_pow, Nat.shiftLeft_eq]
  omega

/-- The control packet of `perpctl`'s `do_control()`. -/
def ctlRequest (key : Key) (cmd : Char) (flags : UInt8) : List UInt8 :=
  [2, 67, 18] ++ upak64Pack key.1 ++ upak64Pack key.2 ++ [UInt8.ofNat cmd.toNat, flags]

/-- The query packet of `perpls` and its like. -/
def queryRequest (key : Key) : List UInt8 :=
  [2, 81, 16] ++ upak64Pack key.1 ++ upak64Pack key.2

def plainFds (fd : ℕ) : Option Obj :=
  if fd = 3 then some .listen else if fd < 8 then some .other else none

/-- perpd with nothing but its own descriptors, where `fork()` will say `forks`. -/
def plain (forks : List (Option ℕ)) : Config where
  argAutoscan := 0
  myPid := 10
  myWhen := .zero
  fds := plainFds
  fdListen := 3
  fds_listen := rfl
  fds_base := by
    intro fd o h
    unfold plainFds at h
    split at h
    · next hfd => exact Or.inr ⟨hfd, (Option.some.inj h).symm⟩
    split at h
    · exact Or.inl (Option.some.inj h).symm
    · simp at h
  fds_std := ⟨rfl, rfl⟩
  forks := fun n => forks.getD n none
  clock := fun n => ⟨.ofNat n, 0⟩
  sysstrSignal := fun n => if n = 9 then some "SIGKILL".toList else none

/-- An iteration in which nothing happens. -/
def quiet : IterIn where
  signals := []
  late := []
  intr := 0
  pollErr := false
  clients := []
  listen := false
  reaps := []
  scan := ⟨true, [], false⟩
  accept := ⟨none, false⟩

/-- A client connects and is given the descriptor `fd`. -/
def connects (inp : IterIn) (fd : ℕ) : IterIn :=
  { inp with listen := true, accept := ⟨some fd, true⟩ }

def sends (pkt : List UInt8) : ClientIn :=
  ⟨⟨false, true, false⟩, [.data (pkt.take pktHeader), .data (pkt.drop pktHeader)], []⟩

def silent : ClientIn := ⟨⟨false, false, false⟩, [], []⟩

def receives : ClientIn := ⟨⟨false, false, true⟩, [], [.wrote pktSize]⟩

/-- A sticky directory with the inode `ino`. -/
def service (name : String) (ino : UInt64) (act : ActivateIn) : Dirent :=
  ⟨name.toList, some ⟨1, ino, true, true⟩, act⟩

def exits (inp : IterIn) (reaps : List (ℕ × ℕ)) : IterIn :=
  { inp with signals := [.sigchld], reaps := reaps }

/-- The base directory is scanned and shows these names. -/
def scans (inp : IterIn) (dirents : List Dirent) : IterIn :=
  { inp with signals := inp.signals ++ [.sighup], scan := ⟨true, dirents, false⟩ }

def foo : Dirent := service "foo" 2 ⟨some 8, false, false, none, none⟩

/-- A service with a log, whose pipe is 10 and 11. -/
def loggedFoo : Dirent := service "foo" 2 ⟨some 8, false, false, some true, some (10, 11)⟩

/-- A service with a log is activated, deactivated, and ends. -/
def loggedGone : List IterIn :=
  [scans quiet [loggedFoo], scans quiet [], exits quiet [(101, 15)], exits quiet [(102, 0)],
    exits quiet [(100, 15)], exits quiet [(103, 0)]]

end Perp.PerpdClient
