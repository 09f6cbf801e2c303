import Perp.PerpdClient
import Perp.PerpdReplies

set_option autoImplicit false

/-!
# What the clients read of a status

`perpls`, `perpstat` and `perpok` take a status reply apart at offsets of their
own, which are those of `PROTO_V2.txt` and of `perpd_conn_exec_query()`.
-/
namespace Perp.StatusClients
open PerpdState PerpdConn PerpdMainloop PerpdClient PerpdReplies Pkt

/-- A `pid_t` from a `uint32_t`. -/
def pidT (u : UInt32) : ℤ := toInt32 u.toNat

/-- The fields of one of the pair. -/
structure SubsvStatus where
  pid : ℤ
  when : Tain
  flags : UInt8
  deriving DecidableEq, Repr

def subsvAt (buf : List UInt8) (pid when flags : ℕ) : SubsvStatus :=
  ⟨pidT (upak32Unpack (buf.drop pid)), Tain.unpack (buf.drop when), byteAt buf flags⟩

/-- The encoding for service status in `PROTO_V2.txt`. -/
structure Status where
  pid : ℤ
  start : Tain
  when : Tain
  flags : UInt8
  main : SubsvStatus
  log : SubsvStatus
  deriving DecidableEq, Repr

def protoStatus (payload : List UInt8) : Status :=
  { pid := pidT (upak32Unpack payload)
    start := Tain.unpack (payload.drop 4)
    when := Tain.unpack (payload.drop 16)
    flags := byteAt payload 28
    main := subsvAt payload 30 34 46
    log := subsvAt payload 48 52 64 }

/-- What `svstat_unpack()` of perpls reads before it fills the panel. -/
structure Svstat where
  flags : UInt8
  main : SubsvStatus
  log : Option SubsvStatus
  deriving DecidableEq, Repr

def svstatFields (binstat : List UInt8) : Svstat :=
  let flags := byteAt binstat 28
  { flags := flags
    main := subsvAt binstat 30 34 46
    log := if FlagByte.has flags SvdefFlag.haslog then some (subsvAt binstat 48 52 64) else none }

/-- What `report()` of perpstat reads for its text. -/
structure Report where
  when : Tain
  flags : UInt8
  main : SubsvStatus
  log : Option SubsvStatus
  deriving DecidableEq, Repr

def reportFields (status : List UInt8) : Report :=
  let flags := byteAt status 28
  { when := Tain.unpack (status.drop 16)
    flags := flags
    main := subsvAt status 30 34 46
    log := if FlagByte.has flags SvdefFlag.haslog then some (subsvAt status 48 52 64) else none }

/-- What `main()` of perpok reads for its tests. -/
def perpokFields (status : List UInt8) : SubsvStatus := subsvAt status 30 34 46

/-- What perpd has recorded of one of the pair. -/
def recorded (v : Subsv) : SubsvStatus := ⟨v.pid, v.when, v.bitflags⟩

theorem pidT_ofNat {n : ℕ} (h : n < 2 ^ 31) : pidT (UInt32.ofNat n) = n := by
  have hn : (UInt32.ofNat n).toNat = n := by
    simp only [UInt32.toNat_ofNat']
    omega
  unfold pidT toInt32
  rw [hn]
  omega

theorem subsvAt_main (s : Sys) (sd : Svdef) (h : sd.svMain.pid < 2 ^ 31) :
    subsvAt (statusPayload s sd) 30 34 46 = recorded sd.svMain := by
  have hp : upak32Unpack ((statusPayload s sd).drop 30) = UInt32.ofNat sd.svMain.pid :=
    upak32Unpack_pack _ _
  have hw : Tain.unpack ((statusPayload s sd).drop 34) = sd.svMain.when := Tain.unpack_pack _ _
  have hf : byteAt (statusPayload s sd) 46 = sd.svMain.bitflags := rfl
  rw [subsvAt, hp, hw, hf, pidT_ofNat h]
  rfl

theorem subsvAt_log (s : Sys) (sd : Svdef) (h : sd.svLog.pid < 2 ^ 31) :
    subsvAt (statusPayload s sd) 48 52 64 =
      if sd.has .haslog then recorded sd.svLog else ⟨0, .zero, 0⟩ := by
  by_cases hl : sd.has .haslog = true
  · have hp : upak32Unpack ((statusPayload s sd).drop 48) = UInt32.ofNat sd.svLog.pid := by
      simp only [statusPayload, hl, ↓reduceIte]
      exact upak32Unpack_pack _ _
    have hw : Tain.unpack ((statusPayload s sd).drop 52) = sd.svLog.when := by
      simp only [statusPayload, hl, ↓reduceIte]
      exact Tain.unpack_pack _ _
    have hf : byteAt (statusPayload s sd) 64 = sd.svLog.bitflags := by
      simp only [statusPayload, hl, ↓reduceIte]
      rfl
    rw [subsvAt, hp, hw, hf, pidT_ofNat h, if_pos hl]
    rfl
  · have hp : (statusPayload s sd).drop 48 = List.replicate 18 0 := by
      simp only [statusPayload, hl]
      rfl
    have hw : (statusPayload s sd).drop 52 = List.replicate 14 0 := by
      simp only [statusPayload, hl]
      rfl
    have hf : byteAt (statusPayload s sd) 64 = 0 := by
      simp only [statusPayload, hl]
      rfl
    rw [subsvAt, hp, hw, hf, if_neg hl]
    decide

/-- Every client finds in a status reply what perpd put there. -/
theorem status_same_meaning (s : Sys) (sd : Svdef) (hmy : s.myPid < 2 ^ 31)
    (hpid : ∀ which, (sd.sv which).pid < 2 ^ 31) :
    let payload := statusPayload s sd
    let main := recorded sd.svMain
    let log := if sd.has .haslog then some (recorded sd.svLog) else none
    payload.length = 66 ∧
    protoStatus payload =
      ⟨s.myPid, s.myWhen, sd.when, sd.bitflags, main, log.getD ⟨0, .zero, 0⟩⟩ ∧
    svstatFields payload = ⟨sd.bitflags, main, log⟩ ∧
    reportFields payload = ⟨sd.when, sd.bitflags, main, log⟩ ∧
    perpokFields payload = main := by
  intro payload main log
  have hp : upak32Unpack payload = UInt32.ofNat s.myPid := upak32Unpack_pack _ _
  have hstart : Tain.unpack (payload.drop 4) = s.myWhen := Tain.unpack_pack _ _
  have hwhen : Tain.unpack (payload.drop 16) = sd.when := Tain.unpack_pack _ _
  have hflags : byteAt payload 28 = sd.bitflags := rfl
  have hmain : subsvAt payload 30 34 46 = main := subsvAt_main s sd (hpid .main)
  have hlog : subsvAt payload 48 52 64 = log.getD ⟨0, .zero, 0⟩ := by
    rw [subsvAt_log s sd (hpid .log)]
    simp only [log]
    split <;> rfl
  have hopt : (if FlagByte.has sd.bitflags SvdefFlag.haslog then some (subsvAt payload 48 52 64)
      else none) = log := by
    rw [hlog]
    simp only [log, Svdef.has]
    split
    · next h => simp [h]
    · next h => simp [h]
  refine ⟨statusPayload_length s sd, ?_, ?_, ?_, hmain⟩
  · rw [protoStatus, hp, hstart, hwhen, hflags, hmain, hlog, pidT_ofNat hmy]
  · rw [svstatFields, hflags, hmain, hopt]
  · rw [reportFields, hwhen, hflags, hmain, hopt]

/-- An entry with a log, both running. -/
def running : Svdef :=
  { dev := 1, ino := 2, fdDir := 5, name := "foo".toList, when := .load 100 7, bitflags := 0x03,
    logpipe0 := 6, logpipe1 := 7, svMain := ⟨40, 0, .load 200 8, .zero, 0⟩,
    svLog := ⟨2 ^ 31 - 1, 0x01, .load 300 9, .zero, 0⟩ }

theorem status_same_meaning_running :
    let s := (perpdStart (plain [])).sys
    s.myPid < 2 ^ 31 ∧ (∀ which, (running.sv which).pid < 2 ^ 31) ∧
    protoStatus (statusPayload s running) =
      ⟨10, .zero, .load 100 7, 3, ⟨40, .load 200 8, 0⟩, ⟨2147483647, .load 300 9, 1⟩⟩ := by
  have hmy : (perpdStart (plain [])).sys.myPid < 2 ^ 31 := by decide
  have hpid : ∀ which, (running.sv which).pid < 2 ^ 31 := by decide
  refine ⟨hmy, hpid, ?_⟩
  have h := (status_same_meaning (perpdStart (plain [])).sys running hmy hpid).2.1
  rw [h]
  rfl

end Perp.StatusClients
