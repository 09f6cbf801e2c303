import Perp.PktOutcome
import Perp.PerpdClient

set_option autoImplicit false

/-!
# Control commands from the shell

`perpctl`: `do_control()` sends its request for one service after the other and
reads each reply into the buffer of the request.
-/
namespace Perp.PerpctlControl
open Pkt PktOutcome PerpdState PerpdClient

/-- What `stat()` says of a service directory. -/
structure Stat where
  dev : UInt64
  ino : UInt64
  isDir : Bool
  /-- `S_ISVTX` -/
  sticky : Bool
  deriving DecidableEq, Repr

/-- A service of the command line, and what becomes of its request: the returns
of `write()` and of `read()`. -/
structure Service where
  name : String
  stat : Option Stat
  writes : List WriteRet
  reads : List ReadRet
  deriving DecidableEq, Repr

structure Options where
  cmd : Char
  flags : UInt8
  /-- `-q` -/
  quiet : Bool
  deriving DecidableEq, Repr

/-- What is said of a service. -/
inductive Report where
  | notFound
  | notDirectory
  | notActivated
  | writing
  | reading
  | protocol
  | type
  | reply (e : UInt32)
  | ok
  deriving DecidableEq, Repr

def Report.text : Report → String
  | .notFound => ": service directory not found"
  | .notDirectory => ": not a directory"
  | .notActivated => ": service directory not activated"
  | .writing => ": error writing request"
  | .reading => ": error reading response"
  | .protocol => ": unknown packet protocol in reply"
  | .type => ": unknown packet type in reply"
  | .reply _ => ": error reported in reply"
  | .ok => ": ok"

/-- The packet of a service, on its own buffer -/
def request (o : Options) (st : Stat) : List UInt8 :=
  ctlRequest (st.dev, st.ino) o.cmd o.flags ++ List.replicate (pktSize - 21) 0

/-- What `do_control()` makes of the reply, which stands in `pkt` as far as it goes. -/
def replyReport (r : ℤ) (pkt : List UInt8) : Report :=
  if r = -1 then .reading
  else if byteAt pkt 0 ≠ 2 then .protocol
  else if byteAt pkt 1 ≠ 69 then .type
  else if upak32Unpack (pkt.drop 3) ≠ 0 then .reply (upak32Unpack (pkt.drop 3))
  else .ok

def serviceReport (o : Options) (sv : Service) : Report :=
  match sv.stat with
  | none => .notFound
  | some st =>
    if ¬ st.isDir then .notDirectory
    else if ¬ st.sticky then .notActivated
    else if (pktWrite sv.writes (request o st) 0).1 = -1 then .writing
    else
      let r := pktRead sv.reads (request o st) 0
      replyReport r.1 r.2

structure Perpctl where
  errs : ℕ
  out : List (String × Report)
  deriving DecidableEq, Repr

def serviceRound (o : Options) (w : Perpctl) (sv : Service) : Perpctl :=
  let r := serviceReport o sv
  if r = .ok then if o.quiet then w else { w with out := w.out ++ [(sv.name, r)] }
  else { errs := w.errs + 1, out := w.out ++ [(sv.name, r)] }

/-- `do_control()` once it is connected -/
def doControl (o : Options) (services : List Service) : Perpctl :=
  services.foldl (serviceRound o) ⟨0, []⟩

/-- What `main()` exits with -/
def exitStatus (w : Perpctl) : ℕ := if w.errs ≠ 0 then 111 else 0

/-- The bytes of the server that `pkt_read()` takes, and how it ends. -/
def received (reads : List ReadRet) : List UInt8 × ReadStop :=
  PktOutcome.reading reads (List.replicate pktSize 0) 0

/-- The request goes out. -/
def Sent (o : Options) (sv : Service) (st : Stat) : Prop :=
  sv.stat = some st ∧ st.isDir = true ∧ st.sticky = true ∧
    (pktWrite sv.writes (request o st) 0).1 ≠ -1

/-- The service has been acknowledged: its request went out, and the packet that
came back is of protocol 2, type E and length 4, with the code 0. -/
def Acked (o : Options) (sv : Service) : Prop :=
  (∃ st, Sent o sv st) ∧ received sv.reads = ([2, 69, 4, 0, 0, 0, 0], .whole)

/-- The reply to a request that went out begins like an acknowledgement, but it
breaks off or has another length, and the four bytes where the code is looked for
are zero: those it has, and beyond them the low ones of the device in the request. -/
def Misleading (o : Options) (sv : Service) : Prop :=
  ∃ st, Sent o sv st ∧ ∃ got stop, received sv.reads = (2 :: 69 :: got, stop) ∧
    (stop = .again ∨ stop = .eof ∨ stop = .whole ∧ byteAt got 0 ≠ 4) ∧
    ∀ j < 4, (got[j + 1]?).getD (byteAt (upak64Pack st.dev) j) = 0

/-- One service: what is said of it, and the count of errors. -/
structure Honest (o : Options) (w : Perpctl) (sv : Service) : Prop where
  kept : (serviceRound o w sv).errs = w.errs → Acked o sv
  said : (serviceRound o w sv).out = w.out ++ [(sv.name, .ok)] → Acked o sv
  counted : ¬ Acked o sv → (serviceRound o w sv).errs = w.errs + 1

/-- A run over the command line. -/
structure HonestRun (o : Options) (services : List Service) : Prop where
  each : ∀ before sv after, services = before ++ sv :: after → Honest o (doControl o before) sv
  exit : exitStatus (doControl o services) = 0 → ∀ sv ∈ services, Acked o sv

theorem toRead_congr {k k' : List UInt8} {n : ℕ} (h : k.take n = k'.take n) :
    toRead k n = toRead k' n := by
  by_cases h3 : n < pktHeader
  · rw [toRead, toRead, if_pos h3, if_pos h3]
  · rw [toRead, toRead, if_neg h3, if_neg h3, pktLen_take h (by omega)]

/-- What is delivered depends on what is in the packet already, and on no other
byte of the buffer. -/
theorem reading_congr {outs : List ReadRet} {k k' : List UInt8} {n : ℕ} (hk : k.length = pktSize)
    (hk' : k'.length = pktSize) (hn : n ≤ pktSize) (h : k.take n = k'.take n) :
    PktOutcome.reading outs k n = PktOutcome.reading outs k' n := by
  induction outs generalizing k k' n with
  | nil => rw [PktOutcome.reading, PktOutcome.reading, toRead_congr h]
  | cons out outs ih =>
    have hto := toRead_congr h
    by_cases hmore : n < toRead k n
    · rw [reading_cons out outs hmore, reading_cons out outs (hto ▸ hmore)]
      cases out with
      | intr => exact ih hk hk' hn h
      | again => rfl
      | error => rfl
      | data bytes =>
        have hfit : n + (bytes.take (pktSize - n)).length ≤ pktSize := by
          rw [List.length_take]
          omega
        have hnext := @ih (bufWrite k n (bytes.take (pktSize - n)))
          (bufWrite k' n (bytes.take (pktSize - n))) (n + (bytes.take (pktSize - n)).length)
          (by rw [bufWrite_length (by omega), hk]) (by rw [bufWrite_length (by omega), hk']) hfit
          (by rw [bufWrite_take (by omega), bufWrite_take (by omega), h])
        simp only [hnext]
    · rw [reading_done _ hmore, reading_done _ (hto ▸ hmore), hto]

section
variable {o : Options} {st : Stat}

theorem upak64Pack_length (u : UInt64) : (upak64Pack u).length = 8 := rfl

theorem request_length (o : Options) (st : Stat) : (request o st).length = pktSize := by
  have hctl : (ctlRequest (st.dev, st.ino) o.cmd o.flags).length = 21 := rfl
  rw [request, List.length_append, List.length_replicate, hctl]
  rfl

theorem request_dev {j : ℕ} (hj : j < 4) :
    byteAt (request o st) (3 + j) = byteAt (upak64Pack st.dev) j := by
  have hlt : j < (upak64Pack st.dev).length := by
    rw [upak64Pack_length]
    omega
  simp only [byteAt, List.getD_eq_getElem?_getD, request, ctlRequest, List.append_assoc]
  rw [List.getElem?_append_right (by simp), List.getElem?_append_left (by simpa using hlt)]
  simp

theorem byteAt_bufWrite {k : List UInt8} {bytes : List UInt8} (i : ℕ) :
    byteAt (bufWrite k 0 bytes) i = (bytes[i]?).getD (byteAt k i) := by
  simp only [byteAt, bufWrite, List.take_zero, List.nil_append, Nat.zero_add,
    List.getD_eq_getElem?_getD]
  by_cases h : i < bytes.length
  · rw [List.getElem?_append_left h, List.getElem?_eq_getElem h]
    rfl
  · rw [List.getElem?_append_right (by omega), List.getElem?_eq_none (by omega : bytes.length ≤ i),
      List.getElem?_drop, Nat.add_sub_cancel' (by omega)]
    rfl

theorem upak32Unpack_zero (b : List UInt8) :
    upak32Unpack b = 0 ↔ ∀ j < 4, byteAt b j = 0 := by
  have h0 := (byteAt b 0).toNat_lt
  have h1 := (byteAt b 1).toNat_lt
  have h2 := (byteAt b 2).toNat_lt
  have h3 := (byteAt b 3).toNat_lt
  have hsum : upak32Unpack b = 0 ↔ (byteAt b 0).toNat = 0 ∧ (byteAt b 1).toNat = 0 ∧
      (byteAt b 2).toNat = 0 ∧ (byteAt b 3).toNat = 0 := by
    rw [← UInt32.toNat_inj]
    simp [upak32Unpack, Nat.shiftLeft_eq]
    omega
  rw [hsum]
  constructor
  · rintro ⟨e0, e1, e2, e3⟩ j hj
    apply UInt8.toNat_inj.mp
    obtain rfl | rfl | rfl | rfl : j = 0 ∨ j = 1 ∨ j = 2 ∨ j = 3 := by omega
    · exact e0
    · exact e1
    · exact e2
    · exact e3
  · intro h
    simp [h 0, h 1, h 2, h 3]

theorem replyReport_ok {r : ℤ} {pkt : List UInt8} : replyReport r pkt = .ok ↔
    r ≠ -1 ∧ byteAt pkt 0 = 2 ∧ byteAt pkt 1 = 69 ∧ ∀ j < 4, byteAt pkt (3 + j) = 0 := by
  have hdrop : ∀ j, byteAt (pkt.drop 3) j = byteAt pkt (3 + j) := by
    intro j
    simp [byteAt, List.getD_eq_getElem?_getD]
  have hcode : upak32Unpack (pkt.drop 3) = 0 ↔ ∀ j < 4, byteAt pkt (3 + j) = 0 := by
    rw [upak32Unpack_zero]
    simp only [hdrop]
  unfold replyReport
  split
  · next h => simp [h]
  split
  · next h => simp [h]
  split
  · next h => simp [h]
  split
  · next h =>
    have hne := mt hcode.mpr h
    simp [hne]
  · next hr h0 h1 h2 =>
    refine ⟨fun _ => ⟨hr, not_not.mp h0, not_not.mp h1, hcode.mp (not_not.mp h2)⟩, fun _ => rfl⟩

/-- The buffer of the request with what has been received laid over it -/
theorem overlay {got : List UInt8} :
    (byteAt (bufWrite (request o st) 0 got) 0 = 2 ∧ byteAt (bufWrite (request o st) 0 got) 1 = 69 ∧
      ∀ j < 4, byteAt (bufWrite (request o st) 0 got) (3 + j) = 0) ↔
    ∃ rest, got = 2 :: 69 :: rest ∧
      ∀ j < 4, (rest[j + 1]?).getD (byteAt (upak64Pack st.dev) j) = 0 := by
  simp only [byteAt_bufWrite]
  constructor
  · rintro ⟨h0, h1, h2⟩
    match got with
    | [] => exact absurd h1 (by simp [request, ctlRequest, byteAt])
    | [a] => exact absurd h1 (by simp [request, ctlRequest, byteAt])
    | a :: b :: rest =>
      obtain rfl : a = 2 := h0
      obtain rfl : b = 69 := h1
      refine ⟨rest, rfl, fun j hj => ?_⟩
      rw [← request_dev (o := o) hj, ← h2 j hj, show 3 + j = j + 1 + 1 + 1 by omega]
      simp
  · rintro ⟨rest, rfl, hrest⟩
    refine ⟨rfl, rfl, fun j hj => ?_⟩
    rw [← hrest j hj, request_dev hj, show 3 + j = j + 1 + 1 + 1 by omega]
    simp

theorem ret_ok {stop : ReadStop} {n : ℕ} :
    stop.ret 0 n ≠ -1 ↔ stop = .again ∨ stop = .eof ∨ stop = .whole := by
  cases stop <;> simp [ReadStop.ret]

/-- A service is reported as done when its request went out and what was received,
laid over the request, reads like an acknowledgement. -/
theorem serviceReport_ok {sv : Service} : serviceReport o sv = .ok ↔ ∃ st, Sent o sv st ∧
    ∃ got stop, received sv.reads = (2 :: 69 :: got, stop) ∧
      (stop = .again ∨ stop = .eof ∨ stop = .whole) ∧
      ∀ j < 4, (got[j + 1]?).getD (byteAt (upak64Pack st.dev) j) = 0 := by
  cases hs : sv.stat with
  | none => simp [serviceReport, Sent, hs]
  | some st =>
    have hreply : replyReport (pktRead sv.reads (request o st) 0).1
        (pktRead sv.reads (request o st) 0).2 = .ok ↔
          ∃ got stop, received sv.reads = (2 :: 69 :: got, stop) ∧
            (stop = .again ∨ stop = .eof ∨ stop = .whole) ∧
            ∀ j < 4, (got[j + 1]?).getD (byteAt (upak64Pack st.dev) j) = 0 := by
      have hsame : PktOutcome.reading sv.reads (request o st) 0 = received sv.reads :=
        reading_congr (request_length o st) List.length_replicate (Nat.zero_le _) rfl
      rw [pktRead_eq sv.reads (request_length o st) (Nat.zero_le _), hsame]
      obtain ⟨got, stop⟩ := received sv.reads
      simp only
      rw [replyReport_ok, ret_ok, overlay]
      constructor
      · rintro ⟨hstop, rest, rfl, hrest⟩
        exact ⟨rest, stop, rfl, hstop, hrest⟩
      · rintro ⟨rest, stop', hpair, hstop, hrest⟩
        obtain ⟨rfl, rfl⟩ := Prod.mk.inj hpair
        exact ⟨hstop, rest, rfl, hrest⟩
    simp only [serviceReport, hs]
    constructor
    · intro h
      split at h
      · exact absurd h (by decide)
      split at h
      · exact absurd h (by decide)
      split at h
      · exact absurd h (by decide)
      · next hdir hsticky hwrite =>
        exact ⟨st, ⟨hs, not_not.mp hdir, not_not.mp hsticky, hwrite⟩, hreply.mp h⟩
    · rintro ⟨st', ⟨hst, hdir, hsticky, hwrite⟩, hgot⟩
      obtain rfl := Option.some.inj (hs.symm.trans hst)
      rw [if_neg (not_not_intro hdir), if_neg (not_not_intro hsticky), if_neg hwrite]
      exact hreply.mpr hgot

/-- A packet that is there as long as it says, and says that it is of 4 bytes, is
an acknowledgement if its code is 0. -/
theorem received_whole {reads : List ReadRet} {got : List UInt8}
    (h : received reads = (2 :: 69 :: got, .whole)) (h4 : byteAt got 0 = 4) {dev : UInt64}
    (hz : ∀ j < 4, (got[j + 1]?).getD (byteAt (upak64Pack dev) j) = 0) :
    got = [4, 0, 0, 0, 0] := by
  have hbound := (@reading_bound (List.replicate pktSize 0) 0 reads List.length_replicate
    (Nat.zero_le _)).2
  change (received reads).2.Bound (bufWrite _ 0 (received reads).1) (0 + (received reads).1.length)
    at hbound
  rw [h] at hbound
  have hlen : 0 + (2 :: 69 :: got).length =
      toRead (bufWrite (List.replicate pktSize 0) 0 (2 :: 69 :: got))
        (0 + (2 :: 69 :: got).length) := hbound
  simp only [List.length_cons, Nat.zero_add] at hlen
  have h2 : byteAt (bufWrite (List.replicate pktSize 0) 0 (2 :: 69 :: got)) 2 = 4 := by
    rw [byteAt_bufWrite, ← h4]
    cases got with
    | nil => exact absurd h4 (by decide)
    | cons b got => rfl
  have h5 : got.length = 5 := by
    by_cases h3 : got.length + 1 + 1 < pktHeader
    · rw [toRead, if_pos h3] at hlen
      omega
    · have hfour : (4 : UInt8).toNat = 4 := rfl
      rw [toRead, if_neg h3, pktLen, h2, hfour, pktHeader] at hlen
      omega
  refine List.ext_getElem h5 fun i hi hi' => ?_
  cases i with
  | zero =>
    have h0 := h4
    rw [byteAt, List.getD_eq_getElem?_getD, List.getElem?_eq_getElem hi] at h0
    exact h0
  | succ j =>
    have h0 := hz j (by omega)
    rw [List.getElem?_eq_getElem hi, Option.getD_some] at h0
    rw [h0]
    exact (@List.getElem_replicate _ (0 : UInt8) 4 j (by rw [List.length_replicate]; omega)).symm

end

/-- A service is reported as done if it has been acknowledged, and if its reply is
misleading. -/
theorem serviceReport_iff {o : Options} {sv : Service} :
    serviceReport o sv = .ok ↔ Acked o sv ∨ Misleading o sv := by
  rw [serviceReport_ok]
  constructor
  · rintro ⟨st, hsent, got, stop, hgot, hstop, hz⟩
    by_cases hw : stop = .whole ∧ byteAt got 0 = 4
    · obtain ⟨rfl, h4⟩ := hw
      obtain rfl := received_whole hgot h4 hz
      exact .inl ⟨⟨st, hsent⟩, hgot⟩
    · refine .inr ⟨st, hsent, got, stop, hgot, ?_, hz⟩
      rcases hstop with rfl | rfl | rfl
      · exact .inl rfl
      · exact .inr (.inl rfl)
      · exact .inr (.inr ⟨rfl, fun h4 => hw ⟨rfl, h4⟩⟩)
  · rintro (⟨⟨st, hsent⟩, hgot⟩ | ⟨st, hsent, got, stop, hgot, hstop, hz⟩)
    · refine ⟨st, hsent, [4, 0, 0, 0, 0], .whole, hgot, .inr (.inr rfl), fun j hj => ?_⟩
      obtain rfl | rfl | rfl | rfl : j = 0 ∨ j = 1 ∨ j = 2 ∨ j = 3 := by omega
      all_goals rfl
    · refine ⟨st, hsent, got, stop, hgot, ?_, hz⟩
      rcases hstop with h | h | h
      · exact .inl h
      · exact .inr (.inl h)
      · exact .inr (.inr h.1)

theorem not_acked {o : Options} {sv : Service} (h : Misleading o sv) : ¬ Acked o sv := by
  obtain ⟨st, -, got, stop, hgot, hstop, -⟩ := h
  rintro ⟨-, hack⟩
  obtain ⟨hg, rfl⟩ := Prod.mk.inj (hgot.symm.trans hack)
  obtain rfl : got = [4, 0, 0, 0, 0] := by simpa using hg
  simp [byteAt] at hstop

theorem serviceRound_err {o : Options} {w : Perpctl} {sv : Service}
    (h : serviceReport o sv ≠ .ok) : serviceRound o w sv =
      { errs := w.errs + 1, out := w.out ++ [(sv.name, serviceReport o sv)] } := by
  rw [serviceRound, if_neg h]

theorem serviceRound_ok {o : Options} {w : Perpctl} {sv : Service} (h : serviceReport o sv = .ok) :
    (serviceRound o w sv).errs = w.errs := by
  rw [serviceRound, if_pos h]
  split <;> rfl

theorem honest_iff {o : Options} {w : Perpctl} {sv : Service} :
    Honest o w sv ↔ ¬ Misleading o sv := by
  constructor
  · intro hh hm
    exact not_acked hm (hh.kept (serviceRound_ok (serviceReport_iff.mpr (.inr hm))))
  · intro hm
    have hok : serviceReport o sv = .ok → Acked o sv :=
      fun h => (serviceReport_iff.mp h).resolve_right hm
    refine ⟨fun hkept => ?_, fun hsaid => ?_, fun hack => ?_⟩
    · by_contra hne
      rw [serviceRound_err fun h => hne (hok h)] at hkept
      simp at hkept
    · by_contra hne
      have hr : serviceReport o sv ≠ .ok := fun h => hne (hok h)
      rw [serviceRound_err hr] at hsaid
      simp [hr] at hsaid
    · rw [serviceRound_err fun h => hack (hok h)]

theorem errs_le (o : Options) (services : List Service) (w : Perpctl) :
    w.errs ≤ (services.foldl (serviceRound o) w).errs := by
  induction services generalizing w with
  | nil => exact Nat.le_refl _
  | cons sv services ih =>
    have hstep : w.errs ≤ (serviceRound o w sv).errs := by
      by_cases h : serviceReport o sv = .ok
      · rw [serviceRound_ok h]
      · rw [serviceRound_err h]
        exact Nat.le_succ _
    exact Nat.le_trans hstep (ih _)

theorem all_ok {o : Options} {services : List Service} {w : Perpctl}
    (h : (services.foldl (serviceRound o) w).errs = 0) :
    ∀ sv ∈ services, serviceReport o sv = .ok := by
  induction services generalizing w with
  | nil => simp
  | cons sv services ih =>
    intro x hx
    rcases List.mem_cons.mp hx with rfl | hx
    · by_contra hne
      have hle := errs_le o services (serviceRound o w x)
      rw [serviceRound_err hne] at hle
      rw [List.foldl_cons, serviceRound_err hne] at h
      simp only at hle
      omega
    · exact ih h x hx

/-- A run of perpctl reports success only for what was acknowledged, if and only if
no reply in it is misleading. -/
theorem doControl_honest_iff (o : Options) (services : List Service) :
    HonestRun o services ↔ ∀ sv ∈ services, ¬ Misleading o sv := by
  constructor
  · intro hrun sv hsv
    obtain ⟨before, after, rfl⟩ := List.append_of_mem hsv
    exact honest_iff.mp (hrun.each before sv after rfl)
  · intro hm
    refine ⟨fun before sv after h => honest_iff.mpr (hm sv (by simp [h])), fun hexit sv hsv => ?_⟩
    have herrs : (doControl o services).errs = 0 := by
      by_contra hne
      rw [exitStatus, if_pos hne] at hexit
      exact absurd hexit (by decide)
    exact (serviceReport_iff.mp (all_ok herrs sv hsv)).resolve_right (hm sv hsv)

/-- The server goes away in the middle of its reply. -/
def cutShort : Service :=
  ⟨"svc", some ⟨2049, 77, true, true⟩, [.wrote 21], [.data [2, 69, 4, 0, 0], .data []]⟩

theorem doControl_false_success :
    (doControl ⟨'u', 0, false⟩ [cutShort]).out = [("svc", .ok)] ∧
      exitStatus (doControl ⟨'u', 0, false⟩ [cutShort]) = 0 ∧
      ¬ Acked ⟨'u', 0, false⟩ cutShort ∧ ¬ HonestRun ⟨'u', 0, false⟩ [cutShort] := by
  have hgot : received cutShort.reads = ([2, 69, 4, 0, 0], .eof) := by decide +kernel
  have hack : ¬ Acked ⟨'u', 0, false⟩ cutShort := by
    rintro ⟨-, h⟩
    rw [hgot] at h
    exact absurd h (by decide)
  have hout : doControl ⟨'u', 0, false⟩ [cutShort] = ⟨0, [("svc", .ok)]⟩ := by decide +kernel
  refine ⟨by rw [hout], by rw [hout]; rfl, hack, fun hrun => ?_⟩
  exact hack (hrun.exit (by rw [hout]; rfl) cutShort List.mem_cons_self)

end Perp.PerpctlControl
