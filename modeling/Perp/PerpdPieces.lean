import Perp.PerpdReplies
import Perp.PktSplit

set_option autoImplicit false

/-!
# A request in pieces

What `perpd_conn_read()` and `perpd_conn_write()` do with the next pieces of a
request and of its reply. A request is carried out when its last byte comes, by
its bytes alone.
-/
namespace Perp.PerpdPieces
open PerpdState PerpdSvdef PerpdConn PerpdEffect PerpdStill PerpdPhases PerpdRequests PerpdReplies
  Pkt

section Exec
variable {c c' : Conn}

theorem upak64_alike {k p : List UInt8} {n j : ℕ} (h : k.take n = p.take n) (hj : j + 8 ≤ n) :
    upak64Unpack (k.drop j) = upak64Unpack (p.drop j) := by
  have hbyte (i : ℕ) (hi : i < 8) : byteAt (k.drop j) i = byteAt (p.drop j) i := by
    have hb := byteAt_take h (by omega : j + i < n)
    simpa [byteAt, List.getD_eq_getElem?_getD, List.getElem?_drop] using hb
  simp [upak64Unpack, hbyte]

/-- Both connections have the same done for them, and the same reply to send. -/
def Alike (c c' : Conn) (r r' : (Sys × List Svdef) × Conn) : Prop :=
  r.1 = r'.1 ∧ ∃ reply, Replied c r.2 reply ∧ Replied c' r'.2 reply

theorem alike_error (x : Sys × List Svdef) (err : UInt32) :
    Alike c c' (x, perpdConnExecReply c err) (x, perpdConnExecReply c' err) :=
  ⟨rfl, errorPacket err, execReply_replied c err, execReply_replied c' err⟩

theorem execControl_alike (s : Sys) (svdefs : List Svdef) (h : c.pkt.take 21 = c'.pkt.take 21) :
    Alike c c' (perpdConnExecControl s svdefs c) (perpdConnExecControl s svdefs c') := by
  have hdev : upak64Unpack (pktData c.pkt) = upak64Unpack (pktData c'.pkt) :=
    upak64_alike h (by decide)
  have hino : upak64Unpack ((pktData c.pkt).drop 8) = upak64Unpack ((pktData c'.pkt).drop 8) := by
    simpa [pktData] using upak64_alike (j := 11) h (by decide)
  have hcmd : byteAt (pktData c.pkt) 16 = byteAt (pktData c'.pkt) 16 := by
    simpa [pktData, byteAt] using byteAt_take (i := 19) h (by decide)
  have hflags : byteAt (pktData c.pkt) 17 = byteAt (pktData c'.pkt) 17 := by
    simpa [pktData, byteAt] using byteAt_take (i := 20) h (by decide)
  unfold perpdConnExecControl
  dsimp only
  rw [hdev, hino, hcmd, hflags]
  split
  · exact alike_error _ _
  split
  · exact alike_error _ _
  split
  · exact alike_error _ _
  split
  · exact alike_error _ _
  · exact alike_error _ _

theorem execQuery_alike (s : Sys) (svdefs : List Svdef) (h : c.pkt.take 19 = c'.pkt.take 19) :
    let r := perpdConnExecQuery s svdefs c
    let r' := perpdConnExecQuery s svdefs c'
    Alike c c' ((r.1, svdefs), r.2) ((r'.1, svdefs), r'.2) := by
  have hdev : upak64Unpack (pktData c.pkt) = upak64Unpack (pktData c'.pkt) :=
    upak64_alike h (by decide)
  have hino : upak64Unpack ((pktData c.pkt).drop 8) = upak64Unpack ((pktData c'.pkt).drop 8) := by
    simpa [pktData] using upak64_alike (j := 11) h (by decide)
  unfold perpdConnExecQuery
  dsimp only
  rw [hdev, hino]
  split
  · exact alike_error _ _
  · next sd _ =>
    exact ⟨rfl, statusPacket s sd, statusReply_replied s sd c, statusReply_replied s sd c'⟩

/-- A request is carried out and answered by its bytes, whatever else is in the
buffer, and on whatever connection it comes. -/
theorem exec_alike (s : Sys) (svdefs : List Svdef) (hn : c.n = c'.n)
    (h : c.pkt.take c.n = c'.pkt.take c.n) :
    Alike c c' (perpdConnExec s svdefs c) (perpdConnExec s svdefs c') := by
  have hs : s.emit (.request (c.pkt.take c.n)) = s.emit (.request (c'.pkt.take c'.n)) := by
    rw [h, hn]
  have hheader (hc : pktHeader ≤ c.n) : pktProto c.pkt = pktProto c'.pkt ∧
      pktType c.pkt = pktType c'.pkt ∧ pktLen c.pkt = pktLen c'.pkt :=
    ⟨byteAt_take h (Nat.lt_of_lt_of_le (by decide) hc),
      byteAt_take h (Nat.lt_of_lt_of_le (by decide) hc), pktLen_take h hc⟩
  by_cases hbad : c.n < pktHeader ∨ pktProto c.pkt ≠ 2 ∨ pktLen c.pkt ≠ c.n
  · have hbad' : c'.n < pktHeader ∨ pktProto c'.pkt ≠ 2 ∨ pktLen c'.pkt ≠ c'.n := by
      rw [← hn]
      by_cases hc : c.n < pktHeader
      · exact Or.inl hc
      · obtain ⟨hproto, _, hlen⟩ := hheader (by omega)
        rwa [hproto, hlen] at hbad
    rw [exec_bad s svdefs hbad, exec_bad s svdefs hbad', hs]
    exact alike_error _ _
  have hc : pktHeader ≤ c.n := by
    by_contra hlt
    exact hbad (Or.inl (by omega))
  obtain ⟨hproto, htype, hlen⟩ := hheader hc
  have hbad' : ¬ (c'.n < pktHeader ∨ pktProto c'.pkt ≠ 2 ∨ pktLen c'.pkt ≠ c'.n) := by
    rwa [← hn, ← hproto, ← hlen]
  rw [exec_dispatch s svdefs hbad, exec_dispatch s svdefs hbad', hs, ← htype, ← hn]
  split
  · split
    · exact alike_error _ _
    · next hsize =>
      have h21 : c.n = 21 := by simpa using hsize
      rw [h21] at h
      exact execControl_alike _ svdefs h
  split
  · split
    · exact alike_error _ _
    · next hsize =>
      have h19 : c.n = 19 := by simpa using hsize
      rw [h19] at h
      exact execQuery_alike _ svdefs h
  split
  · exact alike_error _ _
  · exact alike_error _ _

theorem exec_buffer (s : Sys) (svdefs : List Svdef) (c : Conn) (h : c.pkt.length = pktSize) :
    (perpdConnExec s svdefs c).2.pkt.length = pktSize := by
  have herr (err : UInt32) : (perpdConnExecReply c err).pkt.length = pktSize := by
    rw [execReply_pkt, List.length_append, List.length_drop, h]
    rfl
  rcases exec_cases s svdefs c with ⟨i, sd, cmd, _, he⟩ | ⟨sd, _, he⟩ | ⟨err, _, he⟩ <;> rw [he]
  · exact herr 0
  · rw [statusReply_pkt, List.length_append, List.length_drop, h]
    simp [statusPacket, statusPayload_length, pktSize, pktHeader, pktPayload]
  · exact herr err

theorem entrySteps_owned {x y : Sys × Svdef} (h : EntrySteps x y) : Within Own x.1 y.1 := by
  induction h with
  | refl => exact .refl _
  | tail _ hs ih => exact ih.trans (entryStep_owned hs)

theorem exec_trace (s : Sys) (svdefs : List Svdef) (c : Conn) :
    Within Own (s.emit (.request (c.pkt.take c.n))) (perpdConnExec s svdefs c).1.1 := by
  rcases exec_cases s svdefs c with ⟨i, sd, cmd, hcmd, he⟩ | ⟨sd, _, he⟩ | ⟨err, _, he⟩ <;> rw [he]
  · exact entrySteps_owned (doControl_steps hcmd.cull _ _ _)
  · exact .emit _ _ trivial
  · exact .refl _

end Exec
/-- What happened between two states. -/
def events (s s' : Sys) : List Event := s'.trace.drop s.trace.length

/-- The requests that were carried out. -/
def requests (s s' : Sys) : List (List UInt8) :=
  (events s s').filterMap fun
    | .request p => some p
    | _ => none

/-- The bytes that were written. -/
def sent (s s' : Sys) : List UInt8 :=
  (events s s').flatMap fun
    | .sent _ bytes => bytes
    | _ => []

theorem events_append {s s' : Sys} {evs : List Event} (h : s'.trace = s.trace ++ evs) :
    events s s' = evs := by
  rw [events, h, List.drop_left]

/-- Nothing is carried out, and these bytes are written. -/
structure Wrote (s s' : Sys) (bytes : List UInt8) : Prop where
  requests : requests s s' = []
  sent : sent s s' = bytes

theorem wrote_self (s : Sys) : Wrote s s [] := by
  constructor <;> simp [requests, sent, events]

theorem wrote_close (s : Sys) (c : Conn) : Wrote s (perpdConnClose s c).1 [] := by
  unfold perpdConnClose
  cases hc : c.connfd with
  | none => exact wrote_self s
  | some fd =>
    have he : events s (s.close fd) = [.closed fd (s.fds fd)] := events_append rfl
    constructor <;> simp [requests, sent, he]

theorem exec_events (s : Sys) (svdefs : List Svdef) (c : Conn) :
    let s' := (perpdConnExec s svdefs c).1.1
    requests s s' = [c.pkt.take c.n] ∧ sent s s' = [] := by
  obtain ⟨evs, ht, hp⟩ := exec_trace s svdefs c
  have he : events s (perpdConnExec s svdefs c).1.1 = .request (c.pkt.take c.n) :: evs := by
    apply events_append
    rw [ht]
    simp [Sys.emit]
  have hnone : evs.filterMap (fun
      | .request p => some p
      | _ => none) = ([] : List (List UInt8)) := by
    apply List.filterMap_eq_nil_iff.mpr
    intro e hm
    have hown := hp e hm
    cases e <;> first | rfl | exact hown.elim
  have hsilent : evs.flatMap (fun
      | .sent _ bytes => bytes
      | _ => []) = ([] : List UInt8) := by
    apply List.flatMap_eq_nil_iff.mpr
    intro e hm
    have hown := hp e hm
    cases e <;> first | rfl | exact hown.elim
  constructor
  · rw [requests, he, List.filterMap_cons, hnone]
  · rw [sent, he, List.flatMap_cons, hsilent]
    rfl

section Conn
variable {c : Conn} {p : List UInt8}

/-- What `perpd_conn_read()` makes of the request `p`, when it has part of it
and the next bytes are delivered. -/
inductive Reads (p : List UInt8) (s : Sys) (svdefs : List Svdef) (c : Conn) (outs : List ReadRet) :
    (Sys × List Svdef) × Conn → Prop
  | closed (k : List UInt8) (hk : k.length = pktSize) (he : ends outs = true)
      (hm : c.n + (delivered outs).length < p.length) :
      Reads p s svdefs c outs (((perpdConnClose s { c with pkt := k }).1, svdefs),
        (perpdConnClose s { c with pkt := k }).2)
  | more (k : List UInt8) (hk : k.length = pktSize)
      (h : k.take (c.n + (delivered outs).length) = p.take (c.n + (delivered outs).length))
      (hm : c.n + (delivered outs).length < p.length) :
      Reads p s svdefs c outs
        ((s, svdefs), { c with pkt := k, n := c.n + (delivered outs).length })
  | whole (k : List UInt8) (hk : k.length = pktSize) (h : k.take p.length = p)
      (hm : c.n + (delivered outs).length = p.length) :
      Reads p s svdefs c outs (perpdConnExec s svdefs { c with pkt := k, n := p.length })

theorem pktCheck_whole {k : List UInt8} {n : ℕ} (hp : Whole p) (h : k.take n = p.take n)
    (hn : n ≤ p.length) : perpdPktCheck k n = decide (n = p.length) := by
  have h3 := hp.1
  have hl := hp.2
  unfold perpdPktCheck
  by_cases hlt : n < pktHeader
  · have hne : n ≠ p.length := by omega
    simp [hlt, hne]
  · rw [pktLen_take h (by omega), hl]
    by_cases he : n = p.length
    · simp [he]
      omega
    · have hless : n < p.length := by omega
      simp [he, hless]

theorem connRead_spec (hp : Whole p) (s : Sys) (svdefs : List Svdef) {outs : List ReadRet}
    (hbuf : c.pkt.length = pktSize) (h : c.pkt.take c.n = p.take c.n) (hn : c.n < p.length)
    (hd : delivered outs <+: p.drop c.n) (hr : Ready outs) :
    Reads p s svdefs c outs (perpdConnRead s svdefs c outs) := by
  have hspec := pktRead_spec hp hbuf h hn hd
  have hlen : c.n + (delivered outs).length ≤ p.length := by
    have hle := hd.length_le
    rw [List.length_drop] at hle
    omega
  unfold perpdConnRead
  dsimp only
  split
  · next hret =>
    rcases hspec.ret with ⟨_, he, hm⟩ | ⟨hr1, _⟩
    · exact .closed _ hspec.buffer he hm
    · -- nothing has been delivered
      have hnil : delivered outs = [] := by
        apply List.eq_nil_of_length_eq_zero
        omega
      have he : ends outs = true := by
        by_contra hne
        exact delivered_pos hr (by simpa using hne) hnil
      refine .closed _ hspec.buffer he ?_
      rw [hnil]
      simpa using hn
  · next hret =>
    rcases hspec.ret with ⟨hr1, _⟩ | ⟨hr1, hk⟩
    · exact absurd hr1 hret
    have hsum : c.n + (pktRead outs c.pkt c.n).1.toNat = c.n + (delivered outs).length := by
      omega
    rw [hsum, pktCheck_whole hp hk hlen]
    split
    · next he =>
      have hall : c.n + (delivered outs).length = p.length := by simpa using he
      rw [hall] at hk ⊢
      rw [List.take_length] at hk
      exact .whole _ hspec.buffer hk hall
    · next he =>
      have hne : c.n + (delivered outs).length ≠ p.length := by simpa using he
      exact .more _ hspec.buffer hk (by omega)

/-- What `perpd_conn_write()` makes of a reply. -/
inductive Writes (s : Sys) (c : Conn) (outs : List WriteRet) (m : ℕ) : Sys × Conn → Prop
  | closed (he : refuses outs = true) :
      Writes s c outs m (perpdConnClose (s.emit (.sent c.connfd ((c.pkt.drop c.w).take m))) c)
  | more (hm : c.w + m < c.n) :
      Writes s c outs m (s.emit (.sent c.connfd ((c.pkt.drop c.w).take m)), { c with w := c.w + m })
  | whole (hm : c.w + m = c.n) :
      Writes s c outs m
        (perpdConnStart (s.emit (.sent c.connfd ((c.pkt.drop c.w).take m))) c c.connfd)

theorem connWrite_spec (s : Sys) (outs : List WriteRet) (hn : pktLen c.pkt = c.n) (hw : c.w ≤ c.n) :
    ∃ m, c.w + m ≤ c.n ∧ Writes s c outs m (perpdConnWrite s c outs) := by
  obtain ⟨m, hspec⟩ := pktWrite_spec outs (hn ▸ hw : c.w ≤ pktLen c.pkt)
  have hm : c.w + m ≤ c.n := hn ▸ hspec.bound
  refine ⟨m, hm, ?_⟩
  unfold perpdConnWrite
  dsimp only
  rw [hspec.out]
  split
  · next hret =>
    rcases hspec.ret with ⟨_, he⟩ | hr1
    · exact .closed he
    · omega
  · next hret =>
    rcases hspec.ret with ⟨hr1, _⟩ | hr1
    · exact absurd hr1 hret
    rw [hr1, Int.toNat_natCast]
    split
    · next he => exact .whole he
    · next he => exact .more (by omega)

end Conn

/-- A request that arrives whole, on a connection that nothing has come on yet. -/
def wholeRun (s : Sys) (svdefs : List Svdef) (p : List UInt8) : (Sys × List Svdef) × Conn :=
  perpdConnRead s svdefs ⟨none, .zero, .reading, List.replicate pktSize 0, 0, 0⟩ [.data p]

/-- Its reply, when it leaves in one write. -/
def wholeReply (s : Sys) (svdefs : List Svdef) (p : List UInt8) : List UInt8 :=
  (pktWrite [.wrote pktSize] (wholeRun s svdefs p).2.pkt 0).2

section Whole
variable {p : List UInt8}

theorem wholeRun_exec (hp : Whole p) (s : Sys) (svdefs : List Svdef) :
    ∃ c : Conn, c.n = p.length ∧ c.pkt.take p.length = p ∧
      wholeRun s svdefs p = perpdConnExec s svdefs c := by
  have hd : delivered [.data p] = p := by
    cases p with
    | nil => rfl
    | cons b bytes => simp [delivered]
  have hpos : 0 < p.length := Nat.lt_of_lt_of_le (by decide) hp.1
  have hreads : Reads p s svdefs _ _ (wholeRun s svdefs p) :=
    connRead_spec hp s svdefs (List.length_replicate ..) (by simp) hpos (by simp [hd]) trivial
  generalize hx : wholeRun s svdefs p = x at hreads
  cases hreads with
  | closed k _ _ hm =>
    rw [hd] at hm
    simp at hm
  | more k _ _ hm =>
    rw [hd] at hm
    simp at hm
  | whole k _ h _ => exact ⟨_, rfl, h, rfl⟩

/-- The same request, however it came, has the same effect and the same reply. -/
theorem exec_whole (hp : Whole p) (s : Sys) (svdefs : List Svdef) {c : Conn}
    (hn : c.n = p.length) (h : c.pkt.take p.length = p) :
    (perpdConnExec s svdefs c).1 = (wholeRun s svdefs p).1 ∧
      Replied c (perpdConnExec s svdefs c).2 (wholeReply s svdefs p) := by
  obtain ⟨c', hn', h', hrun⟩ := wholeRun_exec hp s svdefs
  have hpkt : c.pkt.take c.n = c'.pkt.take c.n := by rw [hn, h, h']
  obtain ⟨heffect, reply, hr, hr'⟩ := exec_alike s svdefs (hn.trans hn'.symm) hpkt
  rw [← hrun] at heffect hr'
  have hwhole : wholeReply s svdefs p = reply := by
    apply pktWrite_whole
    rw [hr'.whole]
    exact hr'.pkt
  rw [hwhole]
  exact ⟨heffect, hr⟩

theorem replied_whole {c c' : Conn} {reply : List UInt8} (h : Replied c c' reply) :
    Whole reply := by
  have hself : c'.pkt.take c'.n = reply.take c'.n := by
    rw [h.pkt, h.n, List.take_length]
  have hlen : pktHeader ≤ c'.n := by
    rw [← h.whole]
    unfold pktLen
    omega
  refine ⟨h.n ▸ hlen, ?_⟩
  rw [← pktLen_take hself hlen, h.whole, h.n]

end Whole

theorem writes_wrote {s : Sys} {c : Conn} {outs : List WriteRet} {m : ℕ} {r : Sys × Conn}
    (h : Writes s c outs m r) : Wrote s r.1 ((c.pkt.drop c.w).take m) := by
  cases h with
  | closed he =>
    unfold perpdConnClose
    cases hc : c.connfd with
    | none =>
      have hev : events s (s.emit (.sent none ((c.pkt.drop c.w).take m))) =
          [.sent none ((c.pkt.drop c.w).take m)] := events_append rfl
      constructor <;> simp [requests, sent, hev]
    | some fd =>
      have hev : events s ((s.emit (.sent (some fd) ((c.pkt.drop c.w).take m))).close fd) =
          [.sent (some fd) ((c.pkt.drop c.w).take m), .closed fd (s.fds fd)] := by
        apply events_append
        simp [Sys.emit, Sys.close]
      constructor <;> simp [requests, sent, hev]
  | more hm =>
    have hev : events s (s.emit (.sent c.connfd ((c.pkt.drop c.w).take m))) =
        [.sent c.connfd ((c.pkt.drop c.w).take m)] := events_append rfl
    constructor <;> simp [requests, sent, hev]
  | whole hm =>
    have hev : events s (perpdConnStart (s.emit (.sent c.connfd ((c.pkt.drop c.w).take m))) c
        c.connfd).1 = [.sent c.connfd ((c.pkt.drop c.w).take m)] := events_append rfl
    constructor <;> simp [requests, sent, hev]

end Perp.PerpdPieces
