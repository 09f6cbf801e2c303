import Perp.PerpdRequests

set_option autoImplicit false

/-!
# Replies

Every complete packet is answered by one packet. It commands a service only if
it passes every check of `perpd_conn_exec()`.
-/
namespace Perp.PerpdReplies
open PerpdState PerpdSvdef PerpdConn PerpdMainloop PerpdRequests Pkt

/-- An 'E' packet. -/
def errorPacket (err : UInt32) : List UInt8 := 2 :: 69 :: 4 :: upak32Pack err

/-- An 'S' packet. -/
def statusPacket (s : Sys) (sd : Svdef) : List UInt8 := 2 :: 83 :: 66 :: statusPayload s sd

/-- What the connection has left to do is to send this packet, from its start. -/
structure Replied (c c' : Conn) (reply : List UInt8) : Prop where
  connfd : c'.connfd = c.connfd
  stamp : c'.stamp = c.stamp
  state : c'.state = .writing
  w : c'.w = 0
  n : c'.n = reply.length
  whole : pktLen c'.pkt = c'.n
  pkt : c'.pkt.take c'.n = reply

theorem statusPayload_length (s : Sys) (sd : Svdef) : (statusPayload s sd).length = 66 := by
  unfold statusPayload
  split <;> simp [upak32Pack, Tain.pack]

theorem execReply_replied (c : Conn) (err : UInt32) :
    Replied c (perpdConnExecReply c err) (errorPacket err) := by
  have hn : (perpdConnExecReply c err).n = pktLen (perpdConnExecReply c err).pkt := rfl
  have hlen : pktLen (perpdConnExecReply c err).pkt = 7 := by
    rw [execReply_pkt]
    rfl
  refine ⟨rfl, rfl, rfl, rfl, ?_, hn.symm, ?_⟩
  · rw [hn, hlen]
    rfl
  · rw [hn, hlen, execReply_pkt]
    simp [errorPacket, upak32Pack]

theorem statusReply_pkt (s : Sys) (sd : Svdef) (c : Conn) :
    (statusReply s sd c).pkt = statusPacket s sd ++ c.pkt.drop 69 := by
  simp [statusReply, pktLoad, statusPayload_length, pktSize, pktHeader, pktPayload, bufWrite,
    statusPacket]

theorem statusReply_replied (s : Sys) (sd : Svdef) (c : Conn) :
    Replied c (statusReply s sd c) (statusPacket s sd) := by
  have hn : (statusReply s sd c).n = pktLen (statusReply s sd c).pkt := rfl
  have hlen : pktLen (statusReply s sd c).pkt = 69 := by
    rw [statusReply_pkt]
    rfl
  have hreply : (statusPacket s sd).length = 69 := by
    simp [statusPacket, statusPayload_length]
  refine ⟨rfl, rfl, rfl, rfl, ?_, hn.symm, ?_⟩
  · rw [hn, hlen, hreply]
  · rw [hn, hlen, statusReply_pkt, ← hreply, List.take_left']
    rfl

theorem typed_checked {pkt : List UInt8} {n : ℕ} {type : UInt8} {len : ℕ}
    (h : Typed pkt n type len) : ¬ (n < pktHeader ∨ pktProto pkt ≠ 2 ∨ pktLen pkt ≠ n) := by
  have hn := h.size
  simp [h.proto, h.whole, pktHeader]
  omega

theorem exec_commands (s : Sys) {svdefs : List Svdef} {c : Conn} {i : ℕ} {sd : Svdef} {cmd : Cmd}
    (h : Commands c.pkt c.n svdefs i sd cmd) :
    let r := doControl (s.emit (.request (c.pkt.take c.n))) sd (ctlWhich c.pkt) cmd (ctlKillpg c.pkt)
    perpdConnExec s svdefs c = ((r.1, svdefs.set i r.2), perpdConnExecReply c 0) := by
  have hlk := h.lookup
  simp only [ctlKey] at hlk
  rw [exec_dispatch s svdefs (typed_checked h.toTyped), if_pos h.type, if_neg (by simp [h.size])]
  unfold perpdConnExecControl
  simp only [hlk, h.entry, h.cull, h.cmd, ctlWhich, ctlKillpg, Bool.false_eq_true, ↓reduceIte]

theorem exec_queries (s : Sys) {svdefs : List Svdef} {c : Conn} {sd : Svdef}
    (h : Queries c.pkt c.n svdefs sd) :
    let s0 := s.emit (.request (c.pkt.take c.n))
    perpdConnExec s svdefs c = ((s0.emitSv sd .status, svdefs), statusReply s0 sd c) := by
  have hlk := h.lookup
  simp only [ctlKey] at hlk
  rw [exec_dispatch s svdefs (typed_checked h.toTyped), if_neg (by simp [h.type]), if_pos h.type,
    if_neg (by simp [h.size])]
  unfold perpdConnExecQuery
  simp only [hlk, statusReply]

/-- A complete packet changes the table, forks or signals only if it is a well
formed command for an entry that is not being deactivated. Any other leaves all
as it was. There is one reply: the status, if the packet is a well formed query
of an entry, and else an error, which is 0 after a command alone. -/
theorem request_checked (s : Sys) (svdefs : List Svdef) (c : Conn) :
    let s0 := s.emit (.request (c.pkt.take c.n))
    let r := perpdConnExec s svdefs c
    (∃ i sd cmd, Commands c.pkt c.n svdefs i sd cmd ∧
      r.1 = (fun d : Sys × Svdef => (d.1, svdefs.set i d.2))
        (doControl s0 sd (ctlWhich c.pkt) cmd (ctlKillpg c.pkt)) ∧
      Replied c r.2 (errorPacket 0)) ∨
    ((∀ i sd cmd, ¬ Commands c.pkt c.n svdefs i sd cmd) ∧
      ((∃ sd, Queries c.pkt c.n svdefs sd ∧ r.1 = (s0.emitSv sd .status, svdefs) ∧
        Replied c r.2 (statusPacket s sd)) ∨
      (∀ sd, ¬ Queries c.pkt c.n svdefs sd) ∧ r.1 = (s0, svdefs) ∧
        ∃ err, err ≠ 0 ∧ Replied c r.2 (errorPacket err))) := by
  intro s0 r
  by_cases hc : ∃ i sd cmd, Commands c.pkt c.n svdefs i sd cmd
  · obtain ⟨i, sd, cmd, hcmd⟩ := hc
    have he := exec_commands s hcmd
    refine Or.inl ⟨i, sd, cmd, hcmd, ?_, ?_⟩
    · simp only [r, he, s0]
    · simp only [r, he]
      exact execReply_replied c 0
  have hnc : ∀ i sd cmd, ¬ Commands c.pkt c.n svdefs i sd cmd := fun i sd cmd h => hc ⟨i, sd, cmd, h⟩
  refine Or.inr ⟨hnc, ?_⟩
  by_cases hq : ∃ sd, Queries c.pkt c.n svdefs sd
  · obtain ⟨sd, hsd⟩ := hq
    have he := exec_queries s hsd
    refine Or.inl ⟨sd, hsd, ?_, ?_⟩
    · simp only [r, he, s0]
    · simp only [r, he]
      exact statusReply_replied _ sd c
  have hnq : ∀ sd, ¬ Queries c.pkt c.n svdefs sd := fun sd h => hq ⟨sd, h⟩
  refine Or.inr ⟨hnq, ?_⟩
  rcases exec_cases s svdefs c with ⟨i, sd, cmd, hcmd, _⟩ | ⟨sd, hsd, _⟩ | ⟨err, herr, he⟩
  · exact absurd hcmd (hnc i sd cmd)
  · exact absurd hsd (hnq sd)
  · refine ⟨?_, err, herr, ?_⟩
    · simp only [r, he, s0]
    · simp only [r, he]
      exact execReply_replied c err

end Perp.PerpdReplies
