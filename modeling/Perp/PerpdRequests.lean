import Perp.PerpdPhases

set_option autoImplicit false

/-!
# What a request does

`perpd_conn_exec()` carries out a command, answers a query, or refuses. It
refuses without a look at anything but the packet and the table.
-/
namespace Perp.PerpdRequests
open PerpdState PerpdSvdef PerpdConn PerpdMainloop PerpdFrame PerpdEntry PerpdEffect PerpdSlots
  PerpdActivate PerpdMoves PerpdStill PerpdPhases Pkt

/-- The fields of a control packet. -/
def ctlKey (pkt : List UInt8) : UInt64 × UInt64 :=
  (upak64Unpack (pktData pkt), upak64Unpack ((pktData pkt).drop 8))
def ctlWhich (pkt : List UInt8) : Which :=
  if byteAt (pktData pkt) 17 &&& svcmdFlagLog != 0 then .log else .main
def ctlKillpg (pkt : List UInt8) : Bool := byteAt (pktData pkt) 17 &&& svcmdFlagKillpg != 0

/-- The packet of `n` bytes is a request of this type, with a payload of this length. -/
structure Typed (pkt : List UInt8) (n : ℕ) (type : UInt8) (len : ℕ) : Prop where
  proto : pktProto pkt = 2
  type : pktType pkt = type
  size : n = len + 3
  whole : pktLen pkt = n

/-- The packet commands `cmd` for the `i`-th entry. -/
structure Commands (pkt : List UInt8) (n : ℕ) (svdefs : List Svdef) (i : ℕ) (sd : Svdef)
    (cmd : Cmd) : Prop extends Typed pkt n 67 18 where
  lookup : perpdLookup svdefs (ctlKey pkt).1 (ctlKey pkt).2 = some i
  entry : svdefs[i]? = some sd
  cull : sd.has .cull = false
  cmd : Cmd.ofByte (byteAt (pktData pkt) 16) = some cmd

/-- The packet asks for the status of the entry. -/
structure Queries (pkt : List UInt8) (n : ℕ) (svdefs : List Svdef) (sd : Svdef) : Prop
    extends Typed pkt n 81 16 where
  lookup : (perpdLookup svdefs (ctlKey pkt).1 (ctlKey pkt).2).bind (svdefs[·]?) = some sd

/-- The reply to a query. -/
def statusReply (s : Sys) (sd : Svdef) (client : Conn) : Conn :=
  let pkt := (pktLoad client.pkt 2 83 (statusPayload s sd)).1
  { client with pkt := pkt, n := pktLen pkt, w := 0, state := .writing }

theorem execReply_pkt (client : Conn) (err : UInt32) : (perpdConnExecReply client err).pkt =
    2 :: 69 :: 4 :: upak32Pack err ++ client.pkt.drop 7 := by
  simp [perpdConnExecReply, pktLoad, pktSize, pktHeader, pktPayload, upak32Pack, bufWrite]

theorem execReply_execReply (client : Conn) (e e' : UInt32) :
    perpdConnExecReply (perpdConnExecReply client e) e' = perpdConnExecReply client e' := by
  have h := execReply_pkt (perpdConnExecReply client e) e'
  rw [execReply_pkt client e] at h
  have h' := execReply_pkt client e'
  have hpkt : (perpdConnExecReply (perpdConnExecReply client e) e').pkt =
      (perpdConnExecReply client e').pkt := by
    rw [h, h']
    simp [upak32Pack]
  unfold perpdConnExecReply at hpkt ⊢
  simp only at hpkt
  simp only [hpkt]

theorem exec_dispatch (s : Sys) (svdefs : List Svdef) {c : Conn}
    (h : ¬ (c.n < pktHeader ∨ pktProto c.pkt ≠ 2 ∨ pktLen c.pkt ≠ c.n)) :
    let s0 := s.emit (.request (c.pkt.take c.n))
    perpdConnExec s svdefs c =
      if pktType c.pkt = 67 then
        if c.n ≠ 18 + 3 then ((s0, svdefs), perpdConnExecReply c ePROTO)
        else perpdConnExecControl s0 svdefs c
      else if pktType c.pkt = 81 then
        if c.n ≠ 16 + 3 then ((s0, svdefs), perpdConnExecReply c ePROTO)
        else (((perpdConnExecQuery s0 svdefs c).1, svdefs), (perpdConnExecQuery s0 svdefs c).2)
      else if pktType c.pkt = 89 then ((s0, svdefs), perpdConnExecReply c eNOTSUP)
      else ((s0, svdefs), perpdConnExecReply c ePROTO) := by
  unfold perpdConnExec
  simp only [h, ↓reduceIte]

/-- For a bad header the refusal is dispatched, and is of no type that is served. -/
theorem exec_bad (s : Sys) (svdefs : List Svdef) {c : Conn}
    (h : c.n < pktHeader ∨ pktProto c.pkt ≠ 2 ∨ pktLen c.pkt ≠ c.n) :
    perpdConnExec s svdefs c =
      ((s.emit (.request (c.pkt.take c.n)), svdefs), perpdConnExecReply c ePROTO) := by
  have ht : pktType (perpdConnExecReply c ePROTO).pkt = 69 := by
    rw [execReply_pkt]
    rfl
  unfold perpdConnExec
  simp [h, ht, execReply_execReply]

theorem exec_cases (s : Sys) (svdefs : List Svdef) (c : Conn) :
    let s0 := s.emit (.request (c.pkt.take c.n))
    (∃ i sd cmd, Commands c.pkt c.n svdefs i sd cmd ∧ perpdConnExec s svdefs c =
      (((doControl s0 sd (ctlWhich c.pkt) cmd (ctlKillpg c.pkt)).1,
        svdefs.set i (doControl s0 sd (ctlWhich c.pkt) cmd (ctlKillpg c.pkt)).2),
        perpdConnExecReply c 0)) ∨
    (∃ sd, Queries c.pkt c.n svdefs sd ∧ perpdConnExec s svdefs c =
      ((s0.emitSv sd .status, svdefs), statusReply s0 sd c)) ∨
    (∃ err, err ≠ 0 ∧ perpdConnExec s svdefs c = ((s0, svdefs), perpdConnExecReply c err)) := by
  intro s0
  by_cases hbad : c.n < pktHeader ∨ pktProto c.pkt ≠ 2 ∨ pktLen c.pkt ≠ c.n
  · exact Or.inr (Or.inr ⟨ePROTO, by decide, exec_bad s svdefs hbad⟩)
  obtain ⟨_, hproto, hlen⟩ : pktHeader ≤ c.n ∧ pktProto c.pkt = 2 ∧ pktLen c.pkt = c.n := by
    simpa using hbad
  rw [exec_dispatch s svdefs hbad]
  split
  · next htype =>
    split
    · exact Or.inr (Or.inr ⟨ePROTO, by decide, rfl⟩)
    next hn =>
    unfold perpdConnExecControl
    dsimp only
    split
    · exact Or.inr (Or.inr ⟨eNOENT, by decide, rfl⟩)
    next i hlk =>
    split
    · exact Or.inr (Or.inr ⟨eNOENT, by decide, rfl⟩)
    next sd hi =>
    split
    · exact Or.inr (Or.inr ⟨eBUSY, by decide, rfl⟩)
    next hcull =>
    split
    · exact Or.inr (Or.inr ⟨ePROTO, by decide, rfl⟩)
    next cmd hcmd =>
    refine Or.inl ⟨i, sd, cmd, ⟨⟨hproto, htype, by simpa using hn, hlen⟩, hlk, hi,
      by simpa using hcull, hcmd⟩, rfl⟩
  split
  · next htype =>
    split
    · exact Or.inr (Or.inr ⟨ePROTO, by decide, rfl⟩)
    next hn =>
    unfold perpdConnExecQuery
    dsimp only
    split
    · exact Or.inr (Or.inr ⟨eNOTDIR, by decide, rfl⟩)
    next sd hsd =>
    exact Or.inr (Or.inl ⟨sd, ⟨⟨hproto, htype, by simpa using hn, hlen⟩, hsd⟩, rfl⟩)
  split
  · exact Or.inr (Or.inr ⟨eNOTSUP, by decide, rfl⟩)
  · exact Or.inr (Or.inr ⟨ePROTO, by decide, rfl⟩)

theorem doControl_cull {s : Sys} {sd : Svdef} (hc : sd.has .cull = false) (which : Which)
    (cmd : Cmd) (pg : Bool) : (doControl s sd which cmd pg).2.has .cull = false := by
  have hsig (cmd : Cmd) : (doSignal s sd which cmd pg).2.has .cull = false := by
    unfold doSignal
    dsimp only
    split <;> exact hc
  cases cmd with
  | metaDown =>
    unfold doControl
    dsimp only
    split
    · exact (doDown_steps (doDown_steps hc .main pg).2 .log pg).2
    · exact hc
  | metaUp =>
    unfold doControl
    dsimp only
    split
    · rw [doStart_cull, doStart_cull]
      exact hc
    · exact hc
  | «continue» => simpa [doControl, doContinue] using hc
  | down => exact (doDown_steps hc which pg).2
  | once => exact (doStart_cull which .once).trans hc
  | up => exact (doStart_cull which .up).trans hc
  | pause =>
    unfold doControl doPause
    dsimp only
    split
    · simpa using hc
    · exact hc
  | alarm | hup | interrupt | kill | quit | term | winch | usr1 | usr2 => exact hsig _

theorem exec_culled {s : Sys} {svdefs : List Svdef} {c : Conn} {x : Svdef}
    (hx : x ∈ (perpdConnExec s svdefs c).1.2) (hc : x.has .cull = true) : x ∈ svdefs := by
  rcases exec_cases s svdefs c with ⟨i, sd, cmd, hcmd, he⟩ | ⟨sd, _, he⟩ | ⟨err, _, he⟩ <;>
    rw [he] at hx
  · rcases mem_set_cases hx with rfl | ⟨j, _, hj⟩
    · rw [doControl_cull hcmd.cull] at hc
      simp at hc
    · exact List.mem_of_getElem? hj
  · exact hx
  · exact hx

theorem connRead_culled {s : Sys} {svdefs : List Svdef} {c : Conn} {outs : List ReadRet} {x : Svdef}
    (hx : x ∈ (perpdConnRead s svdefs c outs).1.2) (hc : x.has .cull = true) : x ∈ svdefs := by
  unfold perpdConnRead at hx
  dsimp only at hx
  split at hx
  · exact hx
  split at hx
  · exact exec_culled hx hc
  · exact hx

theorem clientLoop_culled (cs : List Conn) (inps : List ClientIn) (nready : ℕ) (s : Sys)
    (svdefs : List Svdef) {x : Svdef} (hx : x ∈ (clientLoop cs inps nready s svdefs).1.2)
    (hc : x.has .cull = true) : x ∈ svdefs := by
  induction cs generalizing inps nready s svdefs with
  | nil => exact hx
  | cons c cs ih =>
    unfold clientLoop at hx
    dsimp only at hx
    split at hx
    · exact ih _ _ _ _ hx
    split at hx
    · exact hx
    split at hx
    · exact ih _ _ _ _ hx
    split at hx
    · exact connRead_culled (ih _ _ _ _ hx) hc
    split at hx
    · exact ih _ _ _ _ hx
    · exact ih _ _ _ _ hx

theorem loopClients_culled {w : Perpd} {inp : IterIn} {nready : ℕ} {x : Svdef}
    (hx : x ∈ (loopClients w inp nready).svdefs) (hc : x.has .cull = true) : x ∈ w.svdefs := by
  rcases loopClients_cases w inp nready with h | h | h <;> rw [h] at hx
  · exact hx
  · exact clientLoop_culled _ _ _ _ _ hx hc
  · obtain ⟨s, cs, ha, _⟩ := loopAccept_cases _ inp.accept
    rw [ha] at hx
    exact clientLoop_culled _ _ _ _ _ hx hc

end Perp.PerpdRequests
