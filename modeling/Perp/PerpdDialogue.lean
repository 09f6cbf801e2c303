import Perp.PerpdPieces
import Perp.PerpdClient
import Perp.PerpdClients

set_option autoImplicit false

/-!
# The dialogue with a client

A client sends a request, waits for the whole reply, and sends the next. The
socket delivers requests and takes replies in pieces of any sizes; perpd does
and answers as if every packet came and left whole.
-/
namespace Perp.PerpdDialogue
open PerpdState PerpdSvdef PerpdConn PerpdMainloop PerpdCompact PerpdPhases PerpdRuns PerpdClient
  PerpdClients PerpdReplies PerpdPieces
  Pkt
open Relation (ReflTransGen)

/-- A request that has been carried out: what perpd was before it and after it. -/
structure Served where
  request : List UInt8
  sys : Sys
  svdefs : List Svdef
  after : Sys × List Svdef

def Served.reply (x : Served) : List UInt8 := wholeReply x.sys x.svdefs x.request

/-- A client, the socket and perpd's end of the connection. -/
structure Dialogue where
  conn : Conn
  /-- the requests the client has still to send -/
  todo : List (List UInt8)
  /-- what it has sent and perpd has not read -/
  unread : List UInt8
  /-- what it has of the reply to its last request -/
  answer : Option (List UInt8)
  /-- the connection has failed or come to its end -/
  ended : Bool
  /-- all that perpd has read -/
  arrived : List UInt8
  served : List Served
  /-- all that perpd has written -/
  received : List UInt8

def Dialogue.start (c : Conn) (reqs : List (List UInt8)) : Dialogue :=
  ⟨c, reqs, [], none, false, [], [], []⟩

/-- perpd has turned to the connection: `r` is what came of it. -/
def Dialogue.turn (d : Dialogue) (s : Sys) (svdefs : List Svdef) (r : (Sys × List Svdef) × Conn) :
    Dialogue :=
  { d with
    conn := r.2
    answer := d.answer.map (· ++ sent s r.1.1)
    served := d.served ++ (requests s r.1.1).map fun p => ⟨p, s, svdefs, r.1⟩
    received := d.received ++ sent s r.1.1 }

def Dialogue.pollin (d : Dialogue) (s : Sys) (svdefs : List Svdef) (outs : List ReadRet) :
    Dialogue :=
  { d.turn s svdefs (perpdConnRead s svdefs d.conn outs) with
    unread := d.unread.drop (delivered outs).length
    ended := d.ended || ends outs
    arrived := d.arrived ++ delivered outs }

def Dialogue.pollout (d : Dialogue) (s : Sys) (svdefs : List Svdef) (outs : List WriteRet) :
    Dialogue :=
  let r := perpdConnWrite s d.conn outs
  { d.turn s svdefs ((r.1, svdefs), r.2) with ended := d.ended || refuses outs }

def Dialogue.hangup (d : Dialogue) (s : Sys) (svdefs : List Svdef) : Dialogue :=
  let r := perpdConnClose s d.conn
  { d.turn s svdefs ((r.1, svdefs), r.2) with ended := true }

/-- What happens to a dialogue. What the rest of perpd is at a `POLLIN` or
`POLLOUT` is left open. -/
inductive Dialogue.Step : Dialogue → Dialogue → Prop
  /-- the client has the whole of the last reply, and sends its next request -/
  | send {d : Dialogue} {p : List UInt8} {ps : List (List UInt8)} (ht : d.todo = p :: ps)
      (ha : ∀ a ∈ d.answer, Whole a) :
      Step d { d with todo := ps, unread := d.unread ++ p, answer := some [] }
  | pollin {d : Dialogue} (s : Sys) (svdefs : List Svdef) (outs : List ReadRet)
      (hc : d.conn.state = .reading) (hr : Ready outs) (hd : delivered outs <+: d.unread) :
      Step d (d.pollin s svdefs outs)
  | pollout {d : Dialogue} (s : Sys) (svdefs : List Svdef) (outs : List WriteRet)
      (hc : d.conn.state = .writing) : Step d (d.pollout s svdefs outs)
  | hangup {d : Dialogue} (s : Sys) (svdefs : List Svdef) : Step d (d.hangup s svdefs)

/-- A connection that `perpd_conn_start()` has just been called on. -/
structure Started (c : Conn) : Prop where
  state : c.state = .reading
  n : c.n = 0
  w : c.w = 0
  buffer : c.pkt.length = pktSize

/-- The requests that are completely within the first `m` bytes. -/
def complete : List (List UInt8) → ℕ → List (List UInt8)
  | [], _ => []
  | p :: ps, m => if p.length ≤ m then p :: complete ps (m - p.length) else []

theorem complete_append (done rest : List (List UInt8)) (m : ℕ)
    (h : ∀ p ∈ rest.head?, m < p.length) :
    complete (done ++ rest) (done.flatten.length + m) = done := by
  induction done with
  | nil =>
    cases rest with
    | nil => rfl
    | cons p ps =>
      have hm := h p rfl
      simp only [List.nil_append, List.flatten_nil, List.length_nil, Nat.zero_add, complete]
      rw [if_neg (by omega)]
  | cons q qs ih =>
    have hsub : q.length + qs.flatten.length + m - q.length = qs.flatten.length + m := by omega
    simp only [List.cons_append, List.flatten_cons, List.length_append, complete]
    rw [if_pos (by omega), hsub, ih]

def Dialogue.replies (d : Dialogue) : List UInt8 := (d.served.map (·.reply)).flatten

def Dialogue.executed (d : Dialogue) : List (List UInt8) := d.served.map (·.request)

/-- Where a dialogue is. -/
inductive Phase (reqs : List (List UInt8)) (d : Dialogue) : Prop
  /-- perpd waits for a request, and none is on its way -/
  | idle (hs : d.conn.state = .reading) (hn : d.conn.n = 0) (hw : d.conn.w = 0)
      (hu : d.unread = []) (hreqs : d.executed ++ d.todo = reqs)
      (harr : d.arrived = d.executed.flatten) (hrec : d.received = d.replies)
  /-- part of the request `p` has arrived -/
  | request (p : List UInt8) (hs : d.conn.state = .reading) (hw : d.conn.w = 0)
      (hn : d.conn.n < p.length) (hpkt : d.conn.pkt.take d.conn.n = p.take d.conn.n)
      (hu : d.unread = p.drop d.conn.n) (hreqs : d.executed ++ p :: d.todo = reqs)
      (harr : d.arrived = d.executed.flatten ++ p.take d.conn.n) (hrec : d.received = d.replies)
      (ha : d.answer = some [])
  /-- part of the reply to `x` has left -/
  | reply (earlier : List Served) (x : Served) (hs : d.conn.state = .writing)
      (hx : d.served = earlier ++ [x]) (hn : d.conn.n = x.reply.length)
      (hpkt : d.conn.pkt.take d.conn.n = x.reply) (hwhole : Whole x.reply)
      (hw : d.conn.w < d.conn.n) (hu : d.unread = []) (hreqs : d.executed ++ d.todo = reqs)
      (harr : d.arrived = d.executed.flatten)
      (hrec : d.received = (earlier.map (·.reply)).flatten ++ x.reply.take d.conn.w)
      (ha : d.answer = some (x.reply.take d.conn.w))
  | closed (hs : d.conn.state = .closed) (hn : d.conn.n = 0) (hw : d.conn.w = 0)
      (hended : d.ended = true) (hexec : d.executed = complete reqs d.arrived.length)
      (hrec : d.received <+: d.replies)

structure DialogueOk (reqs : List (List UInt8)) (d : Dialogue) : Prop where
  buffer : d.conn.pkt.length = pktSize
  bytes : d.arrived ++ d.unread ++ d.todo.flatten = reqs.flatten
  effect : ∀ x ∈ d.served, x.after = (wholeRun x.sys x.svdefs x.request).1
  phase : Phase reqs d

theorem start_ok {c : Conn} (hc : Started c) (reqs : List (List UInt8)) :
    DialogueOk reqs (.start c reqs) where
  buffer := hc.buffer
  bytes := rfl
  effect := by simp [Dialogue.start]
  phase := .idle hc.state hc.n hc.w rfl rfl rfl rfl

theorem turn_wrote {s : Sys} {svdefs svdefs' : List Svdef} {s' : Sys} {c : Conn}
    {bytes : List UInt8} (d : Dialogue) (h : Wrote s s' bytes) :
    d.turn s svdefs ((s', svdefs'), c) = { d with
      conn := c, answer := d.answer.map (· ++ bytes), received := d.received ++ bytes } := by
  simp [Dialogue.turn, h.requests, h.sent]

theorem turn_silent {s : Sys} {svdefs svdefs' : List Svdef} {s' : Sys} {c : Conn} (d : Dialogue)
    (h : Wrote s s' []) : d.turn s svdefs ((s', svdefs'), c) = { d with conn := c } := by
  simp [turn_wrote d h]

section Steps
variable {reqs : List (List UInt8)} {d d' : Dialogue}

/-- In every phase exactly the requests that have arrived are carried out, and
what has been written is part of their replies. -/
theorem Phase.settled (hw : ∀ p ∈ reqs, Whole p) (h : Phase reqs d) :
    d.executed = complete reqs d.arrived.length ∧ d.received <+: d.replies := by
  have hpos {rest : List (List UInt8)} (hreqs : d.executed ++ rest = reqs) :
      ∀ p ∈ rest.head?, 0 < p.length := by
    intro p hm
    have hmem : p ∈ reqs := by
      rw [← hreqs]
      exact List.mem_append_right _ (List.mem_of_mem_head? hm)
    exact Nat.lt_of_lt_of_le (by decide) (hw p hmem).1
  cases h with
  | idle hs hn hw' hu hreqs harr hrec =>
    have hc := complete_append d.executed d.todo 0 (hpos hreqs)
    rw [hreqs, Nat.add_zero, ← harr] at hc
    exact ⟨hc.symm, hrec ▸ List.prefix_refl _⟩
  | request p hs hw' hn hpkt hu hreqs harr hrec ha =>
    have hlen : (p.take d.conn.n).length < p.length := by
      rw [List.length_take]
      omega
    have hc := complete_append d.executed (p :: d.todo) (p.take d.conn.n).length
      (by simpa using hlen)
    rw [hreqs, ← List.length_append, ← harr] at hc
    exact ⟨hc.symm, hrec ▸ List.prefix_refl _⟩
  | reply earlier x hs hx hn hpkt hwhole hw' hu hreqs harr hrec ha =>
    have hc := complete_append d.executed d.todo 0 (hpos hreqs)
    rw [hreqs, Nat.add_zero, ← harr] at hc
    refine ⟨hc.symm, ?_⟩
    rw [hrec, Dialogue.replies, hx]
    simp only [List.map_append, List.map_cons, List.map_nil, List.flatten_append,
      List.flatten_cons, List.flatten_nil, List.append_nil]
    exact (List.prefix_append_right_inj _).mpr (List.take_prefix _ _)
  | closed hs hn hw' hended hexec hrec => exact ⟨hexec, hrec⟩

theorem step_send {p : List UInt8} {ps : List (List UInt8)} (hw : ∀ p ∈ reqs, Whole p)
    (h : DialogueOk reqs d) (ht : d.todo = p :: ps) (ha : ∀ a ∈ d.answer, Whole a) :
    DialogueOk reqs { d with todo := ps, unread := d.unread ++ p, answer := some [] } where
  buffer := h.buffer
  bytes := by
    have hb := h.bytes
    rw [ht] at hb
    simpa using hb
  effect := h.effect
  phase := by
    cases h.phase with
    | idle hs hn hw' hu hreqs harr hrec =>
      have hmem : p ∈ reqs := by
        rw [← hreqs, ht]
        simp
      refine .request p hs hw' ?_ ?_ ?_ ?_ ?_ hrec rfl
      · rw [hn]
        exact Nat.lt_of_lt_of_le (by decide) (hw p hmem).1
      · simp [hn]
      · simp [hn, hu]
      · rw [← hreqs, ht]
        rfl
      · simp only [hn, List.take_zero, List.append_nil]
        exact harr
    | request q hs hw' hn hpkt hu hreqs harr hrec hq =>
      have hnot := (ha [] (by simp [hq])).1
      exact absurd hnot (by decide)
    | reply earlier x hs hx hn hpkt hwhole hw' hu hreqs harr hrec hq =>
      have hpart := ha (x.reply.take d.conn.w) (by simp [hq])
      exact absurd hpart (not_whole_take hwhole (hn ▸ hw'))
    | closed hs hn hw' hended hexec hrec => exact .closed hs hn hw' hended hexec hrec

theorem step_hangup (hw : ∀ p ∈ reqs, Whole p) (h : DialogueOk reqs d) (s : Sys)
    (svdefs : List Svdef) : DialogueOk reqs (d.hangup s svdefs) := by
  have hnext : d.hangup s svdefs =
      { d with conn := (perpdConnClose s d.conn).2, ended := true } := by
    rw [Dialogue.hangup, turn_silent d (wrote_close s d.conn)]
  obtain ⟨hexec, hrec⟩ := h.phase.settled hw
  rw [hnext]
  exact ⟨h.buffer, h.bytes, h.effect, .closed rfl rfl rfl rfl hexec hrec⟩

theorem pollin_bytes {outs : List ReadRet} (h : DialogueOk reqs d)
    (hd : delivered outs <+: d.unread) : (d.arrived ++ delivered outs) ++
      d.unread.drop (delivered outs).length ++ d.todo.flatten = reqs.flatten := by
  have hsplit : delivered outs ++ d.unread.drop (delivered outs).length = d.unread := by
    obtain ⟨rest, hrest⟩ := hd
    rw [← hrest, List.drop_left]
  rw [List.append_assoc d.arrived, hsplit]
  exact h.bytes

theorem pollin_quiet {s : Sys} {svdefs : List Svdef} {outs : List ReadRet} {s' : Sys} {c : Conn}
    (h : DialogueOk reqs d) (hd : delivered outs <+: d.unread)
    (hread : perpdConnRead s svdefs d.conn outs = ((s', svdefs), c)) (hs : Wrote s s' [])
    (hbuf : c.pkt.length = pktSize)
    (hphase : Phase reqs { d with
      conn := c, unread := d.unread.drop (delivered outs).length, ended := d.ended || ends outs,
      arrived := d.arrived ++ delivered outs }) :
    DialogueOk reqs (d.pollin s svdefs outs) := by
  have hnext : d.pollin s svdefs outs = { d with
      conn := c, unread := d.unread.drop (delivered outs).length, ended := d.ended || ends outs,
      arrived := d.arrived ++ delivered outs } := by
    rw [Dialogue.pollin, hread, turn_silent d hs]
  rw [hnext]
  exact ⟨hbuf, pollin_bytes h hd, h.effect, hphase⟩

/-- The request is complete: it is carried out, and its reply is what is left to write. -/
theorem pollin_whole {s : Sys} {svdefs : List Svdef} {outs : List ReadRet} {p k : List UInt8}
    (h : DialogueOk reqs d) (hp : Whole p)
    (hread : perpdConnRead s svdefs d.conn outs =
      perpdConnExec s svdefs { d.conn with pkt := k, n := p.length })
    (hk : k.length = pktSize) (hk' : k.take p.length = p) (hd : delivered outs = d.unread)
    (hreqs : d.executed ++ p :: d.todo = reqs)
    (harr : d.arrived ++ delivered outs = d.executed.flatten ++ p) (hrec : d.received = d.replies)
    (ha : d.answer = some []) : DialogueOk reqs (d.pollin s svdefs outs) := by
  obtain ⟨heffect, hreply⟩ := exec_whole (c := { d.conn with pkt := k, n := p.length }) hp s svdefs
    rfl hk'
  obtain ⟨hreq, hsent⟩ := exec_events s svdefs { d.conn with pkt := k, n := p.length }
  rw [← hread] at hreq hsent
  simp only [hk'] at hreq
  have hserved : (d.pollin s svdefs outs).served =
      d.served ++ [⟨p, s, svdefs, (perpdConnRead s svdefs d.conn outs).1⟩] := by
    simp [Dialogue.pollin, Dialogue.turn, hreq]
  have hexec : (d.pollin s svdefs outs).executed = d.executed ++ [p] := by
    simp [Dialogue.executed, hserved]
  have hconn : (d.pollin s svdefs outs).conn = (perpdConnRead s svdefs d.conn outs).2 := rfl
  have hw : (d.pollin s svdefs outs).conn.w = 0 := by rw [hconn, hread, hreply.w]
  have hn : (d.pollin s svdefs outs).conn.n = (wholeReply s svdefs p).length := by
    rw [hconn, hread, hreply.n]
  refine ⟨?_, pollin_bytes h (by rw [hd]), ?_, ?_⟩
  · rw [hconn, hread]
    exact exec_buffer s svdefs _ hk
  · intro x hx
    rw [hserved] at hx
    rcases List.mem_append.mp hx with hx | hx
    · exact h.effect x hx
    · rw [List.mem_singleton.mp hx, hread]
      exact heffect
  · have hpos : 0 < (wholeReply s svdefs p).length :=
      Nat.lt_of_lt_of_le (by decide) (replied_whole hreply).1
    refine .reply d.served _ ?_ hserved hn ?_ (replied_whole hreply) ?_ ?_ ?_ ?_ ?_ ?_
    · rw [hconn, hread, hreply.state]
    · rw [hconn, hread]
      exact hreply.pkt
    · rw [hw, hn]
      exact hpos
    · simp [Dialogue.pollin, hd]
    · rw [hexec, List.append_assoc]
      exact hreqs
    · rw [hexec]
      simpa [Dialogue.pollin] using harr
    · rw [hw]
      simpa [Dialogue.pollin, Dialogue.turn, hsent, Dialogue.replies] using hrec
    · rw [hw]
      simpa [Dialogue.pollin, Dialogue.turn, hsent] using ha

/-- A `POLLIN` of an idle connection, with nothing on its way, is its end. -/
theorem pollin_idle {s : Sys} {svdefs : List Svdef} {outs : List ReadRet} (h : DialogueOk reqs d)
    (hr : Ready outs) (hs : d.conn.state = .reading) (hn : d.conn.n = 0) (hw : d.conn.w = 0)
    (hu : d.unread = []) (hreqs : d.executed ++ d.todo = reqs)
    (harr : d.arrived = d.executed.flatten) (hrec : d.received = d.replies)
    (hexec : d.executed = complete reqs d.arrived.length) (hnil : delivered outs = []) :
    DialogueOk reqs (d.pollin s svdefs outs) := by
  have hd : delivered outs <+: d.unread := by simp [hnil]
  -- any packet will do: nothing of it has come
  have hreads : Reads [0, 0, 0] s svdefs d.conn outs (perpdConnRead s svdefs d.conn outs) :=
    connRead_spec (by decide) s svdefs h.buffer (by simp [hn]) (by simp [hn])
      (by simp [hnil]) hr
  generalize hx : perpdConnRead s svdefs d.conn outs = x at hreads
  cases hreads with
  | closed k hk he hm =>
    refine pollin_quiet h hd hx (wrote_close s _) hk ?_
    refine .closed rfl rfl rfl (by simp [he]) ?_ (hrec ▸ List.prefix_refl _)
    simp only [hnil, List.append_nil]
    exact hexec
  | more k hk hpkt hm =>
    refine pollin_quiet h hd hx (wrote_self s) hk ?_
    refine .idle hs ?_ hw ?_ hreqs ?_ hrec
    · simp [hn, hnil]
    · simp [hu]
    · simp only [hnil, List.append_nil]
      exact harr
  | whole k hk hpkt hm => simp [hn, hnil] at hm

/-- The next bytes of a request, short of its end or to it. -/
theorem pollin_request {s : Sys} {svdefs : List Svdef} {outs : List ReadRet} {p : List UInt8}
    (h : DialogueOk reqs d) (hp : Whole p) (hr : Ready outs) (hd : delivered outs <+: d.unread)
    (hs : d.conn.state = .reading) (hw : d.conn.w = 0) (hn : d.conn.n < p.length)
    (hpkt : d.conn.pkt.take d.conn.n = p.take d.conn.n) (hu : d.unread = p.drop d.conn.n)
    (hreqs : d.executed ++ p :: d.todo = reqs)
    (harr : d.arrived = d.executed.flatten ++ p.take d.conn.n) (hrec : d.received = d.replies)
    (ha : d.answer = some []) : DialogueOk reqs (d.pollin s svdefs outs) := by
  have hd' : delivered outs <+: p.drop d.conn.n := hu ▸ hd
  have hreads := connRead_spec hp s svdefs h.buffer hpkt hn hd' hr
  have htake : p.take d.conn.n ++ delivered outs =
      p.take (d.conn.n + (delivered outs).length) := by
    obtain ⟨rest, hrest⟩ := hd'
    rw [List.take_add, ← hrest, List.take_left]
  have hdrop : (p.drop d.conn.n).drop (delivered outs).length =
      p.drop (d.conn.n + (delivered outs).length) := List.drop_drop ..
  generalize hx : perpdConnRead s svdefs d.conn outs = x at hreads
  cases hreads with
  | closed k hk he hm =>
    refine pollin_quiet h hd hx (wrote_close s _) hk ?_
    refine .closed rfl rfl rfl (by simp [he]) ?_ (hrec ▸ List.prefix_refl _)
    have hpart : (p.take (d.conn.n + (delivered outs).length)).length < p.length := by
      rw [List.length_take]
      omega
    have hcomp := complete_append d.executed (p :: d.todo)
      (p.take (d.conn.n + (delivered outs).length)).length (by simpa using hpart)
    rw [hreqs, ← List.length_append] at hcomp
    simp only [harr, List.append_assoc, htake]
    exact hcomp.symm
  | more k hk hk' hm =>
    refine pollin_quiet h hd hx (wrote_self s) hk ?_
    refine .request p hs hw hm hk' ?_ hreqs ?_ hrec ha
    · simp only [hu, hdrop]
    · simp only [harr, List.append_assoc, htake]
      rfl
  | whole k hk hk' hm =>
    have hdu : delivered outs = d.unread := by
      apply hd.eq_of_length
      rw [hu, List.length_drop]
      omega
    refine pollin_whole h hp hx hk hk' hdu hreqs ?_ hrec ha
    rw [harr, List.append_assoc, htake, hm, List.take_length]

theorem step_pollin {s : Sys} {svdefs : List Svdef} {outs : List ReadRet}
    (hw : ∀ p ∈ reqs, Whole p) (h : DialogueOk reqs d) (hc : d.conn.state = .reading)
    (hr : Ready outs) (hd : delivered outs <+: d.unread) :
    DialogueOk reqs (d.pollin s svdefs outs) := by
  have hexec := (h.phase.settled hw).1
  cases h.phase with
  | idle hs hn hw' hu hreqs harr hrec =>
    have hnil : delivered outs = [] := by
      rw [hu] at hd
      exact List.prefix_nil.mp hd
    exact pollin_idle h hr hs hn hw' hu hreqs harr hrec hexec hnil
  | request p hs hw' hn hpkt hu hreqs harr hrec ha =>
    have hp : Whole p := hw p (by simp [← hreqs])
    exact pollin_request h hp hr hd hs hw' hn hpkt hu hreqs harr hrec ha
  | reply earlier x hs => simp [hs] at hc
  | closed hs => simp [hs] at hc

theorem step_pollout {s : Sys} {svdefs : List Svdef} {outs : List WriteRet}
    (hw : ∀ p ∈ reqs, Whole p) (h : DialogueOk reqs d) (hc : d.conn.state = .writing) :
    DialogueOk reqs (d.pollout s svdefs outs) := by
  have hexec := (h.phase.settled hw).1
  cases h.phase with
  | idle hs => simp [hs] at hc
  | request p hs => simp [hs] at hc
  | closed hs => simp [hs] at hc
  | reply earlier x hs hx hn hpkt hwhole hw' hu hreqs harr hrec ha =>
    have hlen : pktLen d.conn.pkt = d.conn.n := by
      have hself : d.conn.pkt.take d.conn.n = x.reply.take d.conn.n := by
        rw [hpkt, hn, List.take_length]
      rw [pktLen_take hself (hn ▸ hwhole.1), hwhole.2, hn]
    obtain ⟨m, hm, hwrites⟩ := connWrite_spec s outs hlen hw'.le
    have hwrote := writes_wrote hwrites
    have hout : (d.conn.pkt.drop d.conn.w).take m = (x.reply.drop d.conn.w).take m := by
      rw [← hpkt, List.drop_take, List.take_take, Nat.min_eq_left (by omega)]
    have htake : x.reply.take d.conn.w ++ (x.reply.drop d.conn.w).take m =
        x.reply.take (d.conn.w + m) := List.take_add.symm
    have hreceived : d.received ++ (x.reply.drop d.conn.w).take m =
        (earlier.map (·.reply)).flatten ++ x.reply.take (d.conn.w + m) := by
      rw [hrec, List.append_assoc, htake]
    have hanswer : d.answer.map (· ++ (x.reply.drop d.conn.w).take m) =
        some (x.reply.take (d.conn.w + m)) := by
      rw [ha, Option.map_some, htake]
    have hreplies : d.replies = (earlier.map (·.reply)).flatten ++ x.reply := by
      simp [Dialogue.replies, hx]
    have hnext : d.pollout s svdefs outs = { d with
        conn := (perpdConnWrite s d.conn outs).2
        answer := some (x.reply.take (d.conn.w + m))
        ended := d.ended || refuses outs
        received := (earlier.map (·.reply)).flatten ++ x.reply.take (d.conn.w + m) } := by
      rw [Dialogue.pollout, turn_wrote d hwrote, hout, hanswer, hreceived]
    rw [hnext]
    generalize perpdConnWrite s d.conn outs = r at hwrites
    cases hwrites with
    | closed he =>
      refine ⟨h.buffer, h.bytes, h.effect, .closed rfl rfl rfl (by simp [he]) hexec ?_⟩
      change _ <+: d.replies
      rw [hreplies]
      exact (List.prefix_append_right_inj _).mpr (List.take_prefix _ _)
    | more hlt =>
      exact ⟨h.buffer, h.bytes, h.effect,
        .reply earlier x hs hx hn hpkt hwhole hlt hu hreqs harr rfl rfl⟩
    | whole hall =>
      refine ⟨h.buffer, h.bytes, h.effect, .idle rfl rfl rfl hu hreqs harr ?_⟩
      change _ = d.replies
      rw [hreplies, hall, hn, List.take_length]

theorem Phase.reading (h : Phase reqs d) (hc : d.conn.state = .reading) :
    d.received = d.replies ∧ d.conn.w = 0 ∧
      d.arrived = d.executed.flatten ++ d.conn.pkt.take d.conn.n := by
  cases h with
  | idle hs hn hw hu hreqs harr hrec =>
    refine ⟨hrec, hw, ?_⟩
    rw [hn, List.take_zero, List.append_nil, harr]
  | request p hs hw hn hpkt hu hreqs harr hrec ha =>
    refine ⟨hrec, hw, ?_⟩
    rw [hpkt, harr]
  | reply earlier x hs => simp [hs] at hc
  | closed hs => simp [hs] at hc

theorem Phase.writing (h : Phase reqs d) (hc : d.conn.state = .writing) :
    ∃ earlier x, d.served = earlier ++ [x] ∧ d.conn.pkt.take d.conn.n = x.reply ∧
      d.conn.n = x.reply.length ∧ d.conn.w < d.conn.n ∧
      d.received = (earlier.map (·.reply)).flatten ++ x.reply.take d.conn.w := by
  cases h with
  | idle hs => simp [hs] at hc
  | request p hs => simp [hs] at hc
  | reply earlier x hs hx hn hpkt hwhole hw hu hreqs harr hrec ha =>
    exact ⟨earlier, x, hx, hpkt, hn, hw, hrec⟩
  | closed hs => simp [hs] at hc

theorem Phase.ended (h : Phase reqs d) (hc : d.conn.state = .closed) : d.ended = true := by
  cases h with
  | idle hs => simp [hs] at hc
  | request p hs => simp [hs] at hc
  | reply earlier x hs => simp [hs] at hc
  | closed hs hn hw hended => exact hended

theorem Phase.cursors (h : Phase reqs d) (hw : ∀ p ∈ reqs, Whole p) :
    d.conn.n ≤ pktSize ∧ d.conn.w ≤ d.conn.n := by
  cases h with
  | idle hs hn hw' => omega
  | request p hs hw' hn hpkt hu hreqs =>
    have hp := whole_le (hw p (by simp [← hreqs]))
    omega
  | reply earlier x hs hx hn hpkt hwhole hw' =>
    have hp := whole_le hwhole
    omega
  | closed hs hn hw' => omega

theorem dialogue_ok {c : Conn} (hc : Started c) (hw : ∀ p ∈ reqs, Whole p)
    (h : ReflTransGen Dialogue.Step (.start c reqs) d) : DialogueOk reqs d := by
  induction h with
  | refl => exact start_ok hc reqs
  | tail _ hs ih =>
    cases hs with
    | send ht ha => exact step_send hw ih ht ha
    | pollin s svdefs outs hc hr hd => exact step_pollin hw ih hc hr hd
    | pollout s svdefs outs hc => exact step_pollout hw ih hc
    | hangup s svdefs => exact step_hangup hw ih s svdefs

end Steps

/-- The pieces change nothing: what arrives completely is carried out, each
request once and in order, with the effect it would have if it arrived whole,
and what is written is the replies it would get in one write each. -/
structure Unsplit (reqs : List (List UInt8)) (d : Dialogue) : Prop where
  bytes : d.arrived ++ d.unread ++ d.todo.flatten = reqs.flatten
  executed : d.executed = complete reqs d.arrived.length
  /-- when nothing is left to send or to read, every request has been carried out -/
  all : d.todo = [] → d.unread = [] → d.executed = reqs
  effect : ∀ x ∈ d.served, x.after = (wholeRun x.sys x.svdefs x.request).1
  received : d.received <+: d.replies
  /-- all replies have left, and the buffer holds the part of the next request that has come -/
  reading : d.conn.state = .reading → d.received = d.replies ∧ d.conn.w = 0 ∧
    d.arrived = d.executed.flatten ++ d.conn.pkt.take d.conn.n
  /-- the buffer holds the reply to the last request, of which `w` bytes have left -/
  writing : d.conn.state = .writing → ∃ earlier x, d.served = earlier ++ [x] ∧
    d.conn.pkt.take d.conn.n = x.reply ∧ d.conn.n = x.reply.length ∧ d.conn.w < d.conn.n ∧
    d.received = (earlier.map (·.reply)).flatten ++ x.reply.take d.conn.w
  closed : d.conn.state = .closed → d.ended = true
  n_le : d.conn.n ≤ pktSize
  w_le : d.conn.w ≤ d.conn.n

/-- However the socket splits the requests and the replies of a client that
waits for every reply, perpd behaves as if nothing were split. -/
theorem dialogue_unsplit (c : Conn) (hc : Started c) (reqs : List (List UInt8))
    (hw : ∀ p ∈ reqs, Whole p) (d : Dialogue)
    (h : ReflTransGen Dialogue.Step (.start c reqs) d) : Unsplit reqs d := by
  have hok := dialogue_ok hc hw h
  obtain ⟨hexec, hrec⟩ := hok.phase.settled hw
  obtain ⟨hn, hw'⟩ := hok.phase.cursors hw
  have hall (ht : d.todo = []) (hu : d.unread = []) : d.executed = reqs := by
    have hb := hok.bytes
    have hcomp := complete_append reqs [] 0 (by simp)
    rw [ht, hu, List.flatten_nil, List.append_nil, List.append_nil] at hb
    rw [hexec, hb]
    simpa using hcomp
  exact
    { bytes := hok.bytes
      executed := hexec
      all := hall
      effect := hok.effect
      received := hrec
      reading := hok.phase.reading
      writing := hok.phase.writing
      closed := hok.phase.ended
      n_le := hn
      w_le := hw' }

/-- A query that comes in three pieces, and its reply that leaves in two. -/
theorem dialogue_unsplit_query : ∃ d, d.executed = [queryRequest (1, 2)] ∧
    d.conn.state = .reading ∧ Unsplit [queryRequest (1, 2), [2, 89, 0]] d := by
  let s := (perpdStart (plain [])).sys
  let c := (perpdConnStart s ⟨none, .zero, .closed, List.replicate pktSize 0, 0, 0⟩ (some 8)).2
  let d0 := Dialogue.start c [queryRequest (1, 2), [2, 89, 0]]
  let d1 : Dialogue := { d0 with
    todo := [[2, 89, 0]], unread := queryRequest (1, 2), answer := some [] }
  let d2 := d1.pollin s [] [.data [2], .again]
  let d3 := d2.pollin s [] [.intr, .data [81], .data [16, 1], .intr, .again]
  let d4 := d3.pollin s [] [.data ((queryRequest (1, 2)).drop 4)]
  let d5 := d4.pollout s [] [.intr, .wrote 2, .again]
  let d6 := d5.pollout s [] [.wrote 1, .wrote 4]
  have h1 : Dialogue.Step d0 d1 := .send rfl (by simp [d0, Dialogue.start])
  have h2 : Dialogue.Step d1 d2 := .pollin s [] _ rfl trivial (by decide)
  have h3 : Dialogue.Step d2 d3 := .pollin s [] _ (by decide) trivial (by decide)
  have h4 : Dialogue.Step d3 d4 := .pollin s [] _ (by decide) trivial (by decide)
  have h5 : Dialogue.Step d4 d5 := .pollout s [] _ (by decide)
  have h6 : Dialogue.Step d5 d6 := .pollout s [] _ (by decide)
  have hrun := ((((ReflTransGen.single h1).tail h2).tail h3).tail h4).tail h5 |>.tail h6
  exact ⟨d6, by decide, by decide,
    dialogue_unsplit c ⟨rfl, rfl, rfl, List.length_replicate⟩ _ (by decide) d6 hrun⟩

/-- What an iteration of the main loop does to a connection. -/
inductive Turn (c : Conn) : Conn → Prop
  | stay : Turn c c
  | read (s : Sys) (svdefs : List Svdef) (outs : List ReadRet) (hc : c.state = .reading) :
      Turn c (perpdConnRead s svdefs c outs).2
  | write (s : Sys) (outs : List WriteRet) (hc : c.state = .writing) :
      Turn c (perpdConnWrite s c outs).2
  | close (s : Sys) : Turn c (perpdConnClose s c).2

theorem step_turn {d d' : Dialogue} (h : Dialogue.Step d d') : Turn d.conn d'.conn := by
  cases h with
  | send ht ha => exact .stay
  | pollin s svdefs outs hc hr hd => exact .read s svdefs outs hc
  | pollout s svdefs outs hc => exact .write s outs hc
  | hangup s svdefs => exact .close s

section Turns

/-- Only a connection that is being read from is polled for `POLLIN`, and only
one that is being written to for `POLLOUT`. -/
theorem mask_state {rev : Revents} {st : ConnState} :
    ((rev.mask st).pollin = true → st = .reading) ∧
      ((rev.mask st).pollout = true → st = .writing) := by
  constructor
  · intro h
    exact beq_iff_eq.mp ((Bool.and_eq_true_iff.mp h).2)
  · intro h
    exact beq_iff_eq.mp ((Bool.and_eq_true_iff.mp h).2)

theorem clientLoop_turns (cs : List Conn) (inps : List ClientIn) (nready : ℕ) (s : Sys)
    (svdefs : List Svdef) : List.Forall₂ Turn cs (clientLoop cs inps nready s svdefs).2.1 := by
  induction cs generalizing inps nready s svdefs with
  | nil => exact .nil
  | cons c cs ih =>
    unfold clientLoop
    dsimp only
    split
    · exact .cons .stay (ih _ _ _ _)
    split
    · exact .cons .stay (List.forall₂_same.mpr fun _ _ => .stay)
    split
    · exact .cons (.close s) (ih _ _ _ _)
    split
    · next hin => exact .cons (.read s svdefs _ (mask_state.1 hin)) (ih _ _ _ _)
    split
    · next hout => exact .cons (.write s _ (mask_state.2 hout)) (ih _ _ _ _)
    · exact .cons .stay (ih _ _ _ _)

theorem checkstaleLoop_turns (now : Tain) (cs : List Conn) (s : Sys) :
    List.Forall₂ Turn cs (checkstaleLoop now cs s).2 := by
  induction cs generalizing s with
  | nil => exact .nil
  | cons c cs ih =>
    unfold checkstaleLoop
    refine .cons ?_ (ih _)
    split
    · unfold perpdConnCheckstale
      split
      · exact .close s
      · exact .stay
    · exact .stay

/-- A connection that has come from one just started by turns alone. -/
def FromStart (c : Conn) : Prop := ∃ c₀, Started c₀ ∧ ReflTransGen Turn c₀ c

theorem fromStart_turns {cs cs' : List Conn} (h : List.Forall₂ Turn cs cs')
    (hs : ∀ c ∈ cs, FromStart c) : ∀ c ∈ cs', FromStart c := by
  induction h with
  | nil => simp
  | cons ht _ ih =>
    intro c hc
    rcases List.mem_cons.mp hc with rfl | hc
    · obtain ⟨c₀, hc₀, hrun⟩ := hs _ List.mem_cons_self
      exact ⟨c₀, hc₀, hrun.tail ht⟩
    · exact ih (fun x hx => hs x (List.mem_cons_of_mem _ hx)) c hc

theorem loopAccept_fromStart {w : Perpd} (inp : AcceptIn) (hs : ∀ c ∈ w.clients, FromStart c) :
    ∀ c ∈ (loopAccept w inp).clients, FromStart c := by
  obtain ⟨s, cs, ha, hcs⟩ := loopAccept_cases w inp
  rw [ha]
  rcases hcs with rfl | ⟨_, s0, fd, rfl⟩
  · exact hs
  · intro c hc
    rcases List.mem_append.mp hc with hc | hc
    · exact hs c hc
    · obtain rfl := List.mem_singleton.mp hc
      exact ⟨_, ⟨rfl, rfl, rfl, List.length_replicate⟩, .refl⟩

theorem loopClients_fromStart {w : Perpd} (inp : IterIn) (nready : ℕ)
    (hs : ∀ c ∈ w.clients, FromStart c) : ∀ c ∈ (loopClients w inp nready).clients, FromStart c := by
  have hturns := fromStart_turns (clientLoop_turns w.clients inp.clients nready w.sys w.svdefs) hs
  rcases loopClients_cases w inp nready with he | he | he <;> rw [he]
  · exact hs
  · exact hturns
  · exact loopAccept_fromStart _ hturns

theorem iterate_fromStart {w : Perpd} (inp : IterIn) (hs : ∀ c ∈ w.clients, FromStart c) :
    ∀ c ∈ (perpdIterate w inp).clients, FromStart c := by
  refine iterate_clients (P := fun cs => ∀ c ∈ cs, FromStart c) inp hs ?_ (by simp)
    fun x nready hx => loopClients_fromStart inp nready hx
  intro c hc
  have hopen := (connCull_perm _).mem_iff.mp hc
  exact fromStart_turns (checkstaleLoop_turns _ _ _) hs c (List.mem_filter.mp hopen).1

/-- In every run of perpd a connection is started, and then only turned to. -/
theorem run_fromStart (cfg : Config) (inputs : List IterIn) :
    ∀ c ∈ (perpdRun cfg inputs).clients, FromStart c := by
  induction inputs using List.reverseRecOn with
  | nil => simp [perpdRun, perpdStart]
  | append_singleton inputs inp ih =>
    rw [perpdRun, List.foldl_append]
    exact iterate_fromStart _ ih

end Turns

end Perp.PerpdDialogue
