import Perp.PerpdCloses
import Perp.PerpdCompact

set_option autoImplicit false

/-!
# Every client has its descriptor

A connection that is accepted is in one place of `clients[]` until it is closed,
and it is closed once, unless a log shutdown closes it first.
-/
namespace Perp.PerpdClients
open PerpdState PerpdSvdef PerpdConn PerpdMainloop PerpdClient PerpdFrame PerpdEntry PerpdEffect
  PerpdSlots PerpdActivate PerpdMoves PerpdCompact PerpdPhases PerpdRuns PerpdService PerpdStill
  PerpdDescriptors PerpdCloses TraceLaw

def accepts (fd : ℕ) : Event → Bool
  | .opened n o => n = fd ∧ o = .client
  | _ => false

def releases (fd : ℕ) : Event → Bool
  | .closed n o => n = fd ∧ o = some .client
  | _ => false

/-- How often `accept()` has returned the descriptor. -/
def accepted (fd : ℕ) (t : List Event) : ℕ := t.countP (accepts fd)

/-- How often it was closed while it was a client's. -/
def released (fd : ℕ) (t : List Event) : ℕ := t.countP (releases fd)

/-- A close finds something open, or is part of a log shutdown that finds nothing. -/
def Finds (past : List Event) : Event → Prop
  | .closed _ none => ∃ x q, past = q ++ [.sv x (.closeLog none none)] ∨
      past = q ++ [.sv x (.closeLog none none), .closed x.logpipe1 none]
  | _ => True

theorem finds_hit (past : List Event) (e : Event) (h : Hit e) : Finds past e := by
  unfold Hit at h
  unfold Finds
  split
  · exact h.elim
  · trivial

section Counts
variable {s t : Sys} {sd : Svdef}

/-- Each descriptor is a client's as often as it was accepted and not closed since. -/
def Counted (s : Sys) : Prop := ∀ fd, accepted fd s.trace =
  released fd s.trace + if s.fds fd = some .client then 1 else 0

theorem Counted.silent (h : Counted s) (hf : t.fds = s.fds)
    (hs : Within (fun e => ∀ fd, accepts fd e = false ∧ releases fd e = false) s t) :
    Counted t := by
  obtain ⟨evs, ht, he⟩ := hs
  intro fd
  have ha : evs.countP (accepts fd) = 0 :=
    List.countP_eq_zero.mpr fun e hm => by simp [(he e hm fd).1]
  have hr : evs.countP (releases fd) = 0 :=
    List.countP_eq_zero.mpr fun e hm => by simp [(he e hm fd).2]
  have := h fd
  simp only [accepted, released] at this ⊢
  rw [ht, hf, List.countP_append, List.countP_append, ha, hr]
  omega

theorem Counted.emitSv (h : Counted s) (x : Svdef) (e : SvEvent) : Counted (s.emitSv x e) :=
  h.silent rfl ⟨[.sv x e], rfl, by simp [accepts, releases]⟩

theorem Counted.still (h : Counted s) (hs : Still s sd t) : Counted t := by
  obtain ⟨evs, ht, hp⟩ := hs.grows
  refine h.silent hs.fds ⟨evs, ht, fun e he fd => ?_⟩
  have := hp e he
  unfold Apart at this
  split at this <;> simp_all [accepts, releases]

theorem Counted.close (h : Counted s) (x : ℕ) : Counted (s.close x) := by
  intro fd
  have := h fd
  simp only [accepted, released, Sys.close, Sys.emit, List.countP_append, List.countP_singleton,
    accepts, releases] at this ⊢
  by_cases hx : x = fd
  · subst hx
    by_cases hc : s.fds x = some .client <;> simp [hc] at this ⊢ <;> omega
  · simp [hx, Function.update_of_ne (Ne.symm hx), this]

theorem Counted.opened (h : Counted s) (x : ℕ) (o : Obj) (hfree : s.fds x = none) :
    Counted (opened s x o) := by
  intro fd
  have := h fd
  simp only [accepted, released, PerpdActivate.opened, Sys.emit, List.countP_append,
    List.countP_singleton, accepts, releases] at this ⊢
  by_cases hx : x = fd
  · subst hx
    by_cases hc : o = .client <;> simp [hc, hfree] at this ⊢ <;> omega
  · simp [hx, Function.update_of_ne (Ne.symm hx), this]

theorem Counted.openedSv (h : Counted s) {key : Key} (ho : Opened s key sd t) : Counted t := by
  have hb : Counted (begun s) := h.silent rfl ⟨[], by simp [begun, Sys.tainNow]⟩
  cases ho with
  | plain hbl hl hd => exact hb.opened _ _ hd
  | logged hbl hl hd h0 h1 hd0 hd1 h01 =>
    refine ((hb.opened _ _ hd).opened _ _ ?_).opened _ _ ?_
    · simpa [Function.update_of_ne hd0] using h0
    · simpa [Function.update_of_ne hd1, Function.update_of_ne h01.symm] using h1

theorem Counted.failed (h : Counted s) {key : Key} (hf : Failed s key t) : Counted t := by
  have hb : Counted (begun s) := h.silent rfl ⟨[], by simp [begun, Sys.tainNow]⟩
  cases hf with
  | long => exact h
  | nodir => exact hb
  | nopipe fd hfd => exact (hb.opened fd _ hfd).close fd

theorem counted_move {t t' : Table} (h : Counted t.sys) (hm : Move t t') : Counted t'.sys := by
  cases hm with
  | entry i sd s' sd' hi hs hterm =>
    cases entryStep_fd hs with
    | still hs => exact h.still hs
    | shut s1 x _ _ _ h1 h2 => exact ((((h.still h1).emitSv x _).close _).close _).still h2
  | activate svdir st d s' sd hnew hroom hterm ha =>
    obtain ⟨sd0, s1, ho, rfl, -⟩ := activate_some ha
    exact ((h.openedSv ho).emitSv sd0 _).still (.firstStart _ sd0)
  | activateFail svdir st d s' hnew ha => exact h.failed (activateFail_frame ha)
  | cull i sd hi hc => exact (h.emitSv sd .cull).close _
  | accept fd hf => exact h.opened fd .client hf
  | drop fd conns hc => exact h.close fd
  | term hterm =>
    have h0 : Counted { t.sys.emit .term with flagTerminating := true, flagTerm := 0, flagHup := 0 } :=
      h.silent rfl ⟨[.term], rfl, by simp [accepts, releases]⟩
    exact h0.close _
  | idle s' hi =>
    obtain ⟨evs, ht, hp⟩ := hi.grows
    refine h.silent hi.fds ⟨evs, ht, fun e he fd => ?_⟩
    have := hp e he
    unfold Plain at this
    split at this <;> simp_all [accepts, releases]

end Counts

/-- Every descriptor of a client is in the table. -/
def ClientsPlaced (t : Table) : Prop := ∀ fd, t.sys.fds fd = some .client → fd ∈ t.conns

theorem clientsPlaced_move {t t' : Table} (h : ClientsPlaced t) (hm : Move t t') :
    ClientsPlaced t' := by
  intro fd hfd
  cases hm with
  | entry i sd s' sd' hi hs hterm =>
    exact h fd (fdStep_placed (entryStep_fd hs) (.entryStep hs) hfd).1
  | activate svdir st d s' sd hnew hroom hterm ha =>
    obtain ⟨sd0, s1, ho, rfl, -⟩ := activate_some ha
    have hstill := Still.firstStart (s1.emitSv sd0 (.activate t.sys.serial)) sd0
    have hfd' : s1.fds fd = some .client := by
      have : (firstStart (s1.emitSv sd0 (.activate t.sys.serial)) sd0).1.fds fd = some .client := hfd
      rwa [hstill.fds] at this
    rcases opened_placed ho hfd' with hold | hown
    · exact h fd hold
    · rcases hown with ⟨_, he⟩ | ⟨_, _, ⟨_, he⟩ | ⟨_, he⟩⟩ <;> cases he
  | activateFail svdir st d s' hnew ha =>
    rw [failed_fds (activateFail_frame ha)] at hfd
    exact h fd hfd
  | cull i sd hi hc => exact h fd (close_sub hfd).2
  | accept n hfree =>
    by_cases he : fd = n
    · exact he ▸ Multiset.mem_cons_self n t.conns
    · exact Multiset.mem_cons_of_mem (h fd (by simpa [Function.update_of_ne he] using hfd))
  | drop n conns hc =>
    obtain ⟨hne, hold⟩ := close_sub hfd
    have := h fd hold
    rw [hc] at this
    exact (Multiset.mem_cons.mp this).resolve_left hne
  | term hterm => exact h fd (close_sub hfd).2
  | idle s' hi =>
    rw [hi.fds] at hfd
    exact h fd hfd

theorem finds_closeLogpipe {s : Sys} {x : Svdef} (h : Along Finds s.trace)
    (h1 : s.fds x.logpipe1 = none) (h0 : s.fds x.logpipe0 = none) :
    Along Finds (closeLogpipe s x).trace := by
  have h0' : Function.update s.fds x.logpipe1 none x.logpipe0 = none := by
    by_cases hne : x.logpipe0 = x.logpipe1
    · simp [hne]
    · rwa [Function.update_of_ne hne]
  have htrace : (closeLogpipe s x).trace = ((s.trace ++ [.sv x (.closeLog none none)]) ++
      [.closed x.logpipe1 none]) ++ [.closed x.logpipe0 none] := by
    simp [closeLogpipe, Sys.close, Sys.emitSv, Sys.emit, h1, h0, h0']
  rw [htrace, along_concat, along_concat, along_concat]
  refine ⟨⟨⟨h, trivial⟩, x, s.trace, Or.inl rfl⟩, x, s.trace, Or.inr ?_⟩
  rw [List.append_assoc]
  rfl

/-- What holds of the clients' descriptors. -/
structure ClientsOk (cfg : Config) (t : Table) : Prop where
  fds : FdsOk cfg.fds t
  placed : ClientsPlaced t
  counted : Counted t.sys
  finds : Along Finds t.sys.trace

theorem table_clients (cfg : Config) : TableInv cfg Harmless (ClientsOk cfg) where
  start := by
    have hf : (table (perpdStart cfg)).sys.fds = cfg.fds := by
      simp [table, perpdStart, perpdTriggerScan, Sys.selfpipePing]
    have hno (fd : ℕ) : cfg.fds fd ≠ some .client := fun h => by
      rcases cfg.fds_base fd _ h with he | ⟨_, he⟩ <;> cases he
    refine ⟨.start cfg, fun fd hfd => absurd (hf ▸ hfd) (hno fd), fun fd => ?_, by simp [table]⟩
    rw [hf, if_neg (hno fd)]
    simp [table, accepted, released]
  step := by
    intro t t' ht hm hp h
    refine ⟨h.fds.move ht hm hp, clientsPlaced_move h.placed hm, counted_move h.counted hm,
      along_move finds_hit h.finds h.fds hm fun s x n b ho hl hs hgrow => ?_⟩
    rcases harmless_owns ho hgrow hp with rfl | ⟨h1, h0⟩
    · exact along_firstShut finds_hit hs ho hl
    · exact finds_closeLogpipe hs h1 h0

section Slots

theorem mem_connfds {cs : List Conn} {fd : ℕ} :
    fd ∈ connfds cs ↔ ∃ c ∈ cs, c.connfd = some fd := by
  induction cs with
  | nil => simp
  | cons c cs ih =>
    have hone : fd ∈ connfd c ↔ c.connfd = some fd := by
      unfold connfd
      cases c.connfd <;> simp [eq_comm]
    simp [ih, hone]

theorem connfds_unique {cs : List Conn} (hn : (connfds cs).Nodup) {i j fd : ℕ} {c d : Conn}
    (hi : cs[i]? = some c) (hj : cs[j]? = some d) (hc : c.connfd = some fd)
    (hd : d.connfd = some fd) : i = j := by
  induction cs generalizing i j with
  | nil => simp at hi
  | cons x cs ih =>
    rw [connfds_cons, Multiset.nodup_add] at hn
    obtain ⟨_, hcs, hdis⟩ := hn
    have hnot {k : ℕ} {e : Conn} (hk : cs[k]? = some e) (he : e.connfd = some fd) :
        x.connfd ≠ some fd := fun hx =>
      Multiset.disjoint_left.mp hdis (by simp [connfd, hx])
        (mem_connfds.mpr ⟨e, List.mem_of_getElem? hk, he⟩)
    cases i with
    | zero =>
      obtain rfl : x = c := by simpa using hi
      cases j with
      | zero => rfl
      | succ j => exact absurd hc (hnot (by simpa using hj) hd)
    | succ i =>
      cases j with
      | zero =>
        obtain rfl : x = d := by simpa using hj
        exact absurd hd (hnot (by simpa using hi) hc)
      | succ j => exact congrArg Nat.succ (ih hcs (by simpa using hi) (by simpa using hj))

theorem checkstaleLoop_length (now : Tain) (cs : List Conn) (s : Sys) :
    (checkstaleLoop now cs s).2.length = cs.length := by
  induction cs generalizing s with
  | nil => rfl
  | cons c cs ih => simp [checkstaleLoop, ih]

theorem clientLoop_length (cs : List Conn) (inps : List ClientIn) (nready : ℕ) (s : Sys)
    (svdefs : List Svdef) : (clientLoop cs inps nready s svdefs).2.1.length = cs.length := by
  induction cs generalizing inps nready s svdefs with
  | nil => rfl
  | cons c cs ih =>
    unfold clientLoop
    dsimp only
    split
    · simp [ih]
    split
    · rfl
    split
    · simp [ih]
    split
    · simp [ih]
    split <;> simp [ih]

theorem loopTop_room (w : Perpd) : (loopTop w).clients.length ≤ w.clients.length := by
  have hp := (connCull_perm (checkstaleLoop w.sys.tainNow.1 w.clients w.sys.tainNow.2).2).length_eq
  have hf := List.length_filter_le (fun c : Conn => c.connfd.isSome)
    (checkstaleLoop w.sys.tainNow.1 w.clients w.sys.tainNow.2).2
  rw [checkstaleLoop_length] at hf
  simp only [loopTop]
  omega

theorem loopTop_open (w : Perpd) : ∀ c ∈ (loopTop w).clients, c.connfd.isSome = true := by
  intro c hc
  exact (List.mem_filter.mp ((connCull_perm _).mem_iff.mp hc)).2

theorem loopAccept_room (w : Perpd) (inp : AcceptIn) (h : w.clients.length ≤ perpdConnmax) :
    (loopAccept w inp).clients.length ≤ perpdConnmax := by
  obtain ⟨s, cs, ha, hcs⟩ := loopAccept_cases w inp
  rw [ha]
  rcases hcs with rfl | ⟨hroom, s0, fd, rfl⟩
  · exact h
  · simp only [List.length_append, List.length_singleton]
    omega

theorem loopClients_room (w : Perpd) (inp : IterIn) (nready : ℕ)
    (h : w.clients.length ≤ perpdConnmax) :
    (loopClients w inp nready).clients.length ≤ perpdConnmax := by
  have hl := clientLoop_length w.clients inp.clients nready w.sys w.svdefs
  rcases loopClients_cases w inp nready with he | he | he <;> rw [he]
  · exact h
  · exact hl.trans_le h
  · exact loopAccept_room _ _ (hl.trans_le h)

theorem loopTerm_clients (w : Perpd) :
    (loopTerm w).clients = w.clients ∨ (loopTerm w).clients = [] := by
  unfold loopTerm
  split
  · exact Or.inl rfl
  · exact Or.inr rfl

theorem loopChld_clients (w : Perpd) (inp : IterIn) : (loopChld w inp).clients = w.clients := by
  unfold loopChld
  split <;> rfl

theorem loopScan_clients (w : Perpd) (inp : IterIn) : (loopScan w inp).clients = w.clients := by
  unfold loopScan
  split <;> rfl

theorem loopFailing_clients (w : Perpd) : (loopFailing w).1.clients = w.clients := by
  unfold loopFailing
  split
  · rfl
  split <;> rfl

/-- perpd when an iteration comes to its clients, and how many descriptors are
still ready, if it comes that far. -/
def beforeClients (w : Perpd) (inp : IterIn) : Option (Perpd × ℕ) :=
  let p := loopPoll (loopTop w) inp
  if p.2 = -1 then none
  else
    let f := loopFailing (loopScan (loopChld (loopTerm p.1) inp) inp)
    if f.2 then none else some (f.1, p.2.toNat)

theorem polled_clients (w : Perpd) (inp : IterIn) :
    let x := (loopFailing (loopScan (loopChld (loopTerm (loopPoll (loopTop w) inp).1) inp) inp)).1
    x.clients = (loopTop w).clients ∨ x.clients = [] := by
  intro x
  have hx : x.clients = (loopTerm (loopPoll (loopTop w) inp).1).clients := by
    simp only [x, loopFailing_clients, loopScan_clients, loopChld_clients]
  rw [hx, ← loopPoll_clients (loopTop w) inp]
  exact loopTerm_clients _

/-- What holds of the clients at the top of an iteration, and is kept when they
are served and when there are none, holds of them at its end. -/
theorem iterate_clients {P : List Conn → Prop} {w : Perpd} (inp : IterIn) (hw : P w.clients)
    (htop : P (loopTop w).clients) (hnil : P [])
    (hserve : ∀ (x : Perpd) (nready : ℕ), P x.clients → P (loopClients x inp nready).clients) :
    P (perpdIterate w inp).clients := by
  have hmid : P (loopFailing (loopScan (loopChld (loopTerm (loopPoll (loopTop w) inp).1) inp)
      inp)).1.clients := by
    rcases polled_clients w inp with hx | hx
    · rw [hx]
      exact htop
    · rw [hx]
      exact hnil
  unfold perpdIterate
  split
  · exact hw
  split
  · exact hw
  unfold loopBody
  dsimp only
  split
  · rw [loopPoll_clients]
    exact htop
  split
  · exact hmid
  · exact hserve _ _ hmid

theorem iterate_room (w : Perpd) (inp : IterIn) (h : w.clients.length ≤ perpdConnmax) :
    (perpdIterate w inp).clients.length ≤ perpdConnmax :=
  iterate_clients (P := fun cs => cs.length ≤ perpdConnmax) inp h ((loopTop_room w).trans h)
    (Nat.zero_le _) fun x nready hx => loopClients_room x inp nready hx

theorem run_room (cfg : Config) (inputs : List IterIn) :
    (perpdRun cfg inputs).clients.length ≤ perpdConnmax := by
  induction inputs using List.reverseRecOn with
  | nil => exact Nat.zero_le _
  | append_singleton inputs inp ih =>
    rw [perpdRun, List.foldl_append]
    exact iterate_room _ _ ih

end Slots

/-- A place of `pollv[]`: the descriptor, and whether POLLIN and POLLOUT are asked for. -/
structure Pollfd where
  fd : Option ℕ
  pollin : Bool
  pollout : Bool
  deriving DecidableEq, Repr

def pollfd (c : Conn) : Pollfd := ⟨c.connfd, c.state == .reading, c.state == .writing⟩

/-- `pollv[2]` and what follows it, as they are set up for the poll. -/
def pollvSetup (w : Perpd) : List Pollfd := (loopTop w).clients.map pollfd

structure ClientsExact (w : Perpd) : Prop where
  owned : ∀ fd, w.sys.fds fd = some .client ↔ ∃ (i : ℕ) (c : Conn), w.clients[i]? = some c ∧ c.connfd = some fd
  unique : ∀ (i j : ℕ) (c d : Conn) (fd : ℕ), w.clients[i]? = some c → w.clients[j]? = some d →
    c.connfd = some fd → d.connfd = some fd → i = j
  /-- each was closed as often as it was accepted, but for those that are open -/
  once : ∀ fd, accepted fd w.sys.trace =
    released fd w.sys.trace + if w.sys.fds fd = some .client then 1 else 0
  finds : Along Finds w.sys.trace
  room : w.clients.length ≤ perpdConnmax
  /-- poll results are dispatched to the connections they were asked for -/
  polled : ∀ inp x nready, beforeClients w inp = some (x, nready) →
    loopBody w inp = loopClients x inp nready ∧
    ∀ (i : ℕ) (c : Conn), x.clients[i]? = some c → (pollvSetup w)[i]? = some (pollfd c) ∧ c.connfd.isSome = true

theorem polled_places (w : Perpd) (inp : IterIn) (x : Perpd) (nready : ℕ)
    (h : beforeClients w inp = some (x, nready)) : loopBody w inp = loopClients x inp nready ∧
    ∀ (i : ℕ) (c : Conn), x.clients[i]? = some c → (pollvSetup w)[i]? = some (pollfd c) ∧ c.connfd.isSome = true := by
  have hx := polled_clients w inp
  unfold beforeClients at h
  dsimp only at h hx
  split at h
  · simp at h
  next hpoll =>
  split at h
  · simp at h
  next hfail =>
  obtain ⟨rfl, rfl⟩ := Prod.mk.inj (Option.some.inj h)
  refine ⟨by simp only [loopBody, hpoll, hfail, ↓reduceIte, Bool.false_eq_true], fun i c hi => ?_⟩
  rcases hx with hx | hx <;> rw [hx] at hi
  · refine ⟨?_, loopTop_open w c (List.mem_of_getElem? hi)⟩
    rw [pollvSetup, List.getElem?_map, hi]
    rfl
  · simp at hi

/-- Where every log shutdown closes its own pipe or nothing, every client has its
descriptor and its place. -/
theorem clients_exact (cfg : Config) (inputs : List IterIn)
    (hp : Along Harmless (perpdRun cfg inputs).sys.trace) : ClientsExact (perpdRun cfg inputs) := by
  have h := (table_clients cfg).run inputs hp
  have hmem (fd : ℕ) : fd ∈ connfds (perpdRun cfg inputs).clients ↔
      ∃ (i : ℕ) (c : Conn), (perpdRun cfg inputs).clients[i]? = some c ∧ c.connfd = some fd := by
    rw [mem_connfds]
    constructor
    · rintro ⟨c, hc, hfd⟩
      obtain ⟨i, hi⟩ := List.getElem?_of_mem hc
      exact ⟨i, c, hi, hfd⟩
    · rintro ⟨i, c, hi, hfd⟩
      exact ⟨c, List.mem_of_getElem? hi, hfd⟩
  refine ⟨fun fd => ?_, fun i j c d fd => connfds_unique h.fds.nodup, h.counted, h.finds,
    run_room cfg inputs, polled_places _⟩
  rw [← hmem]
  exact ⟨h.placed fd, h.fds.clients fd⟩

instance (past : List Event) : (e : Event) → Decidable (Harmless past e)
  | .sv sd (.closeLog o1 o0) => inferInstanceAs (Decidable
    (((pipeOf sd.key).run past).map Prod.snd = some false ∨ (o1 = none ∧ o0 = none)))
  | .sv _ (.fork _ _ _ _ _ _ _) | .sv _ (.activate _) | .sv _ (.reap _ _) | .sv _ (.kill _ _ _)
  | .sv _ (.control _ _) | .sv _ .checkfail | .sv _ .wantcull | .sv _ .status | .sv _ .cull =>
    isTrue trivial
  | .opened _ _ | .closed _ _ | .request _ | .sent _ _ | .term | .scan | .scanned => isTrue trivial

theorem clients_exact_gone : ClientsExact
    (perpdRun (plain [some 100, some 101, some 102, some 103]) loggedGone) :=
  clients_exact (plain [some 100, some 101, some 102, some 103]) loggedGone (by decide +kernel)

def asks (cmd : Char) : IterIn := { quiet with clients := [sends (ctlRequest (1, 2) cmd 0)] }

/-- A logged service is commanded down, up and down again, while the log runs on.
The second client has the number of the pipe that was shut down the first time. -/
def pipeTwice : List IterIn :=
  [connects (scans quiet [loggedFoo]) 9, asks 'D', exits quiet [(101, 15)], exits quiet [(102, 0)],
    { quiet with clients := [receives] }, asks 'u', { quiet with clients := [receives] },
    connects (asks 'd') 10, exits quiet [(103, 111 * 256)], exits quiet [(104, 111 * 256)]]

theorem clients_exact_fails : ¬ ClientsExact
    (perpdRun (plain [some 100, some 101, some 102, some 103, some 104]) pipeTwice) := by
  intro h
  have hslot : (((perpdRun (plain [some 100, some 101, some 102, some 103, some 104])
      pipeTwice).clients[1]?).bind Conn.connfd) = some 10 := by decide +kernel
  obtain ⟨c, hc, hfd⟩ := Option.bind_eq_some_iff.mp hslot
  have hopen := (h.owned 10).mpr ⟨1, c, hc, hfd⟩
  have hnone : (perpdRun (plain [some 100, some 101, some 102, some 103, some 104])
      pipeTwice).sys.fds 10 = none := by decide +kernel
  simp [hnone] at hopen

end Perp.PerpdClients
