import Perp.PerpdClient
import Perp.PerpdDescriptors

set_option autoImplicit false

/-!
# The log pipe of a service that stays

A service that is not being deactivated needs its log pipe. The reaper shuts it
down when main and log are both wanted down, which a client can bring about.
-/
namespace Perp.PerpdLogpipe
open PerpdState PerpdSvdef PerpdConn PerpdMainloop PerpdClient PerpdFrame PerpdEntry PerpdEffect
  PerpdSlots PerpdActivate PerpdMoves PerpdPhases PerpdRuns PerpdService PerpdStill PerpdDescriptors TraceLaw

/-- A service with a log that is not being deactivated. -/
def Logged (sd : Svdef) : Prop := sd.has .haslog = true ∧ sd.has .cull = false

instance (sd : Svdef) : Decidable (Logged sd) := inferInstanceAs (Decidable (_ ∧ _))

/-- The two ends of the log pipe are open, and of the pipe of the last activation. -/
def LogpipeOpen (s : Sys) (sd : Svdef) : Prop :=
  ∃ p ∈ (pipeOf sd.key).run s.trace,
    s.fds sd.logpipe0 = some (.logpipe0 sd.key p.1) ∧ s.fds sd.logpipe1 = some (.logpipe1 sd.key p.1)

instance (s : Sys) (sd : Svdef) : Decidable (LogpipeOpen s sd) :=
  inferInstanceAs (Decidable (∃ p ∈ (pipeOf sd.key).run s.trace, _))

/-- The children of a start are connected by the pipe of the last activation. -/
def StartPiped (past : List Event) : Event → Prop
  | .sv sd (.fork w .start _ _ _ io _) => Logged sd →
    ∃ p ∈ (pipeOf sd.key).run past, ∃ c ∈ io,
      (w = .main → c.stdout = some (.logpipe1 sd.key p.1)) ∧
      (w = .log → c.stdin = some (.logpipe0 sd.key p.1))
  | _ => True

/-- Before termination a log pipe is shut down only for a service that is being
deactivated, and once. -/
def ShutDeactivated (past : List Event) : Event → Prop
  | .sv sd (.closeLog _ _) => .term ∈ past ∨
    sd.has .cull = true ∧ ((pipeOf sd.key).run past).map Prod.snd = some false
  | _ => True

instance (past : List Event) : (e : Event) → Decidable (ShutDeactivated past e)
  | .sv sd (.closeLog _ _) => inferInstanceAs (Decidable (.term ∈ past ∨
    sd.has .cull = true ∧ ((pipeOf sd.key).run past).map Prod.snd = some false))
  | .sv _ (.fork _ _ _ _ _ _ _) | .sv _ (.activate _) | .sv _ (.reap _ _) | .sv _ (.kill _ _ _)
  | .sv _ (.control _ _) | .sv _ .checkfail | .sv _ .wantcull | .sv _ .cull | .sv _ .status =>
    isTrue trivial
  | .opened _ _ | .closed _ _ | .request _ | .sent _ _ | .term | .scan | .scanned => isTrue trivial

section Step

theorem firstShut_of_deactivated {t : List Event} (h : Along ShutDeactivated t) (hn : .term ∉ t) :
    Along FirstShut t ∧ ¬ ShutEarly t := by
  constructor
  · intro past e rest he
    have := h past e rest he
    unfold ShutDeactivated at this
    split at this
    · exact (this.resolve_left fun hm => hn (by simp [he, hm])).2
    · simp_all [FirstShut]
  · rintro ⟨x, o1, o0, hm, hc⟩
    obtain ⟨past, rest, he⟩ := List.append_of_mem hm
    have := h past _ rest he
    simp only [ShutDeactivated, hc, Bool.false_eq_true, false_and, or_false] at this
    exact hn (by simp [he, this])

theorem owns_open {s : Sys} {sd : Svdef} {n : ℕ} {b : Bool} (h : Owns s sd n b)
    (he : ¬ ShutEarly s.trace) (hl : Logged sd) : b = false ∧ LogpipeOpen s sd := by
  have hb : b = false := by
    by_contra hb
    rcases h.culled (by simpa using hb) with hc | hc
    · simp [hl.2] at hc
    · exact he hc
  subst hb
  exact ⟨rfl, (n, false), h.life, h.pipe hl.1 rfl⟩

theorem childIo_piped {fds : ℕ → Option Obj} {sd : Svdef} {n : ℕ} (hl : sd.has .haslog = true)
    (hstd : fds 0 = some .other ∧ fds 1 = some .other)
    (h0 : fds sd.logpipe0 = some (.logpipe0 sd.key n))
    (h1 : fds sd.logpipe1 = some (.logpipe1 sd.key n)) (w : Which) :
    ∃ c ∈ childIo fds sd w .start, (w = .main → c.stdout = some (.logpipe1 sd.key n)) ∧
      (w = .log → c.stdin = some (.logpipe0 sd.key n)) := by
  have hne0 : sd.logpipe0 ≠ 0 := fun he => by simp [he, hstd.1] at h0
  have hne1 : sd.logpipe1 ≠ 1 := fun he => by simp [he, hstd.2] at h1
  cases w with
  | main => simp [childIo, hl, Function.update_of_ne hne1, h1]
  | log => simp [childIo, hl, Function.update_of_ne hne0, h0]

theorem still_piped {s t : Sys} {sd : Svdef} (h : Still s sd t)
    (hown : Logged sd → LogpipeOpen s sd) (hstd : s.fds 0 = some .other ∧ s.fds 1 = some .other)
    (hl : Along StartPiped s.trace) : Along StartPiped t.trace := by
  obtain ⟨evs, ht, hp⟩ := h.grows
  rw [ht]
  refine hl.append fun past e rest he => ?_
  have hpast : ∀ k, (pipeOf k).run (s.trace ++ past) = (pipeOf k).run s.trace := fun k =>
    Monitor.run_append_of_ignored _ _ _ fun x hx q => pipeOf_ignores (hp x (by simp [he, hx])) k q
  have hape := hp e (by simp [he])
  unfold StartPiped
  split
  · next x w prog now towait io ret =>
    rintro ⟨hh, hc⟩
    obtain ⟨hk, rfl⟩ := hape
    have hsd : Logged sd := by
      refine ⟨hk.haslog ▸ hh, ?_⟩
      by_contra hn
      simp [hk.cull (by simpa using hn)] at hc
    obtain ⟨p, hpl, h0, h1⟩ := hown hsd
    rw [hpast, hk.key]
    refine ⟨p, hpl, ?_⟩
    rw [← hk.logpipe0, ← hk.key] at h0
    rw [← hk.logpipe1, ← hk.key] at h1
    rw [← hk.key]
    exact childIo_piped hh hstd h0 h1 w
  · trivial

theorem still_culled {s t : Sys} {sd : Svdef} (h : Still s sd t) (hc : sd.has .cull = true)
    (hl : Along StartPiped s.trace) : Along StartPiped t.trace := by
  obtain ⟨evs, ht, hp⟩ := h.grows
  rw [ht]
  refine hl.append_free fun e he past => ?_
  have hape := hp e he
  unfold StartPiped
  split
  · rintro ⟨_, hn⟩
    simp [hape.1.cull hc] at hn
  · trivial

theorem piped_closeLogpipe {s : Sys} {x : Svdef} (hl : Along StartPiped s.trace) :
    Along StartPiped (closeLogpipe s x).trace := by
  simp only [closeLogpipe, Sys.close, Sys.emitSv, Sys.emit, along_concat]
  exact ⟨⟨⟨hl, trivial⟩, trivial⟩, trivial⟩

theorem shut_culled {s1 s' : Sys} {x : Svdef} (h : Still (closeLogpipe s1 x) x s')
    (hp : ¬ ShutEarly s'.trace) : x.has .cull = true := by
  by_contra hc
  refine hp ⟨x, s1.fds x.logpipe1, s1.fds x.logpipe0, still_subset h ?_, by simpa using hc⟩
  simp [closeLogpipe, Sys.close, Sys.emitSv, Sys.emit]

theorem fdStep_piped {s s' : Sys} {sd sd' : Svdef} (h : FdStep s sd s' sd')
    (hown : Logged sd → LogpipeOpen s sd) (hstd : s.fds 0 = some .other ∧ s.fds 1 = some .other)
    (hp : ¬ ShutEarly s'.trace) (hl : Along StartPiped s.trace) : Along StartPiped s'.trace := by
  cases h with
  | still h => exact still_piped h hown hstd hl
  | shut s1 x hx hx' hlog h1 h2 =>
    exact still_culled h2 (shut_culled h2 hp) (piped_closeLogpipe (still_piped h1 hown hstd hl))

theorem culled_piped {s s' : Sys} {sd sd' : Svdef} (h : FdStep s sd s' sd')
    (hc : sd.has .cull = true) (hl : Along StartPiped s.trace) : Along StartPiped s'.trace := by
  cases h with
  | still h => exact still_culled h hc hl
  | shut s1 x hx hx' hlog h1 h2 =>
    exact still_culled h2 (hx.cull hc) (piped_closeLogpipe (still_culled h1 hc hl))

theorem wantcull_piped {s : Sys} {sd : Svdef} (hl : Along StartPiped s.trace) :
    Along StartPiped (perpdSvdefWantcull s sd).1.1.trace := by
  obtain ⟨evs, ht, hq, _⟩ := (Calm.wantcull s sd).grows
  rw [ht]
  refine hl.append_free fun e he past => ?_
  have := hq e he
  unfold StartPiped
  split
  · exact this.elim
  · trivial

/-- What holds of the table: before termination the pipes are open, and every
start up to now was connected. -/
def Piped (cfg : Config) (t : Table) : Prop :=
  (t.sys.flagTerminating = false → FdsOk cfg.fds t) ∧ Along StartPiped t.sys.trace

theorem table_piped (cfg : Config) : TableInv cfg ShutDeactivated (Piped cfg) where
  start := ⟨fun _ => .start cfg, by simp [table]⟩
  step := by
    rintro t t' ht hm hp ⟨hfds, hl⟩
    have ht' := ht.move hm
    obtain ⟨evs, hgrow⟩ := move_grows ht hm
    -- until termination every shutdown is the first
    have hbefore (h : t'.sys.flagTerminating = false) : t.sys.flagTerminating = false ∧
        Along FirstShut t'.sys.trace ∧ ¬ ShutEarly t'.sys.trace := by
      have hn : .term ∉ t'.sys.trace := fun hm => by simp [ht'.term.mpr hm] at h
      have hn' : .term ∉ t.sys.trace := fun hm => hn (by simp [hgrow, hm])
      refine ⟨?_, firstShut_of_deactivated hp hn⟩
      by_contra hc
      exact hn' (ht.term.mp (by simpa using hc))
    refine ⟨fun h => (hfds (hbefore h).1).move ht hm (firstShut_harmless (hbefore h).2.1), ?_⟩
    have hopen (h : t'.sys.flagTerminating = false) (sd : Svdef) (hsd : sd ∈ t.svdefs)
        (hlog : Logged sd) : LogpipeOpen t.sys sd := by
      obtain ⟨h1, _, h3⟩ := hbefore h
      obtain ⟨n, b, ho⟩ := (hfds h1).owns sd hsd
      exact (owns_open ho (fun he => h3 (he.mono (by simp [hgrow]))) hlog).2
    have hstd (h : t.sys.flagTerminating = false) :
        t.sys.fds 0 = some .other ∧ t.sys.fds 1 = some .other :=
      ⟨(hfds h).base 0 cfg.fds_std.1, (hfds h).base 1 cfg.fds_std.2⟩
    cases hm with
    | entry i sd s' sd' hi hs hterm =>
      have hmem := List.mem_of_getElem? hi
      have hfl := (Flags.entryStep hs).terminating
      cases hb : s'.flagTerminating with
      | false =>
        exact fdStep_piped (entryStep_fd hs) (hopen hb sd hmem) (hstd (hfl ▸ hb)) (hbefore hb).2.2 hl
      | true =>
        rcases hterm (hfl ▸ hb) with hc | hw
        · exact culled_piped (entryStep_fd hs) hc hl
        · obtain ⟨rfl, rfl⟩ := Prod.mk.inj hw
          exact wantcull_piped hl
    | activate svdir st d s' sd hnew hroom hterm ha =>
      obtain ⟨sd0, s1, ho, rfl, -⟩ := activate_some ha
      have hown := opened_owns ho
      have hl1 : Along StartPiped (s1.emitSv sd0 (.activate t.sys.serial)).trace := by
        cases ho <;> simp only [Sys.emitSv, Sys.emit, opened, begun, Sys.tainNow, along_concat]
        · exact ⟨⟨hl, trivial⟩, trivial⟩
        · exact ⟨⟨⟨⟨hl, trivial⟩, trivial⟩, trivial⟩, trivial⟩
      refine still_piped (.firstStart _ sd0) (fun hlog => ⟨_, hown.life, hown.pipe hlog.1 rfl⟩) ?_ hl1
      have hk := opened_keeps ho
      exact ⟨hk 0 _ (hstd hterm).1 id, hk 1 _ (hstd hterm).2 id⟩
    | activateFail svdir st d s' hnew ha =>
      have hf := activateFail_frame ha
      cases hf with
      | long => exact hl
      | nodir => exact hl
      | nopipe fd hfd =>
        simp only [Sys.close, Sys.emit, opened, begun, Sys.tainNow, along_concat]
        exact ⟨⟨hl, trivial⟩, trivial⟩
    | cull i sd hi hc =>
      simp only [perpdSvdefClose, Sys.close, Sys.emitSv, Sys.emit, along_concat]
      exact ⟨⟨hl, trivial⟩, trivial⟩
    | accept fd hf =>
      simp only [opened, Sys.emit, along_concat]
      exact ⟨hl, trivial⟩
    | drop fd conns hc =>
      simp only [Sys.close, Sys.emit, along_concat]
      exact ⟨hl, trivial⟩
    | term hterm =>
      simp only [terminated, Sys.close, Sys.emit, along_concat]
      exact ⟨⟨hl, trivial⟩, trivial⟩
    | idle s' hi =>
      obtain ⟨evs, he, hpl⟩ := hi.grows
      rw [he]
      refine hl.append_free fun e he past => ?_
      have := hpl e he
      unfold StartPiped
      split
      · exact this.elim
      · trivial

end Step

/-- The log pipes of the services that stay are open, and all starts of such
services were connected by theirs. -/
def LogpipesOpen (p : Perpd) : Prop :=
  (∀ sd ∈ p.svdefs, Logged sd → LogpipeOpen p.sys sd) ∧ Along StartPiped p.sys.trace

/-- Where log pipes are shut down only for services that are being deactivated,
and once, the others keep theirs. -/
theorem logpipes_open (cfg : Config) (inputs : List IterIn)
    (hp : Along ShutDeactivated (perpdRun cfg inputs).sys.trace) :
    LogpipesOpen (perpdRun cfg inputs) := by
  obtain ⟨hfds, hl⟩ := (table_piped cfg).run inputs hp
  obtain ⟨_, hloop⟩ := run_phase cfg inputs
  have ht := hloop.ok
  refine ⟨fun sd hsd hlog => ?_, hl⟩
  cases hb : (perpdRun cfg inputs).sys.flagTerminating with
  | true =>
    have := hloop.culled hb sd hsd
    simp [hlog.2] at this
  | false =>
    have hn : .term ∉ (perpdRun cfg inputs).sys.trace := fun hm => by
      have h : (perpdRun cfg inputs).sys.flagTerminating = true := ht.term.mpr hm
      simp [hb] at h
    obtain ⟨n, b, ho⟩ := (hfds hb).owns sd hsd
    exact (owns_open ho (firstShut_of_deactivated hp hn).2 hlog).2

theorem logpipes_open_gone :
    LogpipesOpen (perpdRun (plain [some 100, some 101, some 102, some 103]) loggedGone) :=
  logpipes_open (plain [some 100, some 101, some 102, some 103]) loggedGone (by decide +kernel)

/-- A service with a log is commanded down as a whole. -/
def loggedDown : List IterIn :=
  [connects (scans quiet [loggedFoo]) 9,
    { quiet with clients := [sends (ctlRequest (1, 2) 'D' 0)] },
    exits quiet [(101, 15)], exits quiet [(102, 0)]]

theorem logpipes_open_fails :
    ¬ LogpipesOpen (perpdRun (plain [some 100, some 101, some 102]) loggedDown) := by
  rintro ⟨h, _⟩
  exact absurd h (by decide +kernel)

end Perp.PerpdLogpipe
