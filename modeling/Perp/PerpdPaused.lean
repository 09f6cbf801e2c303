import Perp.PerpdClient
import Perp.PerpdService

set_option autoImplicit false

/-!
# A subservice that is flagged paused

The flag is cleared wherever perpd wakes a process, and the reaper is the one
place where the process can end under it.
-/
namespace Perp.PerpdPaused
open PerpdState PerpdSvdef PerpdConn PerpdMainloop PerpdClient PerpdFrame PerpdEntry PerpdEffect
  PerpdSlots PerpdActivate PerpdMoves PerpdPhases PerpdRuns PerpdService TraceLaw

/-- The last of SIGSTOP and SIGCONT that was sent to the process `p`. -/
def lastSent (p : ℕ) : Monitor Event (Option Signal) where
  init := none
  next q
    | .sv _ (.fork _ _ _ _ _ _ (some pid)) => if pid = p then none else q
    | .sv _ (.kill _ target sig) =>
      if target.natAbs = p ∧ (sig = .sigstop ∨ sig = .sigcont) then some sig else q
    | _ => q

/-- What is flagged paused is a start process that was stopped. -/
def PausedRight (t : List Event) (sd : Svdef) (w : Which) : Prop :=
  (sd.sv w).has .ispaused = true →
    0 < (sd.sv w).pid ∧ (sd.sv w).has .isreset = false ∧
      (lastSent (sd.sv w).pid).run t = some .sigstop

instance (t : List Event) (sd : Svdef) (w : Which) : Decidable (PausedRight t sd w) :=
  inferInstanceAs (Decidable (_ → _))

/-- A status reply reports as paused only what is. -/
def ReportedRight (past : List Event) : Event → Prop
  | .sv sd .status => ∀ w, PausedRight past sd w
  | _ => True

/-- A process that ends is not flagged paused. -/
def AwakeAtEnd : Event → Prop
  | .sv sd (.reap w _) => (sd.sv w).has .ispaused = false
  | _ => True

instance : (e : Event) → Decidable (AwakeAtEnd e)
  | .sv sd (.reap w _) => inferInstanceAs (Decidable ((sd.sv w).has .ispaused = false))
  | .sv _ (.fork _ _ _ _ _ _ _) | .sv _ (.activate _) | .sv _ (.kill _ _ _) | .sv _ (.control _ _)
  | .sv _ .checkfail | .sv _ .wantcull | .sv _ (.closeLog _ _) | .sv _ .cull | .sv _ .status =>
    isTrue trivial
  | .opened _ _ | .closed _ _ | .request _ | .sent _ _ | .term | .scan | .scanned => isTrue trivial

theorem lastSent_ignores {p : ℕ} {e : Event} (h : Event.pid e ≠ some p) (q : Option Signal) :
    (lastSent p).next q e = q := by
  unfold lastSent
  dsimp only
  split
  · next pid => simp_all [Event.pid]
  · next target sig => simp_all [Event.pid]
  · rfl

@[simp] theorem emitSv_children (s : Sys) (sd : Svdef) (e : SvEvent) :
    (s.emitSv sd e).children = s.children := rfl

/-- The events that are no status reply. -/
def Unreported : Event → Prop
  | .sv _ .status => False
  | _ => True

/-- What is kept of an entry: of its paused subservices, and of the replies so far. -/
structure PauseInv (k : Key) (s : Sys) (sd : Svdef) : Prop where
  key : sd.key = k
  paused : ∀ w, (sd.sv w).has .ispaused = true → 0 < (sd.sv w).pid ∧
    (sd.sv w).has .isreset = false ∧ s.children (sd.sv w).pid = some (k, w) ∧
      (lastSent (sd.sv w).pid).run s.trace = some .sigstop
  told : Along (fun past e => e.key = some k → ReportedRight past e) s.trace

namespace PauseInv
variable {k : Key} {s s' : Sys} {sd : Svdef}

theorem right (h : PauseInv k s sd) (w : Which) : PausedRight s.trace sd w := by
  intro hw
  obtain ⟨h1, h2, _, h4⟩ := h.paused w hw
  exact ⟨h1, h2, h4⟩

theorem emit (h : PauseInv k s sd) {e : Event} (ht : s'.trace = s.trace ++ [e])
    (hc : s'.children = s.children) (he : Unreported e)
    (hp : ∀ w, (sd.sv w).has .ispaused = true → Event.pid e ≠ some (sd.sv w).pid) :
    PauseInv k s' sd where
  key := h.key
  paused w hw := by
    obtain ⟨h1, h2, h3, h4⟩ := h.paused w hw
    rw [ht, hc, Monitor.run_concat, lastSent_ignores (hp w hw)]
    exact ⟨h1, h2, h3, h4⟩
  told := by
    rw [ht, along_concat]
    refine ⟨h.told, fun _ => ?_⟩
    unfold Unreported at he
    split at he
    · exact he.elim
    · simp_all [ReportedRight]

theorem emitSv (h : PauseInv k s sd) (x : Svdef) (e : SvEvent) (he : Unreported (.sv x e))
    (hp : Event.pid (.sv x e) = none) : PauseInv k (s.emitSv x e) sd :=
  h.emit rfl rfl he (by simp [hp])

theorem close (h : PauseInv k s sd) (fd : ℕ) : PauseInv k (s.close fd) sd :=
  h.emit (e := .closed fd (s.fds fd)) rfl rfl trivial (by simp [Event.pid])

theorem closeLogpipe (h : PauseInv k s sd) (x : Svdef) : PauseInv k (closeLogpipe s x) sd :=
  ((h.emitSv x (.closeLog _ _) trivial rfl).close _).close _

theorem setSv (h : PauseInv k s sd) (which : Which) (v : Subsv)
    (hv : v.has .ispaused = true → 0 < v.pid ∧ v.has .isreset = false ∧
      s.children v.pid = some (k, which) ∧ (lastSent v.pid).run s.trace = some .sigstop) :
    PauseInv k s (sd.setSv which v) where
  key := (Svdef.setSv_key _ _ _).trans h.key
  paused w hw := by
    rw [Svdef.setSv_sv] at hw ⊢
    split at hw
    · next he =>
      subst he
      simpa using hv hw
    · next he => simpa [he] using h.paused w hw
  told := h.told

theorem flags (h : PauseInv k s sd) (which : Which) (v : Subsv) (hp : v.pid = (sd.sv which).pid)
    (hr : v.has .isreset = (sd.sv which).has .isreset)
    (hf : v.has .ispaused = true → (sd.sv which).has .ispaused = true) :
    PauseInv k s (sd.setSv which v) := by
  refine h.setSv which v fun hv => ?_
  rw [hp, hr]
  exact h.paused which (hf hv)

theorem kill (h : PauseInv k s sd) (x : Svdef) (which : Which) (target : ℤ) (sig : Signal)
    (ho : s.children target.natAbs = some (k, which))
    (hs : (sd.sv which).has .ispaused = false ∨ sig ≠ .sigstop ∧ sig ≠ .sigcont) :
    PauseInv k (kill s x which target sig) sd := by
  rcases hs with hs | hs
  · refine h.emit rfl rfl trivial fun w hw he => ?_
    obtain ⟨_, _, h3, _⟩ := h.paused w hw
    simp only [Event.pid, Option.some.injEq] at he
    rw [← he, ho] at h3
    simp only [Option.some.injEq, Prod.mk.injEq, true_and] at h3
    simp [← h3, hs] at hw
  · refine ⟨h.key, fun w hw => ?_, (along_concat _ _).mpr ⟨h.told, fun _ => trivial⟩⟩
    obtain ⟨h1, h2, h3, h4⟩ := h.paused w hw
    refine ⟨h1, h2, h3, ?_⟩
    change (lastSent _).run (s.trace ++ [_]) = _
    rw [Monitor.run_concat, h4]
    simp [lastSent, hs]

/-- None of these signals stops a process or continues it. -/
theorem signal_running {cmd : Cmd} {sig : Signal} (h : Cmd.signal cmd = some sig) :
    sig ≠ .sigstop ∧ sig ≠ .sigcont := by
  constructor <;>
    · rintro rfl
      cases cmd <;> cases h

theorem doKill (h : PauseInv k s sd) (which : Which) (sig : Signal) (pg : Bool)
    (ho : 0 < (sd.sv which).pid → s.children (sd.sv which).pid = some (k, which))
    (hs : (sd.sv which).has .ispaused = false ∨ sig ≠ .sigstop ∧ sig ≠ .sigcont) :
    PauseInv k (doKill s sd which sig pg) sd := by
  unfold PerpdConn.doKill
  dsimp only
  split
  · exact h
  split
  · exact h
  next hp =>
  have hpid : (if pg = true then (0 : ℤ) - (sd.sv which).pid else (sd.sv which).pid).natAbs =
      (sd.sv which).pid := by
    split <;> omega
  have hk := h.kill sd which _ sig (by rw [hpid]; exact ho (by omega)) hs
  split
  · exact hk
  split
  · exact hk
  · exact h

theorem doSignal (h : PauseInv k s sd) (hok : SvOk s sd) (which : Which) (cmd : Cmd) (pg : Bool) :
    PauseInv k (doSignal s sd which cmd pg).1 (doSignal s sd which cmd pg).2 := by
  have h0 := h.emitSv sd (.control which cmd) trivial rfl
  unfold PerpdConn.doSignal
  dsimp only
  split
  · next sig hsig =>
    refine h0.doKill which sig pg (h.key ▸ hok.owned which) (Or.inr ?_)
    exact signal_running hsig
  · exact h0

theorem doContinue (h : PauseInv k s sd) (hok : SvOk s sd) (which : Which) (pg : Bool) :
    PauseInv k (doContinue s sd which pg).1 (doContinue s sd which pg).2 := by
  have h0 := h.emitSv sd (.control which .continue) trivial rfl
  have h1 := h0.flags which ((sd.sv which).drop .ispaused) (by simp) (by simp) (by simp)
  exact h1.doKill which .sigcont pg (by simpa [h.key] using hok.owned which) (Or.inl (by simp))

theorem doPause (h : PauseInv k s sd) (hok : SvOk s sd) (which : Which) (pg : Bool) :
    PauseInv k (doPause s sd which pg).1 (doPause s sd which pg).2 := by
  have h0 := h.emitSv sd (.control which .pause) trivial rfl
  unfold PerpdConn.doPause
  dsimp only
  split
  · next hp =>
    obtain ⟨hpos, hr⟩ := hp
    have ho := h.key ▸ hok.owned which hpos
    have hx : ¬ (which = .log ∧ sd.has .haslog = false) := by
      rintro ⟨rfl, hl⟩
      have := (hok.nolog hl).1
      simp only [Svdef.sv_log] at hpos
      omega
    generalize htar : (if pg = true then (0 : ℤ) - (sd.sv which).pid else (sd.sv which).pid) = target
    have hpid : target.natAbs = (sd.sv which).pid := by
      rw [← htar]
      split <;> omega
    have hdo : PerpdConn.doKill (s.emitSv sd (.control which .pause))
        (sd.setSv which ((sd.sv which).put .ispaused)) which .sigstop pg =
          PerpdSvdef.kill (s.emitSv sd (.control which .pause))
            (sd.setSv which ((sd.sv which).put .ispaused)) which target .sigstop := by
      rw [← htar]
      simp [PerpdConn.doKill, hx, hr, Nat.ne_of_gt hpos]
    rw [hdo]
    -- the process is stopped as if it had not been flagged, and flagged then
    have h1 := h0.flags which ((sd.sv which).drop .ispaused) (by simp) (by simp) (by simp)
    have h2 := h1.kill (sd.setSv which ((sd.sv which).put .ispaused)) which target .sigstop
      (by rw [hpid]; exact ho) (Or.inl (by simp))
    have h3 := h2.setSv which ((sd.sv which).put .ispaused) fun _ => ⟨hpos, by simpa using hr, ho, ?_⟩
    · simpa using h3
    · change (lastSent _).run (_ ++ [_]) = _
      rw [Monitor.run_concat]
      simp [lastSent, hpid]
  · exact h0

theorem terminate (h : PauseInv k s sd) {t : Sys} (ht : PauseInv k t sd)
    (hc : t.children = s.children) (x y : Svdef) (which : Which)
    (ho : s.children (sd.sv which).pid = some (k, which)) (b : Bool) :
    PauseInv k
      (PerpdSvdef.kill
        (if b = false then PerpdSvdef.kill t x which (sd.sv which).pid .sigterm else s)
        y which (sd.sv which).pid .sigcont)
      (sd.setSv which ((sd.sv which).drop .ispaused)) := by
  split
  · have h1 := ht.kill x which (sd.sv which).pid .sigterm
      (by rw [Int.natAbs_natCast, hc]; exact ho) (Or.inr (by simp))
    refine (h1.flags which ((sd.sv which).drop .ispaused) (by simp) (by simp) (by simp)).kill y which
      _ .sigcont ?_ (Or.inl (by simp))
    rw [Int.natAbs_natCast]
    change t.children _ = _
    rwa [hc]
  · refine (h.flags which ((sd.sv which).drop .ispaused) (by simp) (by simp) (by simp)).kill y which
      _ .sigcont ?_ (Or.inl (by simp))
    rwa [Int.natAbs_natCast]

theorem cullFlags (h : PauseInv k s sd) : PauseInv k s (cullFlags sd) where
  key := (cullFlags_same sd).1.trans h.key
  paused w hw := by
    rw [cullFlags_sv_has] at hw
    rw [cullFlags_pid, cullFlags_sv_has]
    simpa using h.paused w (by simpa using hw)
  told := h.told

theorem wantcull (h : PauseInv k s sd) (hok : SvOk s sd) :
    PauseInv k (perpdSvdefWantcull s sd).1.1 (perpdSvdefWantcull s sd).1.2 := by
  have h0 := (h.emitSv sd .wantcull trivial rfl).cullFlags
  rcases wantcull_cases s sd with ⟨hp, he⟩ | ⟨_, _, hp, he⟩ | ⟨_, _, he⟩ <;> rw [he]
  · have ho := h.key ▸ hok.owned .main hp
    have h1 := h0.terminate h0 rfl (PerpdSvdef.cullFlags sd)
      ((PerpdSvdef.cullFlags sd).setSv .main ((PerpdSvdef.cullFlags sd).svMain.drop .ispaused)) .main
      (by simpa using ho) (sd.svMain.has .isreset)
    simpa using h1
  · have ho := h.key ▸ hok.owned .log hp
    have h1 := h0.terminate (h0.closeLogpipe (PerpdSvdef.cullFlags sd))
      (closeLogpipe_children _ _) (PerpdSvdef.cullFlags sd)
      ((PerpdSvdef.cullFlags sd).setSv .log ((PerpdSvdef.cullFlags sd).svLog.drop .ispaused)) .log
      (by simpa using ho) (sd.svLog.has .isreset)
    simpa using h1
  · exact h0

theorem reapedShutdown (h : PauseInv k s sd) (ho : s.children sd.svLog.pid = some (k, .log)) :
    PauseInv k (reapedShutdown s sd).1 (reapedShutdown s sd).2 :=
  h.terminate (h.closeLogpipe sd) (closeLogpipe_children s sd) sd sd .log ho (sd.svLog.has .isreset)

theorem run (h : PauseInv k s sd) (which : Which) (target : Target) :
    PauseInv k (perpdSvdefRun s sd which target).1 (perpdSvdefRun s sd which target).2 := by
  rcases run_cases s sd which target with ⟨he, _⟩ | ⟨_, hpid, ret, s', v, he, hf, hv⟩
  · rw [he]
    exact h
  rw [he]
  have hnot : (sd.sv which).has .ispaused = false := by
    by_contra hn
    have := (h.paused which (by simpa using hn)).1
    omega
  have hother (w : Which) (hw : ((sd.setSv which v).sv w).has .ispaused = true) :
      which ≠ w ∧ (sd.sv w).has .ispaused = true := by
    rw [Svdef.setSv_sv] at hw
    split at hw
    · rw [hv.other _ (by simp) (by simp), hnot] at hw
      simp at hw
    · next hne => exact ⟨hne, hw⟩
  have hpre : PauseInv k s (sd.setSv which v) := by
    refine ⟨(Svdef.setSv_key _ _ _).trans h.key, fun w hw => ?_, h.told⟩
    obtain ⟨hne, hw'⟩ := hother w hw
    rw [Svdef.setSv_sv, if_neg hne]
    exact h.paused w hw'
  obtain ⟨now, towait, ht⟩ := hf.trace
  have hfresh (w : Which) (hw : ((sd.setSv which v).sv w).has .ispaused = true) (pid : ℕ)
      (hret : ret = some pid) : pid ≠ ((sd.setSv which v).sv w).pid := by
    rintro rfl
    have := (hpre.paused w hw).2.2.1
    rw [(hf.fresh _ hret).2] at this
    simp at this
  have h1 : PauseInv k { s with trace := s'.trace } (sd.setSv which v) := by
    refine hpre.emit ht rfl trivial fun w hw heq => ?_
    exact hfresh w hw _ heq rfl
  refine ⟨h1.key, fun w hw => ?_, h1.told⟩
  obtain ⟨p1, p2, p3, p4⟩ := h1.paused w hw
  refine ⟨p1, p2, ?_, p4⟩
  rw [hf.children]
  cases ret with
  | none => exact p3
  | some pid => simpa [Function.update_of_ne (hfresh w hw pid rfl).symm] using p3

theorem reaped (h : PauseInv k s sd) (hok : SvOk s sd) (which : Which) (wstat : ℕ)
    (hp : 0 < (sd.sv which).pid) (ha : (sd.sv which).has .ispaused = false) :
    PauseInv k (perpdReaped (s.waited (sd.sv which).pid) sd which wstat).1.1
      (perpdReaped (s.waited (sd.sv which).pid) sd which wstat).1.2 := by
  have hw : PauseInv k (s.waited (sd.sv which).pid) sd := by
    refine ⟨h.key, fun w hw => ?_, h.told⟩
    obtain ⟨h1, h2, h3, h4⟩ := h.paused w hw
    have hne : (sd.sv w).pid ≠ (sd.sv which).pid := by
      intro he
      rw [he, hok.owned which hp] at h3
      simp only [Option.some.injEq, Prod.mk.injEq] at h3
      rw [h3.2] at ha
      simp [ha] at hw
    exact ⟨h1, h2, by simpa [Sys.waited, Function.update_of_ne hne] using h3, h4⟩
  have h0 := (hw.emitSv sd (.reap which wstat) trivial rfl).setSv which (reapedSv (sd.sv which) wstat)
    (by simp [ha])
  rcases reaped_cases (s.waited (sd.sv which).pid) sd which wstat with
    ⟨_, he⟩ | ⟨_, _, he⟩ | ⟨_, _, rfl, _, _, hl, he⟩ | ⟨_, _, _, he⟩ <;> rw [he]
  · exact h0.run _ _
  · exact h0.run _ _
  · refine h0.reapedShutdown ?_
    have := (SvOk.waited hok .main wstat hp).owned .log (by simpa using hl)
    rw [← h.key]
    simpa using this
  · exact h0

theorem checkfailOne (h : PauseInv k s sd) (which : Which) :
    PauseInv k (checkfailOne s sd which).1 (checkfailOne s sd which).2 := by
  unfold PerpdSvdef.checkfailOne
  split
  · exact h.run _ _
  · exact h

theorem checkfail (h : PauseInv k s sd) :
    PauseInv k (perpdSvdefCheckfail s sd).1 (perpdSvdefCheckfail s sd).2 := by
  have h0 := h.emitSv sd .checkfail trivial rfl
  rcases checkfail_cases s sd with ⟨_, he⟩ | ⟨_, _, he⟩ | ⟨_, _, he⟩ <;> rw [he]
  · exact h0
  · exact h0.checkfailOne .main
  · exact (h0.checkfailOne .log).checkfailOne .main

theorem start (h : PauseInv k s sd) (which : Which) (cmd : Cmd) :
    PauseInv k (doStart s sd which cmd).1 (doStart s sd which cmd).2 := by
  have hflags (f : SubsvFlag) (hf : f ≠ .isonce) (hf' : f ≠ .wantdown) :
      ((startFlags sd which cmd).sv which).has f = (sd.sv which).has f := by
    simp [hf, hf']
  have h0 : PauseInv k (s.emitSv sd (.control which cmd)) (startFlags sd which cmd) := by
    refine (h.emitSv sd (.control which cmd) trivial rfl).flags which _ ?_ ?_ ?_
    · simpa [startFlags] using startFlags_sv_pid sd which cmd
    · simpa [startFlags] using hflags .isreset (by simp) (by simp)
    · have := hflags .ispaused (by simp) (by simp)
      intro hp
      rw [← this]
      simpa [startFlags] using hp
  rcases start_cases s sd which cmd with ⟨_, he⟩ | ⟨_, he⟩ <;> rw [he]
  · exact h0.run _ _
  · exact h0

theorem calmStep {sd' : Svdef} (h : PauseInv k s sd) (hok : SvOk s sd)
    (hs : CalmStep s sd s' sd') : PauseInv k s' sd' := by
  cases hs with
  | signal which cmd pg hc hsig => exact h.doSignal hok which cmd pg
  | cont which pg hc => exact h.doContinue hok which pg
  | pause which pg hc => exact h.doPause hok which pg
  | want which hc =>
    exact (h.emitSv sd (.control which .down) trivial rfl).flags which _ (by simp) (by simp) (by simp)
  | note which cmd hc hm => exact h.emitSv sd (.control which cmd) trivial rfl
  | status =>
    refine ⟨h.key, fun w hw => ?_, (along_concat _ _).mpr ⟨h.told, fun _ => h.right⟩⟩
    change _ ∧ _ ∧ _ ∧ (lastSent _).run (s.trace ++ [_]) = _
    rw [Monitor.run_concat]
    exact h.paused w hw
  | mark sd' hm =>
    refine ⟨hm.key.trans h.key, fun w hw => ?_, h.told⟩
    rw [hm.sv w] at hw ⊢
    exact h.paused w hw
  | wantcull => exact h.wantcull hok

/-- Every step keeps the flag right, if the process that ends is not paused. -/
theorem entryStep {sd' : Svdef} (h : PauseInv k s sd) (hok : SvOk s sd)
    (hs : EntryStep s sd s' sd') (hp : ∀ e ∈ s'.trace, AwakeAtEnd e) : PauseInv k s' sd' := by
  cases hs with
  | reap which wstat hpos hw =>
    obtain ⟨evs, ht⟩ := reaped_trace (s.waited (sd.sv which).pid) sd which wstat
    exact h.reaped hok which wstat hpos (hp (.sv sd (.reap which wstat)) (by simp [ht]))
  | checkfail => exact h.checkfail
  | start which cmd hc hm => exact h.start which cmd
  | calm s' sd' hs => exact h.calmStep hok hs

theorem startLog (h : PauseInv k s sd) : PauseInv k (startLog s sd).1 (startLog s sd).2 := by
  unfold PerpdActivate.startLog
  split
  · exact (h.flags .log _ (by simp) (by simp) (by simp)).run _ _
  · exact h

theorem startMain (h : PauseInv k s sd) : PauseInv k (startMain s sd).1 (startMain s sd).2 := by
  unfold PerpdActivate.startMain
  split
  · refine PauseInv.run ?_ _ _
    split
    · exact h.flags .main _ (by simp) (by simp) (by simp)
    · exact h
  · exact h.flags .main _ (by simp) (by simp) (by simp)

end PauseInv

section Service
variable {k : Key}

/-- The law for replies on one service. -/
def Told (k : Key) (past : List Event) (e : Event) : Prop := e.key = some k → ReportedRight past e

theorem told_failed {s s' : Sys} (h : Failed s k s') (ht : Along (Told k) s.trace) :
    Along (Told k) s'.trace := by
  cases h with
  | long => exact ht
  | nodir => exact ht
  | nopipe fd hfd =>
    simp only [Sys.close, Sys.emit, opened, begun, Sys.tainNow, along_concat]
    exact ⟨⟨ht, fun _ => trivial⟩, fun _ => trivial⟩

theorem told_opened {s s' : Sys} {sd : Svdef} (h : Opened s k sd s')
    (ht : Along (Told k) s.trace) : Along (Told k) s'.trace := by
  cases h <;> simp only [Sys.emit, opened, begun, Sys.tainNow, along_concat]
  · exact ⟨ht, fun _ => trivial⟩
  · exact ⟨⟨⟨ht, fun _ => trivial⟩, fun _ => trivial⟩, fun _ => trivial⟩

theorem service_paused (cfg : Config) (k : Key) : ServiceInv cfg k (fun _ => AwakeAtEnd)
    (fun s e => Along (Told k) s.trace ∧ ∀ sd, e = some sd → PauseInv k s sd) where
  start := by simp
  step := by
    rintro s s' e e' hs hp ⟨ht, hi⟩
    have hp' := (along_const _ _).mp hp
    cases hs with
    | frame hf =>
      obtain ⟨evs, he, hk, hpid, _⟩ := hf.grows
      have ht' : Along (Told k) s'.trace := by
        rw [he]
        refine ht.append fun past x rest hx hxk => absurd hxk (hk x (by simp [hx]))
      refine ⟨ht', fun sd hsd => ⟨(hi sd hsd).key, fun w hw => ?_, ht'⟩⟩
      obtain ⟨h1, h2, h3, h4⟩ := (hi sd hsd).paused w hw
      refine ⟨h1, h2, (hf.children _ _).mpr h3, ?_⟩
      rw [he, Monitor.run_append_of_ignored, h4]
      exact fun x hx q => lastSent_ignores (fun hxp => hpid x hx _ hxp w h3) q
    | entry hk hok hs hterm =>
      have h := (hi _ rfl).entryStep hok hs hp'
      exact ⟨h.told, by rintro _ ⟨⟩; exact h⟩
    | @activate s1 sd hterm hc ho =>
      have h0 : PauseInv k s1 sd :=
        ⟨ho.blank.key, fun w hw => by simp [ho.blank.sv w] at hw, told_opened ho ht⟩
      have h1 := ((h0.emitSv sd (.activate s.serial) trivial rfl).startLog).startMain
      rw [← firstStart_eq] at h1
      refine ⟨h1.told, ?_⟩
      rintro _ ⟨⟩
      exact ⟨h1.key, fun w hw => by simpa using h1.paused w (by simpa using hw), h1.told⟩
    | fail hf => exact ⟨told_failed hf ht, by simp⟩
    | cull hk hok hc =>
      refine ⟨?_, by simp⟩
      exact (((hi _ rfl).emitSv _ .cull trivial rfl).close _).told

end Service

/-- Paused subservices, in a state of perpd and in every status reply up to it. -/
def PausedStopped (p : Perpd) : Prop :=
  (∀ sd ∈ p.svdefs, ∀ w, PausedRight p.sys.trace sd w) ∧ Along ReportedRight p.sys.trace

/-- Where no process ends that is flagged paused, what is flagged paused is a
start process that was stopped, and no status reply says otherwise. -/
theorem paused_stopped (cfg : Config) (inputs : List IterIn)
    (hp : ∀ e ∈ (perpdRun cfg inputs).sys.trace, AwakeAtEnd e) :
    PausedStopped (perpdRun cfg inputs) := by
  have hrun (k : Key) := (service_paused cfg k).run inputs ((along_const _ _).mpr hp)
  constructor
  · intro sd hsd w
    have hn := (run_phase cfg inputs).ok.ok.nodup
    exact ((hrun sd.key).2 sd (entryOf_of_mem hn hsd)).right w
  · intro past e rest ht
    cases e with
    | sv sd x => exact (hrun sd.key).1 past _ rest ht rfl
    | _ => trivial

/-- A service is paused, continued, and killed. -/
def pausedContinued : List IterIn :=
  [connects (scans quiet [service "foo" 2 ⟨some 8, false, false, none, none⟩]) 9,
    connects { quiet with clients := [sends (ctlRequest (1, 2) 'p' 0)] } 10,
    { quiet with clients := [silent, sends (ctlRequest (1, 2) 'c' 0)] }, exits quiet [(100, 9)]]

theorem paused_stopped_continued :
    PausedStopped (perpdRun (plain [some 100, some 101]) pausedContinued) :=
  paused_stopped (plain [some 100, some 101]) pausedContinued (by decide +kernel)

/-- A service is paused, and killed. -/
def pausedKilled : List IterIn :=
  [connects (scans quiet [service "foo" 2 ⟨some 8, false, false, none, none⟩]) 9,
    { quiet with clients := [sends (ctlRequest (1, 2) 'p' 0)] }, exits quiet [(100, 9)]]

theorem paused_stopped_fails :
    ¬ PausedStopped (perpdRun (plain [some 100, some 101]) pausedKilled) := by
  rintro ⟨h, _⟩
  exact absurd h (by decide +kernel)

end Perp.PerpdPaused
