import Perp.PerpdFrame

set_option autoImplicit false

/-!
# What perpd does to one entry

The ways in which `perpd_svdef_run()` can end, the steps that change one entry
of `svdefs[]`.
-/
namespace Perp.PerpdEntry
open PerpdState PerpdSvdef PerpdConn PerpdMainloop PerpdFrame

@[simp] theorem aim_has (v : Subsv) (target : Target) (f : SubsvFlag) :
    (aim v target).has f =
      (!decide (f = .failing) && if f = .isreset then decide (target = .reset) else v.has f) := by
  cases target with
  | start =>
    have h : (aim v .start).has f =
        (!decide (SubsvFlag.failing = f) && (v.drop .isreset).has f) := FlagByte.has_drop _ _ _
    rw [h]
    cases f <;> simp
  | reset =>
    have h : (aim v .reset).has f =
        (!decide (SubsvFlag.failing = f) && (v.put .isreset).has f) := FlagByte.has_drop _ _ _
    rw [h]
    cases f <;> simp

@[simp] theorem aim_pid (v : Subsv) (target : Target) : (aim v target).pid = 0 := rfl
@[simp] theorem aim_wstat (v : Subsv) (target : Target) : (aim v target).wstat = 0 := rfl

@[simp] theorem forked_has (v : Subsv) (target : Target) (pid : ℕ) (now towait : Tain)
    (f : SubsvFlag) : (forked v target pid now towait).has f = v.has f := rfl
@[simp] theorem forked_pid (v : Subsv) (target : Target) (pid : ℕ) (now towait : Tain) :
    (forked v target pid now towait).pid = pid := rfl

/-- A call of `fork()` for `sd` that ends with `ret`. -/
structure ForkStep (s s' : Sys) (sd : Svdef) (which : Which) (target : Target)
    (ret : Option ℕ) : Prop where
  trace : ∃ now towait, s'.trace = s.trace ++
    [.sv sd (.fork which target (runProg s.sysstrSignal sd.name which target 0) now towait
      (childIo s.fds sd which target) ret)]
  fds : s'.fds = s.fds
  children : s'.children =
    ret.elim s.children (fun pid => Function.update s.children pid (some (sd.key, which)))
  fresh : ∀ pid, ret = some pid → 0 < pid ∧ s.children pid = none
  failing : s'.flagFailing =
    if ret = none ∧ s.flagTerminating = false then s.flagFailing + 1 else s.flagFailing
  hup : s'.flagHup = s.flagHup
  term : s'.flagTerm = s.flagTerm
  terminating : s'.flagTerminating = s.flagTerminating
  serial : s'.serial = s.serial
  signals : s'.sysstrSignal = s.sysstrSignal
  listen : s'.fdListen = s.fdListen

/-- The subservice `v` after a `fork()` for `target` that ended with `ret`. -/
structure Armed (u : Subsv) (target : Target) (ret : Option ℕ) (v : Subsv) : Prop where
  pid : v.pid = ret.getD 0
  isreset : v.has .isreset = decide (target = .reset)
  failing : v.has .failing = ret.isNone
  other : ∀ f, f ≠ .isreset → f ≠ .failing → v.has f = u.has f

theorem fork_spec (s : Sys) (owner : Key × Which) : ∃ ret,
    s.fork owner =
      (ret, { s with
        forks := fun n => s.forks (n + 1)
        children :=
          ret.elim s.children (fun pid => Function.update s.children pid (some owner)) }) ∧
      ∀ pid, ret = some pid → 0 < pid ∧ s.children pid = none := by
  cases h : s.forks 0 with
  | none => exact ⟨none, by simp [Sys.fork, h], by simp⟩
  | some pid =>
    by_cases hp : 0 < pid ∧ s.children pid = none
    · refine ⟨some pid, by simp only [Sys.fork, h, hp, and_self, ↓reduceIte, Option.elim_some], ?_⟩
      rintro _ ⟨⟩
      exact hp
    · exact ⟨none, by simp only [Sys.fork, h, hp, ↓reduceIte, Option.elim_none], by simp⟩

/-- `perpd_svdef_run()` does nothing, or it forks, with either outcome. -/
theorem run_cases (s : Sys) (sd : Svdef) (which : Which) (target : Target) :
    (perpdSvdefRun s sd which target = (s, sd) ∧
      (which = .log ∧ sd.has .haslog = false ∨ 0 < (sd.sv which).pid)) ∨
    (¬ (which = .log ∧ sd.has .haslog = false) ∧ (sd.sv which).pid = 0 ∧
      ∃ ret s' v, perpdSvdefRun s sd which target = (s', sd.setSv which v) ∧
        ForkStep s s' (sd.setSv which (aim (sd.sv which) target)) which target ret ∧
        Armed (sd.sv which) target ret v) := by
  by_cases hlog : which = .log ∧ sd.has .haslog = false
  · exact Or.inl ⟨by simp [perpdSvdefRun, hlog], Or.inl hlog⟩
  by_cases hpid : 0 < (sd.sv which).pid
  · exact Or.inl ⟨by simp only [perpdSvdefRun, hlog, hpid, ↓reduceIte], Or.inr hpid⟩
  refine Or.inr ⟨hlog, by omega, ?_⟩
  obtain ⟨ret, hf, hfresh⟩ := fork_spec s.tainNow.2
    ((sd.setSv which (aim (sd.sv which) target)).key, which)
  rw [perpdSvdefRun, if_neg hlog, if_neg hpid]
  simp only [hf]
  cases ret with
  | none =>
    refine ⟨none, _, _, Prod.ext rfl (Svdef.setSv_setSv _ _ _ _), ?_, ?_⟩
    · by_cases ht : s.flagTerminating <;>
        constructor <;>
        simp [perpdTriggerFail, ht, Sys.emitSv, Sys.emit, Sys.tainNow, Sys.selfpipePing]
    · exact ⟨by simp, by simp, by simp, fun f h h' => by simp [h, h', h'.symm]⟩
  | some pid =>
    refine ⟨some pid, _, _, Prod.ext rfl (Svdef.setSv_setSv _ _ _ _), ?_, ?_⟩
    · constructor <;> simp [Sys.emitSv, Sys.emit, Sys.tainNow]
      exact hfresh pid rfl
    · exact ⟨rfl, by simp, by simp, fun f h h' => by simp [h, h']⟩

theorem ForkStep.frame {s s' : Sys} {sd : Svdef} {which : Which} {target : Target}
    {ret : Option ℕ} {k : Key} (h : ForkStep s s' sd which target ret) (hk : sd.key ≠ k) :
    Frame k s s' where
  grows := by
    obtain ⟨now, towait, ht⟩ := h.trace
    refine ⟨_, ht, by simpa [Event.key] using hk, ?_, by simp, fun fd o _ hs => Or.inl ?_⟩
    · simp only [List.mem_singleton, forall_eq, Event.pid]
      intro p hp w
      simp [(h.fresh p hp).2]
    · rw [h.fds]
      exact hs
  opens fd o _ hs := by rwa [h.fds] at hs
  listens fd hs := by rwa [h.fds] at hs
  children p w := by
    rw [h.children]
    cases ret with
    | none => exact Iff.rfl
    | some pid =>
      by_cases hp : p = pid
      · subst hp
        simp [(h.fresh p rfl).2, hk]
      · simp [Function.update_of_ne hp]
  serial := h.serial.ge
  terminating hs := by rwa [h.terminating]
  term hs := by
    obtain ⟨now, towait, ht⟩ := h.trace
    simpa [h.terminating, ht] using hs
  shut := Or.inl h.terminating
  signals := h.signals
  listen := h.listen

theorem run_frame (s : Sys) (sd : Svdef) (which : Which) (target : Target) {k : Key}
    (hk : sd.key ≠ k) : Frame k s (perpdSvdefRun s sd which target).1 := by
  rcases run_cases s sd which target with ⟨h, _⟩ | ⟨_, _, ret, s', v, h, hf, _⟩
  · rw [h]
    exact Frame.refl k s
  · rw [h]
    exact hf.frame (by simpa using hk)

@[simp] theorem reapedSv_has (v : Subsv) (wstat : ℕ) (f : SubsvFlag) :
    (reapedSv v wstat).has f = (v.has f || (decide (f = .wantdown) && v.has .isonce)) := by
  have h (g : SubsvFlag) : Subsv.has { v with pid := 0, wstat := wstat } g = v.has g := rfl
  by_cases ho : v.has .isonce
  · cases f <;> simp [reapedSv, h, ho]
  · simp [reapedSv, h, ho]

@[simp] theorem reapedSv_pid (v : Subsv) (wstat : ℕ) : (reapedSv v wstat).pid = 0 := by
  unfold reapedSv
  dsimp only
  split <;> rfl

@[simp] theorem reapedSv_wstat (v : Subsv) (wstat : ℕ) : (reapedSv v wstat).wstat = wstat := by
  unfold reapedSv
  dsimp only
  split <;> rfl

/-- The log shutdown of `perpd_waitup()`, when main is down for good. -/
def reapedShutdown (s : Sys) (sd : Svdef) : Sys × Svdef :=
  let s' :=
    if sd.svLog.has .isreset = false then
      kill (closeLogpipe s sd) sd .log sd.svLog.pid .sigterm
    else s
  (kill s' sd .log sd.svLog.pid .sigcont, sd.setSv .log (sd.svLog.drop .ispaused))

/-- A dead start is reset, a finished reset is started again unless it is
wanted down, and then perhaps the log is shut down. -/
theorem reaped_cases (s : Sys) (sd : Svdef) (which : Which) (wstat : ℕ) :
    let s0 := s.emitSv sd (.reap which wstat)
    let v := reapedSv (sd.sv which) wstat
    let sd0 := sd.setSv which v
    ((sd.sv which).has .isreset = false ∧
      perpdReaped s sd which wstat = (perpdSvdefRun s0 sd0 which .reset, false)) ∨
    ((sd.sv which).has .isreset = true ∧ v.has .wantdown = false ∧
      perpdReaped s sd which wstat = (perpdSvdefRun s0 sd0 which .start, false)) ∨
    ((sd.sv which).has .isreset = true ∧ v.has .wantdown = true ∧ which = .main ∧
      sd.has .haslog = true ∧ sd.svLog.has .wantdown = true ∧ 0 < sd.svLog.pid ∧
      perpdReaped s sd which wstat = (reapedShutdown s0 sd0, false)) ∨
    ((sd.sv which).has .isreset = true ∧ v.has .wantdown = true ∧
      ¬ (which = .main ∧ sd.has .haslog = true ∧ sd.svLog.has .wantdown = true ∧
        0 < sd.svLog.pid) ∧
      perpdReaped s sd which wstat = ((s0, sd0), true)) := by
  intro s0 v sd0
  by_cases hr : (sd.sv which).has .isreset = true
  · have hv : v.has .isreset = true := by simp [v, hr]
    by_cases hw : v.has .wantdown = true
    · by_cases hl : which = .main ∧ sd.has .haslog = true ∧ sd.svLog.has .wantdown = true ∧
          0 < sd.svLog.pid
      · obtain ⟨rfl, hh, hlw, hlp⟩ := hl
        refine Or.inr (Or.inr (Or.inl ⟨hr, hw, rfl, hh, hlw, hlp, ?_⟩))
        have hv' : (reapedSv sd.svMain wstat).has .isreset = true := hv
        have hw' : (reapedSv sd.svMain wstat).has .wantdown = true := hw
        simp only [perpdReaped, Svdef.sv_main, hv', hw', Bool.true_eq_false, ↓reduceIte,
          Svdef.setSv_has, Svdef.setSv_main_svLog, hh, hlw, hlp, and_self, reapedShutdown]
        rfl
      · refine Or.inr (Or.inr (Or.inr ⟨hr, hw, hl, ?_⟩))
        have hl' : ¬ (which = .main ∧ (sd.setSv which v).has .haslog = true ∧
            (sd.setSv which v).svLog.has .wantdown = true ∧ 0 < (sd.setSv which v).svLog.pid) := by
          rintro ⟨rfl, h⟩
          exact hl ⟨rfl, by simpa using h⟩
        simp only [perpdReaped, hv, hw, hl', v, Bool.true_eq_false, ↓reduceIte]
        rfl
    · have hw' : v.has .wantdown = false := by simpa using hw
      refine Or.inr (Or.inl ⟨hr, hw', ?_⟩)
      simp only [perpdReaped, hv, hw', v, Bool.true_eq_false, ↓reduceIte]
      rfl
  · have hr' : (sd.sv which).has .isreset = false := by simpa using hr
    refine Or.inl ⟨hr', ?_⟩
    have hv : v.has .isreset = false := by simp [v, hr']
    simp only [perpdReaped, hv, v, ↓reduceIte]
    rfl

@[simp] theorem cullFlags_has (sd : Svdef) (f : SvdefFlag) :
    (cullFlags sd).has f = (decide (f = .cull) || sd.has f) := by
  unfold cullFlags
  dsimp only
  split <;> cases f <;> simp

@[simp] theorem cullFlags_sv_has (sd : Svdef) (w : Which) (f : SubsvFlag) :
    ((cullFlags sd).sv w).has f =
      (decide (f = .wantdown ∧ (w = .log → sd.has .haslog = true)) || (sd.sv w).has f) := by
  by_cases h : sd.has .haslog <;> cases w <;> cases f <;> simp [cullFlags, h]

@[simp] theorem cullFlags_svMain_has (sd : Svdef) (f : SubsvFlag) :
    (cullFlags sd).svMain.has f = (decide (f = .wantdown) || sd.svMain.has f) := by
  simpa using cullFlags_sv_has sd .main f

@[simp] theorem cullFlags_svLog_has (sd : Svdef) (f : SubsvFlag) :
    (cullFlags sd).svLog.has f =
      (decide (f = .wantdown ∧ sd.has .haslog = true) || sd.svLog.has f) := by
  simpa using cullFlags_sv_has sd .log f

@[simp] theorem cullFlags_pid (sd : Svdef) (w : Which) :
    ((cullFlags sd).sv w).pid = (sd.sv w).pid := by
  by_cases h : sd.has .haslog <;> cases w <;> simp [cullFlags, h]

@[simp] theorem cullFlags_svMain_pid (sd : Svdef) : (cullFlags sd).svMain.pid = sd.svMain.pid :=
  cullFlags_pid sd .main
@[simp] theorem cullFlags_svLog_pid (sd : Svdef) : (cullFlags sd).svLog.pid = sd.svLog.pid :=
  cullFlags_pid sd .log

theorem cullFlags_same (sd : Svdef) : (cullFlags sd).key = sd.key ∧
    (cullFlags sd).fdDir = sd.fdDir ∧ (cullFlags sd).logpipe0 = sd.logpipe0 ∧
    (cullFlags sd).logpipe1 = sd.logpipe1 := by
  unfold cullFlags
  dsimp only
  split <;> simp

/-- `perpd_svdef_wantcull()` wakes and terminates main if it runs, else the
log if it runs, and reports an entry of which nothing runs. -/
theorem wantcull_cases (s : Sys) (sd : Svdef) :
    let s0 := s.emitSv sd .wantcull
    let sd0 := cullFlags sd
    (0 < sd.svMain.pid ∧
      let sd1 := sd0.setSv .main (sd0.svMain.drop .ispaused)
      let s1 := if sd.svMain.has .isreset = false then
        kill s0 sd0 .main sd.svMain.pid .sigterm else s0
      perpdSvdefWantcull s sd = ((kill s1 sd1 .main sd.svMain.pid .sigcont, sd1), false)) ∨
    (sd.svMain.pid = 0 ∧ sd.has .haslog = true ∧ 0 < sd.svLog.pid ∧
      let sd1 := sd0.setSv .log (sd0.svLog.drop .ispaused)
      let s1 := if sd.svLog.has .isreset = false then
        kill (closeLogpipe s0 sd0) sd0 .log sd.svLog.pid .sigterm else s0
      perpdSvdefWantcull s sd = ((kill s1 sd1 .log sd.svLog.pid .sigcont, sd1), false)) ∨
    (sd.svMain.pid = 0 ∧ ¬ (sd.has .haslog = true ∧ 0 < sd.svLog.pid) ∧
      perpdSvdefWantcull s sd = ((s0, sd0), true)) := by
  intro s0 sd0
  by_cases hm : 0 < sd.svMain.pid
  · refine Or.inl ⟨hm, ?_⟩
    simp [perpdSvdefWantcull, hm, s0, sd0]
  · have hm0 : sd.svMain.pid = 0 := by omega
    by_cases hl : sd.has .haslog = true ∧ 0 < sd.svLog.pid
    · refine Or.inr (Or.inl ⟨hm0, hl.1, hl.2, ?_⟩)
      simp [perpdSvdefWantcull, hm0, hl, s0, sd0]
    · refine Or.inr (Or.inr ⟨hm0, hl, ?_⟩)
      have hl' : ¬ ((cullFlags sd).has .haslog = true ∧ 0 < (cullFlags sd).svLog.pid) := by
        simpa using hl
      simp only [perpdSvdefWantcull, cullFlags_svMain_pid, hm0, lt_irrefl, ↓reduceIte, hl', s0, sd0]

/-- A change of an entry that keeps its processes: it may be flagged active or
to be cycled, and named anew. -/
structure Marked (sd sd' : Svdef) : Prop where
  key : sd'.key = sd.key
  fdDir : sd'.fdDir = sd.fdDir
  logpipe0 : sd'.logpipe0 = sd.logpipe0
  logpipe1 : sd'.logpipe1 = sd.logpipe1
  sv : ∀ w, sd'.sv w = sd.sv w
  flags : ∀ f, f ≠ .active → f ≠ .cycle → sd'.has f = sd.has f
  cycle : sd'.has .cycle = true → sd.has .cycle = true ∨ sd.has .cull = true

/-- The steps on one entry that neither fork nor wait. -/
inductive CalmStep (s : Sys) (sd : Svdef) : Sys → Svdef → Prop where
  | signal (which : Which) (cmd : Cmd) (pg : Bool) (hc : sd.has .cull = false)
      (hs : (Cmd.signal cmd).isSome = true) :
      CalmStep s sd (doSignal s sd which cmd pg).1 (doSignal s sd which cmd pg).2
  | cont (which : Which) (pg : Bool) (hc : sd.has .cull = false) :
      CalmStep s sd (doContinue s sd which pg).1 (doContinue s sd which pg).2
  | pause (which : Which) (pg : Bool) (hc : sd.has .cull = false) :
      CalmStep s sd (doPause s sd which pg).1 (doPause s sd which pg).2
  | want (which : Which) (hc : sd.has .cull = false) :
      CalmStep s sd (s.emitSv sd (.control which .down))
        (sd.setSv which ((sd.sv which).put .wantdown))
  | note (which : Which) (cmd : Cmd) (hc : sd.has .cull = false)
      (hm : cmd = .metaDown ∨ cmd = .metaUp) :
      CalmStep s sd (s.emitSv sd (.control which cmd)) sd
  | status : CalmStep s sd (s.emitSv sd .status) sd
  | mark (sd' : Svdef) (h : Marked sd sd') : CalmStep s sd s sd'
  | wantcull : CalmStep s sd (perpdSvdefWantcull s sd).1.1 (perpdSvdefWantcull s sd).1.2

/-- The steps on one entry of `svdefs[]`. -/
inductive EntryStep (s : Sys) (sd : Svdef) : Sys → Svdef → Prop where
  | reap (which : Which) (wstat : ℕ) (hp : 0 < (sd.sv which).pid)
      (hw : wIfexited wstat ∨ wIfsignaled wstat) :
      EntryStep s sd (perpdReaped (s.waited (sd.sv which).pid) sd which wstat).1.1
        (perpdReaped (s.waited (sd.sv which).pid) sd which wstat).1.2
  | checkfail : EntryStep s sd (perpdSvdefCheckfail s sd).1 (perpdSvdefCheckfail s sd).2
  | start (which : Which) (cmd : Cmd) (hc : sd.has .cull = false) (hm : cmd = .once ∨ cmd = .up) :
      EntryStep s sd (doStart s sd which cmd).1 (doStart s sd which cmd).2
  | calm (s' : Sys) (sd' : Svdef) (h : CalmStep s sd s' sd') : EntryStep s sd s' sd'

end Perp.PerpdEntry
