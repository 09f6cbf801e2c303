import Perp.PerpdEntry

set_option autoImplicit false

/-!
# What a step on one entry leaves alone

The identity of an entry and its descriptors' numbers outlast every step. A calm
step neither forks nor waits, and no step on one service is seen by another.
-/
namespace Perp.PerpdEffect
open PerpdState PerpdSvdef PerpdConn PerpdMainloop PerpdFrame PerpdEntry

/-- What stays of an entry as long as it is in the table. -/
structure Kept (sd sd' : Svdef) : Prop where
  key : sd'.key = sd.key
  fdDir : sd'.fdDir = sd.fdDir
  logpipe0 : sd'.logpipe0 = sd.logpipe0
  logpipe1 : sd'.logpipe1 = sd.logpipe1
  haslog : sd'.has .haslog = sd.has .haslog
  cull : sd.has .cull = true → sd'.has .cull = true

theorem Kept.refl (sd : Svdef) : Kept sd sd := ⟨rfl, rfl, rfl, rfl, rfl, id⟩

theorem Kept.trans {a b c : Svdef} (h : Kept a b) (h' : Kept b c) : Kept a c :=
  ⟨h'.key.trans h.key, h'.fdDir.trans h.fdDir, h'.logpipe0.trans h.logpipe0,
    h'.logpipe1.trans h.logpipe1, h'.haslog.trans h.haslog, fun hc => h'.cull (h.cull hc)⟩

theorem Kept.setSv (sd : Svdef) (w : Which) (v : Subsv) : Kept sd (sd.setSv w v) := by
  constructor <;> simp

theorem Kept.cullFlags (sd : Svdef) : Kept sd (cullFlags sd) := by
  obtain ⟨hk, hf, h0, h1⟩ := cullFlags_same sd
  exact ⟨hk, hf, h0, h1, by simp, by simp⟩

theorem Kept.run (s : Sys) (sd : Svdef) (which : Which) (target : Target) :
    Kept sd (perpdSvdefRun s sd which target).2 := by
  rcases run_cases s sd which target with ⟨h, _⟩ | ⟨_, _, ret, s', v, h, _, _⟩
  · rw [h]
    exact .refl sd
  · rw [h]
    exact .setSv sd which v

@[simp] theorem run_has (s : Sys) (sd : Svdef) (which : Which) (target : Target) (f : SvdefFlag) :
    (perpdSvdefRun s sd which target).2.has f = sd.has f := by
  rcases run_cases s sd which target with ⟨h, _⟩ | ⟨_, _, ret, s', v, h, _, _⟩ <;> simp [h]

theorem run_other (s : Sys) (sd : Svdef) (which : Which) (target : Target) (w : Which)
    (hw : which ≠ w) : (perpdSvdefRun s sd which target).2.sv w = sd.sv w := by
  rcases run_cases s sd which target with ⟨h, _⟩ | ⟨_, _, ret, s', v, h, _, _⟩ <;>
    simp [h, Svdef.setSv_sv, hw]

@[simp] theorem wantcull_has (s : Sys) (sd : Svdef) (f : SvdefFlag) :
    (perpdSvdefWantcull s sd).1.2.has f = (decide (f = .cull) || sd.has f) := by
  rcases wantcull_cases s sd with ⟨_, h⟩ | ⟨_, _, _, h⟩ | ⟨_, _, h⟩ <;> simp [h]

theorem wantcull_wantdown (s : Sys) (sd : Svdef) (w : Which) (hw : w = .log → sd.has .haslog = true) :
    ((perpdSvdefWantcull s sd).1.2.sv w).has .wantdown = true := by
  have hf : ((cullFlags sd).sv w).has .wantdown = true := by
    rw [cullFlags_sv_has, decide_eq_true ⟨rfl, hw⟩, Bool.true_or]
  rcases wantcull_cases s sd with ⟨_, he⟩ | ⟨_, _, _, he⟩ | ⟨_, _, he⟩ <;> rw [he]
  · cases w <;> simp_all
  · cases w <;> simp_all
  · exact hf

theorem Kept.wantcull (s : Sys) (sd : Svdef) : Kept sd (perpdSvdefWantcull s sd).1.2 := by
  rcases wantcull_cases s sd with ⟨_, h⟩ | ⟨_, _, _, h⟩ | ⟨_, _, h⟩ <;> rw [h]
  · exact (Kept.cullFlags sd).trans (.setSv _ .main _)
  · exact (Kept.cullFlags sd).trans (.setSv _ .log _)
  · exact .cullFlags sd

theorem Kept.reaped (s : Sys) (sd : Svdef) (which : Which) (wstat : ℕ) :
    Kept sd (perpdReaped s sd which wstat).1.2 := by
  rcases reaped_cases s sd which wstat with ⟨_, h⟩ | ⟨_, _, h⟩ | ⟨_, _, _, _, _, _, h⟩ | ⟨_, _, _, h⟩ <;>
    rw [h]
  · exact (Kept.setSv sd which _).trans (.run _ _ _ _)
  · exact (Kept.setSv sd which _).trans (.run _ _ _ _)
  · exact (Kept.setSv sd which _).trans (.setSv _ .log _)
  · exact .setSv sd which _

@[simp] theorem reaped_has (s : Sys) (sd : Svdef) (which : Which) (wstat : ℕ) (f : SvdefFlag) :
    (perpdReaped s sd which wstat).1.2.has f = sd.has f := by
  rcases reaped_cases s sd which wstat with ⟨_, h⟩ | ⟨_, _, h⟩ | ⟨_, _, _, _, _, _, h⟩ | ⟨_, _, _, h⟩ <;>
    simp [h, reapedShutdown]

@[simp] theorem checkfailOne_has (s : Sys) (sd : Svdef) (which : Which) (f : SvdefFlag) :
    (checkfailOne s sd which).2.has f = sd.has f := by
  unfold checkfailOne
  split <;> simp

theorem Kept.checkfailOne (s : Sys) (sd : Svdef) (which : Which) :
    Kept sd (checkfailOne s sd which).2 := by
  unfold PerpdSvdef.checkfailOne
  split
  · exact .run _ _ _ _
  · exact .refl sd

theorem checkfail_cases (s : Sys) (sd : Svdef) :
    let s0 := s.emitSv sd .checkfail
    (sd.has .active = false ∧ perpdSvdefCheckfail s sd = (s0, sd)) ∨
    (sd.has .active = true ∧ sd.has .haslog = false ∧
      perpdSvdefCheckfail s sd = checkfailOne s0 sd .main) ∨
    (sd.has .active = true ∧ sd.has .haslog = true ∧
      perpdSvdefCheckfail s sd =
        checkfailOne (checkfailOne s0 sd .log).1 (checkfailOne s0 sd .log).2 .main) := by
  intro s0
  cases ha : sd.has .active <;> cases hh : sd.has .haslog <;>
    simp [perpdSvdefCheckfail, ha, hh, s0]

@[simp] theorem checkfail_has (s : Sys) (sd : Svdef) (f : SvdefFlag) :
    (perpdSvdefCheckfail s sd).2.has f = sd.has f := by
  rcases checkfail_cases s sd with ⟨_, h⟩ | ⟨_, _, h⟩ | ⟨_, _, h⟩ <;> simp [h]

theorem Kept.checkfail (s : Sys) (sd : Svdef) : Kept sd (perpdSvdefCheckfail s sd).2 := by
  rcases checkfail_cases s sd with ⟨_, h⟩ | ⟨_, _, h⟩ | ⟨_, _, h⟩ <;> rw [h]
  · exact .refl sd
  · exact .checkfailOne _ _ _
  · exact (Kept.checkfailOne _ _ _).trans (.checkfailOne _ _ _)

/-- The entry as 'o' and 'u' flag it before they look at the pid. -/
def startFlags (sd : Svdef) (which : Which) (cmd : Cmd) : Svdef :=
  sd.setSv which ((if cmd = .once then (sd.sv which).put .isonce
    else (sd.sv which).drop .isonce).drop .wantdown)

@[simp] theorem startFlags_sv_has (sd : Svdef) (which : Which) (cmd : Cmd) (f : SubsvFlag) :
    ((startFlags sd which cmd).sv which).has f =
      if f = .isonce then decide (cmd = .once)
      else !decide (f = .wantdown) && (sd.sv which).has f := by
  unfold startFlags
  split <;> cases f <;> simp_all

@[simp] theorem startFlags_sv_pid (sd : Svdef) (which : Which) (cmd : Cmd) :
    ((startFlags sd which cmd).sv which).pid = (sd.sv which).pid := by
  unfold startFlags
  split <;> simp

@[simp] theorem startFlags_has (sd : Svdef) (which : Which) (cmd : Cmd) (f : SvdefFlag) :
    (startFlags sd which cmd).has f = sd.has f :=
  Svdef.setSv_has _ _ _ _

@[simp] theorem startFlags_key (sd : Svdef) (which : Which) (cmd : Cmd) :
    (startFlags sd which cmd).key = sd.key :=
  Svdef.setSv_key _ _ _

theorem startFlags_other (sd : Svdef) (which : Which) (cmd : Cmd) (w : Which) (hw : which ≠ w) :
    (startFlags sd which cmd).sv w = sd.sv w := by
  simp [startFlags, Svdef.setSv_sv, hw]

theorem start_cases (s : Sys) (sd : Svdef) (which : Which) (cmd : Cmd) :
    let s0 := s.emitSv sd (.control which cmd)
    ((sd.sv which).pid = 0 ∧
      doStart s sd which cmd = perpdSvdefRun s0 (startFlags sd which cmd) which .start) ∨
    (0 < (sd.sv which).pid ∧ doStart s sd which cmd = (s0, startFlags sd which cmd)) := by
  intro s0
  have hpid := startFlags_sv_pid sd which cmd
  by_cases hp : (sd.sv which).pid = 0
  · refine Or.inl ⟨hp, ?_⟩
    change (if ((startFlags sd which cmd).sv which).pid = 0 then _ else _) = _
    rw [if_pos (hpid.trans hp)]
    rfl
  · refine Or.inr ⟨by omega, ?_⟩
    change (if ((startFlags sd which cmd).sv which).pid = 0 then _ else _) = _
    rw [if_neg (by rwa [hpid])]
    rfl

theorem Kept.start (s : Sys) (sd : Svdef) (which : Which) (cmd : Cmd) :
    Kept sd (doStart s sd which cmd).2 := by
  rcases start_cases s sd which cmd with ⟨_, h⟩ | ⟨_, h⟩ <;> rw [h]
  · exact (Kept.setSv sd which _).trans (.run _ _ _ _)
  · exact .setSv sd which _

/-- The events of steps that neither fork nor wait for `sd`. A signal goes to a
recorded child, and to a running reset only what it may receive. -/
def Quiet (sd : Svdef) : Event → Prop
  | .sv x (.kill which target sig) =>
    x.key = sd.key ∧ 0 < (sd.sv which).pid ∧ target.natAbs = (sd.sv which).pid ∧
      ((sd.sv which).has .isreset = true → sig = .sigcont ∨ sig = .sigkill) ∧
      (x.sv which).pid = (sd.sv which).pid
  | .sv x (.control _ _) | .sv x .wantcull | .sv x (.closeLog _ _) | .sv x .status => x.key = sd.key
  | .closed _ _ => True
  | _ => False

structure Calm (s : Sys) (sd : Svdef) (s' : Sys) (sd' : Svdef) : Prop where
  kept : Kept sd sd'
  pid : ∀ w, (sd'.sv w).pid = (sd.sv w).pid
  flags : ∀ w f, f ≠ .ispaused → f ≠ .wantdown → (sd'.sv w).has f = (sd.sv w).has f
  wantdown : ∀ w, (sd.sv w).has .wantdown = true → (sd'.sv w).has .wantdown = true
  grows : ∃ evs, s'.trace = s.trace ++ evs ∧ (∀ e ∈ evs, Quiet sd e) ∧
    ∀ fd o, s.fds fd = some o → s'.fds fd = some o ∨ .closed fd (some o) ∈ evs
  opens : ∀ fd o, s'.fds fd = some o → s.fds fd = some o
  children : s'.children = s.children
  failing : s'.flagFailing = s.flagFailing
  hup : s'.flagHup = s.flagHup
  term : s'.flagTerm = s.flagTerm
  terminating : s'.flagTerminating = s.flagTerminating
  serial : s'.serial = s.serial
  signals : s'.sysstrSignal = s.sysstrSignal
  listen : s'.fdListen = s.fdListen

namespace Calm
variable {s t u : Sys} {a b c : Svdef}

theorem flag (s : Sys) (hk : Kept a b) (hp : ∀ w, (b.sv w).pid = (a.sv w).pid)
    (hf : ∀ w f, f ≠ .ispaused → f ≠ .wantdown → (b.sv w).has f = (a.sv w).has f)
    (hw : ∀ w, (a.sv w).has .wantdown = true → (b.sv w).has .wantdown = true) : Calm s a s b := by
  refine ⟨hk, hp, hf, hw, ⟨[], ?_⟩, ?_, ?_, ?_, ?_, ?_, ?_, ?_, ?_, ?_⟩ <;> simp

theorem refl (s : Sys) (a : Svdef) : Calm s a s a :=
  flag s (.refl a) (fun _ => rfl) (fun _ _ _ _ => rfl) (fun _ h => h)

theorem quiet_of_quiet (h : Calm s a t b) {e : Event} (he : Quiet b e) : Quiet a e := by
  have hr (w : Which) : (b.sv w).has .isreset = (a.sv w).has .isreset :=
    h.flags w .isreset (by simp) (by simp)
  unfold Quiet at he ⊢
  split at he <;> simp_all [h.kept.key, h.pid]

theorem trans (h : Calm s a t b) (h' : Calm t b u c) : Calm s a u c where
  kept := h.kept.trans h'.kept
  pid w := (h'.pid w).trans (h.pid w)
  flags w f hp hw := (h'.flags w f hp hw).trans (h.flags w f hp hw)
  wantdown w hw := h'.wantdown w (h.wantdown w hw)
  grows := by
    obtain ⟨x, hx, hqx, hcx⟩ := h.grows
    obtain ⟨y, hy, hqy, hcy⟩ := h'.grows
    refine ⟨x ++ y, by rw [hy, hx, List.append_assoc], ?_, ?_⟩
    · intro e he
      rcases List.mem_append.mp he with he | he
      · exact hqx e he
      · exact h.quiet_of_quiet (hqy e he)
    · intro fd o ho
      rcases hcx fd o ho with ho | ho
      · exact (hcy fd o ho).imp_right (List.mem_append_right _)
      · exact Or.inr (List.mem_append_left _ ho)
  opens fd o ho := h.opens fd o (h'.opens fd o ho)
  children := h'.children.trans h.children
  failing := h'.failing.trans h.failing
  hup := h'.hup.trans h.hup
  term := h'.term.trans h.term
  terminating := h'.terminating.trans h.terminating
  serial := h'.serial.trans h.serial
  signals := h'.signals.trans h.signals
  listen := h'.listen.trans h.listen

theorem emit (s : Sys) (a : Svdef) (e : Event) (he : Quiet a e) : Calm s a (s.emit e) a where
  kept := .refl a
  pid _ := rfl
  flags _ _ _ _ := rfl
  wantdown _ h := h
  grows := ⟨[e], rfl, by simpa using he, fun _ _ h => Or.inl h⟩
  opens _ _ h := h
  children := rfl
  failing := rfl
  hup := rfl
  term := rfl
  terminating := rfl
  serial := rfl
  signals := rfl
  listen := rfl

theorem emitSv (s : Sys) (a x : Svdef) (e : SvEvent) (he : Quiet a (.sv x e)) :
    Calm s a (s.emitSv x e) a :=
  emit s a _ he

theorem kill (s : Sys) (a x : Svdef) (which : Which) (target : ℤ) (sig : Signal)
    (hx : x.key = a.key) (hp : 0 < (a.sv which).pid) (ht : target.natAbs = (a.sv which).pid)
    (hr : (a.sv which).has .isreset = true → sig = .sigcont ∨ sig = .sigkill)
    (hxp : (x.sv which).pid = (a.sv which).pid) : Calm s a (kill s x which target sig) a :=
  emitSv s a x (.kill which target sig) ⟨hx, hp, ht, hr, hxp⟩

theorem close (s : Sys) (a : Svdef) (fd : ℕ) : Calm s a (s.close fd) a where
  kept := .refl a
  pid _ := rfl
  flags _ _ _ _ := rfl
  wantdown _ h := h
  grows := by
    refine ⟨[.closed fd (s.fds fd)], rfl, by simp [Quiet], ?_⟩
    intro fd' o h
    by_cases he : fd' = fd
    · subst he
      exact Or.inr (by simp [h])
    · exact Or.inl (by simp [Sys.close, Function.update_of_ne he, h])
  opens fd' o h := by
    by_cases he : fd' = fd
    · subst he
      simp [Sys.close] at h
    · simpa [Sys.close, Function.update_of_ne he] using h
  children := rfl
  failing := rfl
  hup := rfl
  term := rfl
  terminating := rfl
  serial := rfl
  signals := rfl
  listen := rfl

theorem closeLogpipe (s : Sys) (a x : Svdef) (hx : x.key = a.key) :
    Calm s a (closeLogpipe s x) a :=
  ((emitSv s a x (.closeLog _ _) hx).trans (close _ a _)).trans (close _ a _)

theorem setSv (s : Sys) (a : Svdef) (w : Which) (v : Subsv) (hp : v.pid = (a.sv w).pid)
    (hf : ∀ f, f ≠ .ispaused → f ≠ .wantdown → v.has f = (a.sv w).has f)
    (hw : (a.sv w).has .wantdown = true → v.has .wantdown = true) : Calm s a s (a.setSv w v) := by
  refine flag s (.setSv a w v) ?_ ?_ ?_ <;> intro w' <;> rw [Svdef.setSv_sv] <;> split
  · next h => exact h ▸ hp
  · rfl
  · next h => exact h ▸ hf
  · exact fun _ _ _ => rfl
  · next h => exact h ▸ hw
  · exact id

theorem doKill (s : Sys) (a : Svdef) (which : Which) (sig : Signal) (pg : Bool) :
    Calm s a (doKill s a which sig pg) a := by
  unfold PerpdConn.doKill
  dsimp only
  split
  · exact refl s a
  split
  · exact refl s a
  next hp =>
  have hpid : (if pg = true then (0 : ℤ) - (a.sv which).pid else (a.sv which).pid).natAbs =
      (a.sv which).pid := by
    split <;> omega
  split
  · next hr =>
    exact kill s a a which _ sig rfl (by omega) hpid (by simp [hr]) rfl
  split
  · next hs =>
    exact kill s a a which _ sig rfl (by omega) hpid (fun _ => hs) rfl
  · exact refl s a

theorem doSignal (s : Sys) (a : Svdef) (which : Which) (cmd : Cmd) (pg : Bool) :
    Calm s a (doSignal s a which cmd pg).1 (doSignal s a which cmd pg).2 := by
  have h : Calm s a (s.emitSv a (.control which cmd)) a := emitSv s a a _ rfl
  unfold PerpdConn.doSignal
  dsimp only
  split
  · exact h.trans (doKill _ a which _ pg)
  · exact h

theorem doContinue (s : Sys) (a : Svdef) (which : Which) (pg : Bool) :
    Calm s a (doContinue s a which pg).1 (doContinue s a which pg).2 := by
  have h : Calm s a (s.emitSv a (.control which .continue)) a := emitSv s a a _ rfl
  refine (h.trans ?_).trans (doKill _ _ which .sigcont pg)
  exact setSv _ a which _ rfl (fun f hf _ => by simp [hf.symm]) (by simp)

theorem doPause (s : Sys) (a : Svdef) (which : Which) (pg : Bool) :
    Calm s a (doPause s a which pg).1 (doPause s a which pg).2 := by
  have h : Calm s a (s.emitSv a (.control which .pause)) a := emitSv s a a _ rfl
  unfold PerpdConn.doPause
  dsimp only
  split
  · refine (h.trans ?_).trans (doKill _ _ which .sigstop pg)
    exact setSv _ a which _ rfl (fun f hf _ => by simp [hf.symm]) (by simp)
  · exact h

theorem cullFlags (s : Sys) (a : Svdef) : Calm s a s (cullFlags a) := by
  refine flag s (.cullFlags a) (cullFlags_pid a) ?_ ?_
  · intro w f _ hf
    simp [hf]
  · intro w hw
    simp [hw]

theorem terminate (s t : Sys) (a : Svdef) (which : Which) (x : Svdef) (hx : x.key = a.key)
    (hxp : (x.sv which).pid = (a.sv which).pid) (hp : 0 < (a.sv which).pid)
    (ht : (a.sv which).has .isreset = false → Calm s a t a) :
    Calm s a
      (PerpdSvdef.kill
        (if (a.sv which).has .isreset = false then
          PerpdSvdef.kill t a which (a.sv which).pid .sigterm else s)
        x which (a.sv which).pid .sigcont)
      (a.setSv which ((a.sv which).drop .ispaused)) := by
  have hcont (r : Sys) : Calm r a (PerpdSvdef.kill r x which (a.sv which).pid .sigcont)
      (a.setSv which ((a.sv which).drop .ispaused)) := by
    refine (kill r a x which _ .sigcont hx hp (Int.natAbs_natCast _) (by simp) hxp).trans ?_
    exact setSv _ a which _ rfl (fun f hf _ => by simp [hf.symm]) (by simp)
  split
  · next hr =>
    have hterm := kill t a a which _ .sigterm rfl hp (Int.natAbs_natCast _) (by simp [hr]) rfl
    exact ((ht hr).trans hterm).trans (hcont _)
  · exact hcont s

theorem wantcull (s : Sys) (a : Svdef) :
    Calm s a (perpdSvdefWantcull s a).1.1 (perpdSvdefWantcull s a).1.2 := by
  have h0 : Calm s a (s.emitSv a .wantcull) (PerpdSvdef.cullFlags a) :=
    (emitSv s a a .wantcull rfl).trans (cullFlags _ a)
  rcases wantcull_cases s a with ⟨hp, h⟩ | ⟨_, _, hp, h⟩ | ⟨_, _, h⟩ <;> rw [h]
  · have h1 := terminate (s.emitSv a .wantcull) (s.emitSv a .wantcull) (PerpdSvdef.cullFlags a) .main
      ((PerpdSvdef.cullFlags a).setSv .main ((PerpdSvdef.cullFlags a).svMain.drop .ispaused))
      (by simp) (by simp) (by simpa using hp) (fun _ => refl _ _)
    simp only [Svdef.sv_main, cullFlags_svMain_has, cullFlags_svMain_pid, reduceCtorEq,
      decide_false, Bool.false_or] at h1
    exact h0.trans h1
  · have h1 := terminate (s.emitSv a .wantcull)
      (PerpdSvdef.closeLogpipe (s.emitSv a .wantcull) (PerpdSvdef.cullFlags a))
      (PerpdSvdef.cullFlags a) .log
      ((PerpdSvdef.cullFlags a).setSv .log ((PerpdSvdef.cullFlags a).svLog.drop .ispaused))
      (by simp) (by simp) (by simpa using hp) (fun _ => closeLogpipe _ _ _ rfl)
    simp only [Svdef.sv_log, cullFlags_svLog_has, cullFlags_svLog_pid, reduceCtorEq, false_and,
      decide_false, Bool.false_or] at h1
    exact h0.trans h1
  · exact h0

theorem reapedShutdown (s : Sys) (a : Svdef) (hp : 0 < a.svLog.pid) :
    Calm s a (reapedShutdown s a).1 (reapedShutdown s a).2 :=
  terminate s (PerpdSvdef.closeLogpipe s a) a .log a rfl rfl hp (fun _ => closeLogpipe s a a rfl)

theorem of_calmStep {s' : Sys} {a' : Svdef} (h : CalmStep s a s' a') : Calm s a s' a' := by
  cases h with
  | signal which cmd pg hc hs => exact doSignal s a which cmd pg
  | cont which pg hc => exact doContinue s a which pg
  | pause which pg hc => exact doPause s a which pg
  | want which hc =>
    refine (emitSv s a a (.control which .down) rfl).trans ?_
    exact setSv _ a which _ rfl (fun f _ hf => by simp [hf.symm]) (by simp)
  | note which cmd hc hm => exact emitSv s a a (.control which cmd) rfl
  | status => exact emitSv s a a .status rfl
  | mark a' h =>
    refine flag s ?_ (fun w => by rw [h.sv w]) (fun w f _ _ => by rw [h.sv w])
      (fun w hw => by rwa [h.sv w])
    exact ⟨h.key, h.fdDir, h.logpipe0, h.logpipe1, h.flags _ (by simp) (by simp),
      fun hc => by rwa [h.flags _ (by simp) (by simp)]⟩
  | wantcull => exact wantcull s a

end Calm

/-- The global flags across work on the services: only failures are added. -/
structure Flags (s s' : Sys) : Prop where
  hup : s'.flagHup = s.flagHup
  term : s'.flagTerm = s.flagTerm
  terminating : s'.flagTerminating = s.flagTerminating
  failing : s.flagFailing ≤ s'.flagFailing

namespace Flags
variable {s t u : Sys}

theorem refl (s : Sys) : Flags s s := ⟨rfl, rfl, rfl, le_refl _⟩

theorem trans (h : Flags s t) (h' : Flags t u) : Flags s u :=
  ⟨h'.hup.trans h.hup, h'.term.trans h.term, h'.terminating.trans h.terminating,
    h.failing.trans h'.failing⟩

theorem run (s : Sys) (sd : Svdef) (which : Which) (target : Target) :
    Flags s (perpdSvdefRun s sd which target).1 := by
  rcases run_cases s sd which target with ⟨h, _⟩ | ⟨_, _, ret, s', v, h, hf, _⟩ <;> rw [h]
  · exact refl s
  · refine ⟨hf.hup, hf.term, hf.terminating, ?_⟩
    rw [hf.failing]
    split <;> omega

theorem calm {a b : Svdef} (h : Calm s a t b) : Flags s t :=
  ⟨h.hup, h.term, h.terminating, h.failing.ge⟩

theorem checkfailOne (s : Sys) (sd : Svdef) (which : Which) :
    Flags s (checkfailOne s sd which).1 := by
  unfold PerpdSvdef.checkfailOne
  split
  · exact run _ _ _ _
  · exact refl s

theorem entryStep {sd sd' : Svdef} (hs : EntryStep s sd t sd') : Flags s t := by
  cases hs with
  | reap which wstat hp hw =>
    have h0 : Flags s ((s.waited (sd.sv which).pid).emitSv sd (.reap which wstat)) :=
      ⟨rfl, rfl, rfl, le_refl _⟩
    rcases reaped_cases (s.waited (sd.sv which).pid) sd which wstat with
      ⟨_, he⟩ | ⟨_, _, he⟩ | ⟨_, _, rfl, _, _, hl, he⟩ | ⟨_, _, _, he⟩ <;> rw [he]
    · exact h0.trans (run _ _ _ _)
    · exact h0.trans (run _ _ _ _)
    · exact h0.trans (calm (Calm.reapedShutdown _ _ (by simpa using hl)))
    · exact h0
  | checkfail =>
    have h0 : Flags s (s.emitSv sd .checkfail) := ⟨rfl, rfl, rfl, le_refl _⟩
    rcases checkfail_cases s sd with ⟨_, he⟩ | ⟨_, _, he⟩ | ⟨_, _, he⟩ <;> rw [he]
    · exact h0
    · exact h0.trans (checkfailOne _ _ _)
    · exact (h0.trans (checkfailOne _ _ _)).trans (checkfailOne _ _ _)
  | start which cmd hc hm =>
    have h0 : Flags s (s.emitSv sd (.control which cmd)) := ⟨rfl, rfl, rfl, le_refl _⟩
    rcases start_cases s sd which cmd with ⟨_, he⟩ | ⟨_, he⟩ <;> rw [he]
    · exact h0.trans (run _ _ _ _)
    · exact h0
  | calm s' sd' hs => exact calm (Calm.of_calmStep hs)

end Flags

theorem run_trace (s : Sys) (sd : Svdef) (which : Which) (target : Target) :
    ∃ evs, (perpdSvdefRun s sd which target).1.trace = s.trace ++ evs := by
  rcases run_cases s sd which target with ⟨h, _⟩ | ⟨_, _, ret, s', v, h, hf, _⟩ <;> rw [h]
  · exact ⟨[], by simp⟩
  · obtain ⟨now, towait, ht⟩ := hf.trace
    exact ⟨_, ht⟩

theorem checkfailOne_trace (s : Sys) (sd : Svdef) (which : Which) :
    ∃ evs, (checkfailOne s sd which).1.trace = s.trace ++ evs := by
  unfold checkfailOne
  split
  · exact run_trace _ _ _ _
  · exact ⟨[], by simp⟩

theorem reaped_trace (s : Sys) (sd : Svdef) (which : Which) (wstat : ℕ) :
    ∃ evs, (perpdReaped s sd which wstat).1.1.trace =
      s.trace ++ .sv sd (.reap which wstat) :: evs := by
  have hgrow {t : Sys} (h : ∃ evs, t.trace = (s.emitSv sd (.reap which wstat)).trace ++ evs) :
      ∃ evs, t.trace = s.trace ++ .sv sd (.reap which wstat) :: evs := by
    obtain ⟨evs, he⟩ := h
    exact ⟨evs, by simp [he, Sys.emitSv, Sys.emit]⟩
  rcases reaped_cases s sd which wstat with
    ⟨_, he⟩ | ⟨_, _, he⟩ | ⟨_, _, rfl, _, _, hl, he⟩ | ⟨_, _, _, he⟩ <;> rw [he]
  · exact hgrow (run_trace _ _ _ _)
  · exact hgrow (run_trace _ _ _ _)
  · obtain ⟨evs, ht, _⟩ := (Calm.reapedShutdown (s.emitSv sd (.reap .main wstat))
      (sd.setSv .main (reapedSv sd.svMain wstat)) (by simpa using hl)).grows
    exact hgrow ⟨evs, ht⟩
  · exact hgrow ⟨[], by simp⟩

theorem Kept.entryStep {s s' : Sys} {sd sd' : Svdef} (hs : EntryStep s sd s' sd') : Kept sd sd' := by
  cases hs with
  | reap which wstat hp hw => exact .reaped _ _ _ _
  | checkfail => exact .checkfail _ _
  | start which cmd hc hm => exact .start _ _ _ _
  | calm s' sd' hs => exact (Calm.of_calmStep hs).kept

end Perp.PerpdEffect
