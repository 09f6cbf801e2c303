import Perp.PerpdService

set_option autoImplicit false

/-!
# The life of a subservice

Of all that perpd does, one subservice of a service has a history: the events
that are about it. Each step of the service adds one of a few pieces to it.
-/
namespace Perp.PerpdLife
open PerpdState PerpdSvdef PerpdConn PerpdMainloop PerpdFrame PerpdEntry PerpdEffect PerpdSlots
  PerpdActivate PerpdMoves PerpdPhases PerpdRuns PerpdService TraceLaw

/-- Is the event about the subservice? -/
def mine (k : Key) (w : Which) : Event → Bool
  | .sv x (.fork w' _ _ _ _ _ _) | .sv x (.reap w' _) | .sv x (.control w' _) =>
    decide (x.key = k ∧ w' = w)
  | .sv x (.activate _) | .sv x .checkfail | .sv x .wantcull | .sv x .cull => decide (x.key = k)
  | _ => false

def history (k : Key) (w : Which) (t : List Event) : List Event := t.filter (mine k w)

/-- The subservice is one of the entry's. -/
def Present (sd : Svdef) (w : Which) : Prop := w = .log → sd.has .haslog = true

instance (sd : Svdef) (w : Which) : Decidable (Present sd w) :=
  inferInstanceAs (Decidable (w = .log → sd.has .haslog = true))

/-- A `fork()` for the subservice whose record is `u`, as the trace shows it. -/
def ForkEvent (sig : ℕ → Option (List Char)) (sd : Svdef) (w : Which) (u : Subsv)
    (target : Target) (ret : Option ℕ) (e : Event) : Prop :=
  (∀ pid, ret = some pid → 0 < pid) ∧ ∃ x now towait io,
    e = .sv x (.fork w target (runProg sig x.name w target 0) now towait io ret) ∧
      x.key = sd.key ∧ x.sv w = aim u target ∧ ∀ f, x.has f = sd.has f

/-- What a step on the entry `sd` adds to the history of one of its
subservices, and the record it leaves. -/
inductive SubStep (sig : ℕ → Option (List Char)) (sd : Svdef) (w : Which) :
    List Event → Subsv → Prop where
  | idle (v : Subsv) (hp : v.pid = (sd.sv w).pid)
      (hf : ∀ f, f ≠ .ispaused → v.has f = (sd.sv w).has f) : SubStep sig sd w [] v
  | signalled (cmd : Cmd) (v : Subsv) (hc : cmd ≠ .down ∧ cmd ≠ .once ∧ cmd ≠ .up)
      (hp : v.pid = (sd.sv w).pid) (hf : ∀ f, f ≠ .ispaused → v.has f = (sd.sv w).has f) :
      SubStep sig sd w [.sv sd (.control w cmd)] v
  | downed : SubStep sig sd w [.sv sd (.control w .down)] ((sd.sv w).put .wantdown)
  | flagged (cmd : Cmd) (hc : cmd = .once ∨ cmd = .up)
      (hp : 0 < (sd.sv w).pid ∨ ¬ Present sd w) :
      SubStep sig sd w [.sv sd (.control w cmd)] ((startFlags sd w cmd).sv w)
  | commanded (cmd : Cmd) (ret : Option ℕ) (e : Event) (v : Subsv) (hcull : sd.has .cull = false)
      (hc : cmd = .once ∨ cmd = .up) (hx : Present sd w) (hp : (sd.sv w).pid = 0)
      (he : ForkEvent sig sd w ((startFlags sd w cmd).sv w) .start ret e)
      (hv : Armed ((startFlags sd w cmd).sv w) .start ret v) :
      SubStep sig sd w [.sv sd (.control w cmd), e] v
  | wantculled (v : Subsv) (hp : v.pid = (sd.sv w).pid)
      (hf : ∀ f, f ≠ .ispaused → f ≠ .wantdown → v.has f = (sd.sv w).has f)
      (hw : (sd.sv w).has .wantdown = true ∨ Present sd w → v.has .wantdown = true) :
      SubStep sig sd w [.sv sd .wantcull] v
  | checked : SubStep sig sd w [.sv sd .checkfail] (sd.sv w)
  | retried (target : Target) (ret : Option ℕ) (e : Event) (v : Subsv)
      (ha : sd.has .active = true) (hx : Present sd w) (hf : (sd.sv w).has .failing = true)
      (hp : (sd.sv w).pid = 0) (ht : (sd.sv w).has .isreset = decide (target = .reset))
      (he : ForkEvent sig sd w (sd.sv w) target ret e) (hv : Armed (sd.sv w) target ret v) :
      SubStep sig sd w [.sv sd .checkfail, e] v
  | reset (wstat : ℕ) (ret : Option ℕ) (e : Event) (v : Subsv) (hx : Present sd w)
      (hp : 0 < (sd.sv w).pid) (hw : wIfexited wstat ∨ wIfsignaled wstat) (hr : (sd.sv w).has .isreset = false)
      (he : ForkEvent sig sd w (reapedSv (sd.sv w) wstat) .reset ret e)
      (hv : Armed (reapedSv (sd.sv w) wstat) .reset ret v) :
      SubStep sig sd w [.sv sd (.reap w wstat), e] v
  | restarted (wstat : ℕ) (ret : Option ℕ) (e : Event) (v : Subsv) (hx : Present sd w)
      (hp : 0 < (sd.sv w).pid) (hr : (sd.sv w).has .isreset = true)
      (hd : (reapedSv (sd.sv w) wstat).has .wantdown = false)
      (he : ForkEvent sig sd w (reapedSv (sd.sv w) wstat) .start ret e)
      (hv : Armed (reapedSv (sd.sv w) wstat) .start ret v) :
      SubStep sig sd w [.sv sd (.reap w wstat), e] v
  | finished (wstat : ℕ) (hx : Present sd w) (hp : 0 < (sd.sv w).pid)
      (hr : (sd.sv w).has .isreset = true)
      (hd : (reapedSv (sd.sv w) wstat).has .wantdown = true) :
      SubStep sig sd w [.sv sd (.reap w wstat)] (reapedSv (sd.sv w) wstat)

/-- What the first start of a blank entry adds. -/
inductive FirstStep (sig : ℕ → Option (List Char)) (sd : Svdef) (w : Which) :
    List Event → Subsv → Prop where
  | down (v : Subsv) (hp : v.pid = 0) (hr : v.has .isreset = false) (hf : v.has .failing = false) :
      FirstStep sig sd w [] v
  | start (u : Subsv) (ret : Option ℕ) (e : Event) (v : Subsv) (hx : Present sd w)
      (hu : ∀ f, f ≠ .islog → f ≠ .isonce → u.has f = false)
      (he : ForkEvent sig sd w u .start ret e) (hv : Armed u .start ret v) :
      FirstStep sig sd w [e] v

/-- A step in the life of the subservice: its history and the entry of its service. -/
inductive LifeStep (sig : ℕ → Option (List Char)) (k : Key) (w : Which) :
    List Event → Option Svdef → List Event → Option Svdef → Prop where
  | stay (h : List Event) (e : Option Svdef) : LifeStep sig k w h e h e
  | entry {h evs : List Event} {sd sd' : Svdef} (hk : sd.key = k)
      (hcull : sd.has .cull = true → Present sd w → (sd.sv w).has .wantdown = true)
      (hnolog : ¬ Present sd w → (sd.sv w).pid = 0 ∧ (sd.sv w).has .failing = false)
      (hfail : (sd.sv w).has .failing = true → (sd.sv w).pid = 0)
      (hs : SubStep sig sd w evs (sd'.sv w)) (hkept : Kept sd sd')
      (hset : sd.has .cull = false → sd'.has .cull = true → evs = [.sv sd .wantcull]) :
      LifeStep sig k w h (some sd) (h ++ evs) (some sd')
  | activate {h evs : List Event} {sd sd' : Svdef} (n : ℕ) (hb : Blank sd k)
      (hs : FirstStep sig sd w evs (sd'.sv w)) (hkept : Kept sd sd')
      (hc : sd'.has .cull = false) :
      LifeStep sig k w h none (h ++ .sv sd (.activate n) :: evs) (some sd')
  | cull {h : List Event} {sd : Svdef} (hk : sd.key = k) (hc : perpdSvdefCullok sd = true) :
      LifeStep sig k w h (some sd) (h ++ [.sv sd .cull]) none

section History
variable {k : Key} {w : Which}

@[simp] theorem history_append (t u : List Event) :
    history k w (t ++ u) = history k w t ++ history k w u :=
  List.filter_append ..

@[simp] theorem history_nil : history k w [] = [] := rfl

theorem history_cons (e : Event) (t : List Event) :
    history k w (e :: t) = if mine k w e then e :: history k w t else history k w t := by
  simp [history, List.filter_cons]

theorem mine_key {e : Event} (h : mine k w e = true) : e.key = some k := by
  unfold mine at h
  split at h <;> simp_all [Event.key]

theorem history_other (evs : List Event) (h : ∀ e ∈ evs, mine k w e = false) :
    history k w evs = [] := by
  simpa [history] using h

theorem frame_history {s s' : Sys} (h : Frame k s s') :
    history k w s'.trace = history k w s.trace := by
  obtain ⟨evs, he, hk, _⟩ := h.grows
  rw [he, history_append, history_other evs, List.append_nil]
  intro e hm
  cases hb : mine k w e with
  | false => rfl
  | true => exact absurd (mine_key hb) (hk e hm)

theorem emitSv_history (s : Sys) (sd : Svdef) (e : SvEvent) :
    history k w (s.emitSv sd e).trace =
      history k w s.trace ++ if mine k w (.sv sd e) then [.sv sd e] else [] := by
  simp [Sys.emitSv, Sys.emit, history_cons]

@[simp] theorem kill_history (s : Sys) (sd : Svdef) (which : Which) (target : ℤ) (sig : Signal) :
    history k w (kill s sd which target sig).trace = history k w s.trace := by
  simp [kill, emitSv_history, mine]

@[simp] theorem close_history (s : Sys) (fd : ℕ) :
    history k w (s.close fd).trace = history k w s.trace := by
  simp [Sys.close, Sys.emit, history_cons, mine]

@[simp] theorem closeLogpipe_history (s : Sys) (sd : Svdef) :
    history k w (closeLogpipe s sd).trace = history k w s.trace := by
  simp [closeLogpipe, emitSv_history, mine]

@[simp] theorem doKill_history (s : Sys) (sd : Svdef) (which : Which) (sig : Signal) (pg : Bool) :
    history k w (doKill s sd which sig pg).trace = history k w s.trace := by
  unfold doKill
  dsimp only
  split
  · rfl
  split
  · rfl
  split
  · simp
  split <;> simp

end History

section Steps
variable {k : Key} {w : Which} {s s' : Sys} {sd sd' : Svdef}

theorem run_sub (s : Sys) (sd : Svdef) (which : Which) (target : Target) :
    (perpdSvdefRun s sd which target = (s, sd) ∧ (¬ Present sd which ∨ 0 < (sd.sv which).pid)) ∨
    (Present sd which ∧ (sd.sv which).pid = 0 ∧ ∃ ret e v,
      ForkEvent s.sysstrSignal sd which (sd.sv which) target ret e ∧
        Armed (sd.sv which) target ret v ∧
        (perpdSvdefRun s sd which target).2 = sd.setSv which v ∧
        (perpdSvdefRun s sd which target).1.trace = s.trace ++ [e] ∧
        (perpdSvdefRun s sd which target).1.sysstrSignal = s.sysstrSignal) := by
  rcases run_cases s sd which target with ⟨h, hn⟩ | ⟨hlog, hpid, ret, s', v, h, hf, hv⟩
  · refine Or.inl ⟨h, hn.imp_left fun ⟨hw, hl⟩ hx => ?_⟩
    simp [hx hw] at hl
  · obtain ⟨now, towait, ht⟩ := hf.trace
    rw [h]
    refine Or.inr ⟨fun hw => ?_, hpid, ret, _, v, ?_, hv, rfl, ht, hf.signals⟩
    · simpa using fun hl => hlog ⟨hw, hl⟩
    · exact ⟨fun pid hp => (hf.fresh pid hp).1, _, now, towait, _, rfl, by simp, by simp, by simp⟩

theorem fork_mine {sig : ℕ → Option (List Char)} {u : Subsv} {which : Which} {target : Target}
    {ret : Option ℕ} {e : Event} (he : ForkEvent sig sd which u target ret e) (hk : sd.key = k) :
    mine k w e = decide (which = w) := by
  obtain ⟨_, x, now, towait, io, rfl, hx, _⟩ := he
  simp [mine, hx, hk]

theorem run_history_other (s : Sys) (sd : Svdef) (which : Which) (target : Target)
    (hk : sd.key = k) (hw : which ≠ w) :
    history k w (perpdSvdefRun s sd which target).1.trace = history k w s.trace := by
  rcases run_sub s sd which target with ⟨h, _⟩ | ⟨_, _, ret, e, v, he, _, _, ht, _⟩
  · rw [h]
  · simp [ht, history_cons, fork_mine he hk, hw]

/-- A command that is a signal changes nothing of what is wanted. -/
theorem signal_plain {cmd : Cmd} {sig : Signal} (h : Cmd.signal cmd = some sig) :
    cmd ≠ .down ∧ cmd ≠ .once ∧ cmd ≠ .up := by
  refine ⟨?_, ?_, ?_⟩ <;>
    · rintro rfl
      cases h

theorem calm_sub (hk : sd.key = k) (hs : CalmStep s sd s' sd') :
    ∃ evs, history k w s'.trace = history k w s.trace ++ evs ∧
      SubStep s.sysstrSignal sd w evs (sd'.sv w) ∧
      (sd.has .cull = false → sd'.has .cull = true → evs = [.sv sd .wantcull]) := by
  have hc := Calm.of_calmStep hs
  -- a command to the subservice itself, or to the other one
  have hone (which : Which) (cmd : Cmd) (t : Sys)
      (ht : history k w t.trace = history k w (s.emitSv sd (.control which cmd)).trace)
      (v : Svdef) (hcull : v.has .cull = sd.has .cull)
      (hmine : which = w → SubStep s.sysstrSignal sd w [.sv sd (.control w cmd)] (v.sv w))
      (hother : which ≠ w → SubStep s.sysstrSignal sd w [] (v.sv w)) :
      ∃ evs, history k w t.trace = history k w s.trace ++ evs ∧
        SubStep s.sysstrSignal sd w evs (v.sv w) ∧
        (sd.has .cull = false → v.has .cull = true → evs = [.sv sd .wantcull]) := by
    rw [ht, emitSv_history]
    by_cases hw : which = w
    · subst hw
      exact ⟨_, by simp [mine, hk], hmine rfl, fun h1 h2 => by simp [hcull, h1] at h2⟩
    · exact ⟨[], by simp [mine, hw], hother hw, fun h1 h2 => by simp [hcull, h1] at h2⟩
  cases hs with
  | signal which cmd pg hnc hsig =>
    obtain ⟨sig, hsig⟩ := Option.isSome_iff_exists.mp hsig
    simp only [doSignal, hsig] at hc ⊢
    refine hone which cmd _ (by simp) sd rfl (fun _ => .signalled cmd _ ?_ rfl fun _ _ => rfl)
      (fun _ => .idle _ rfl fun _ _ => rfl)
    exact signal_plain hsig
  | cont which pg hnc =>
    refine hone which .continue _ (by simp [doContinue]) _ (by simp [doContinue]) ?_ ?_
    · rintro rfl
      refine .signalled _ _ (by simp) (by simp [doContinue]) fun f hf => ?_
      simp [doContinue, hf.symm]
    · intro hw
      exact .idle _ (by simp [doContinue, Svdef.setSv_sv, hw]) fun f _ => by
        simp [doContinue, Svdef.setSv_sv, hw]
  | pause which pg hnc =>
    unfold doPause
    dsimp only
    split
    · refine hone which .pause _ (by simp) _ (by simp) ?_ ?_
      · rintro rfl
        exact .signalled _ _ (by simp) (by simp) fun f hf => by simp [hf.symm]
      · intro hw
        exact .idle _ (by simp [Svdef.setSv_sv, hw]) fun f _ => by simp [Svdef.setSv_sv, hw]
    · exact hone which .pause _ rfl sd rfl (fun _ => .signalled _ _ (by simp) rfl fun _ _ => rfl)
        (fun _ => .idle _ rfl fun _ _ => rfl)
  | want which hnc =>
    refine hone which .down _ rfl _ (by simp) ?_ ?_
    · rintro rfl
      simpa using SubStep.downed
    · intro hw
      exact .idle _ (by simp [Svdef.setSv_sv, hw]) fun f _ => by simp [Svdef.setSv_sv, hw]
  | note which cmd hnc hm =>
    refine hone which cmd _ rfl sd rfl (fun _ => .signalled _ _ ?_ rfl fun _ _ => rfl)
      (fun _ => .idle _ rfl fun _ _ => rfl)
    rcases hm with rfl | rfl <;> simp
  | status =>
    exact ⟨[], by simp [emitSv_history, mine], .idle _ rfl fun _ _ => rfl,
      fun h1 h2 => by simp [h1] at h2⟩
  | mark sd' hm =>
    refine ⟨[], by simp, .idle _ (by rw [hm.sv]) fun f _ => by rw [hm.sv], fun h1 h2 => ?_⟩
    rw [hm.flags _ (by simp) (by simp), h1] at h2
    simp at h2
  | wantcull =>
    refine ⟨[.sv sd .wantcull], ?_, .wantculled _ (hc.pid w) (hc.flags w)
      (fun hw => hw.elim (hc.wantdown w) (wantcull_wantdown s sd w)), fun _ _ => rfl⟩
    have h0 : history k w (s.emitSv sd .wantcull).trace =
        history k w s.trace ++ [.sv sd .wantcull] := by simp [emitSv_history, mine, hk]
    rcases wantcull_cases s sd with ⟨_, he⟩ | ⟨_, _, _, he⟩ | ⟨_, _, he⟩ <;> rw [he]
    · dsimp only
      split <;> simp [h0]
    · dsimp only
      split <;> simp [h0]
    · exact h0

theorem ForkEvent.congr {sig : ℕ → Option (List Char)} {u : Subsv} {target : Target}
    {ret : Option ℕ} {e : Event} {x y : Svdef} (h : ForkEvent sig x w u target ret e)
    (hk : x.key = y.key) (hf : ∀ f, x.has f = y.has f) : ForkEvent sig y w u target ret e := by
  obtain ⟨hp, z, now, towait, io, he, hz, hs, hzf⟩ := h
  exact ⟨hp, z, now, towait, io, he, hz.trans hk, hs, fun f => (hzf f).trans (hf f)⟩

theorem setSv_other (sd : Svdef) {which : Which} (v : Subsv) (hw : which ≠ w) :
    (sd.setSv which v).sv w = sd.sv w := by
  simp [Svdef.setSv_sv, hw]

theorem reaped_other (hk : sd.key = k) (which : Which) (wstat : ℕ) (hw : which ≠ w) :
    let r := (perpdReaped s sd which wstat).1
    history k w r.1.trace = history k w s.trace ∧ SubStep s.sysstrSignal sd w [] (r.2.sv w) := by
  have h0 : history k w (s.emitSv sd (.reap which wstat)).trace = history k w s.trace := by
    simp [emitSv_history, mine, hw]
  rcases reaped_cases s sd which wstat with ⟨_, h⟩ | ⟨_, _, h⟩ | ⟨_, _, rfl, _, _, _, h⟩ | ⟨_, _, _, h⟩
  · rw [h]
    refine ⟨(run_history_other _ _ _ _ (by simpa using hk) hw).trans h0, ?_⟩
    rw [run_other _ _ _ _ _ hw, setSv_other _ _ hw]
    exact .idle _ rfl fun _ _ => rfl
  · rw [h]
    refine ⟨(run_history_other _ _ _ _ (by simpa using hk) hw).trans h0, ?_⟩
    rw [run_other _ _ _ _ _ hw, setSv_other _ _ hw]
    exact .idle _ rfl fun _ _ => rfl
  · obtain rfl : w = .log := by cases w <;> simp_all
    rw [h]
    unfold reapedShutdown
    dsimp only
    refine ⟨?_, .idle _ (by simp) fun f hf => by simp [hf.symm]⟩
    rw [kill_history]
    split <;> simp [h0]
  · rw [h]
    refine ⟨h0, ?_⟩
    rw [setSv_other _ _ hw]
    exact .idle _ rfl fun _ _ => rfl

theorem reaped_self (hk : sd.key = k) (wstat : ℕ) (hp : 0 < (sd.sv w).pid) (hx : Present sd w)
    (hw : wIfexited wstat ∨ wIfsignaled wstat) :
    let r := (perpdReaped s sd w wstat).1
    ∃ evs, history k w r.1.trace = history k w s.trace ++ evs ∧
      SubStep s.sysstrSignal sd w evs (r.2.sv w) := by
  have h0 : history k w (s.emitSv sd (.reap w wstat)).trace =
      history k w s.trace ++ [.sv sd (.reap w wstat)] := by
    simp [emitSv_history, mine, hk]
  -- the record of the death, and the attempt to run that follows it
  have hrun (target : Target) : ∃ ret e v,
      ForkEvent s.sysstrSignal sd w (reapedSv (sd.sv w) wstat) target ret e ∧
        Armed (reapedSv (sd.sv w) wstat) target ret v ∧
        (perpdSvdefRun (s.emitSv sd (.reap w wstat)) (sd.setSv w (reapedSv (sd.sv w) wstat))
          w target).2.sv w = v ∧
        history k w (perpdSvdefRun (s.emitSv sd (.reap w wstat))
          (sd.setSv w (reapedSv (sd.sv w) wstat)) w target).1.trace =
            history k w s.trace ++ [.sv sd (.reap w wstat), e] := by
    rcases run_sub (s.emitSv sd (.reap w wstat)) (sd.setSv w (reapedSv (sd.sv w) wstat)) w target with
      ⟨_, hn⟩ | ⟨_, _, ret, e, v, he, hv, h2, ht, _⟩
    · exact absurd hn (by simp only [Svdef.setSv_self, reapedSv_pid]; simpa [Present] using hx)
    · rw [Svdef.setSv_self] at he hv
      have he' := he.congr (Svdef.setSv_key _ _ _) (Svdef.setSv_has sd w _)
      refine ⟨ret, e, v, he', hv, by simp [h2], ?_⟩
      rw [ht, history_append, h0, history_cons, fork_mine he' hk]
      simp
  rcases reaped_cases s sd w wstat with
    ⟨hr, h⟩ | ⟨hr, hd, h⟩ | ⟨hr, hd, rfl, _, _, _, h⟩ | ⟨hr, hd, _, h⟩ <;> rw [h]
  · obtain ⟨ret, e, v, he, hv, h2, ht⟩ := hrun .reset
    exact ⟨_, ht, h2 ▸ .reset wstat ret e v hx hp hw hr he hv⟩
  · obtain ⟨ret, e, v, he, hv, h2, ht⟩ := hrun .start
    exact ⟨_, ht, h2 ▸ .restarted wstat ret e v hx hp hr hd he hv⟩
  · refine ⟨[.sv sd (.reap .main wstat)], ?_, ?_⟩
    · unfold reapedShutdown
      dsimp only
      rw [kill_history]
      split <;> simp [h0]
    · have hv : (reapedShutdown (s.emitSv sd (.reap .main wstat))
          (sd.setSv .main (reapedSv (sd.sv .main) wstat))).2.sv .main =
          reapedSv (sd.sv .main) wstat := by simp [reapedShutdown]
      exact hv ▸ .finished wstat hx hp hr hd
  · refine ⟨[.sv sd (.reap w wstat)], h0, ?_⟩
    rw [Svdef.setSv_self]
    exact .finished wstat hx hp hr hd

theorem checkfailOne_self (hk : sd.key = k) (hx : Present sd w)
    (hfail : (sd.sv w).has .failing = true → (sd.sv w).pid = 0) :
    let r := checkfailOne s sd w
    ((sd.sv w).has .failing = false ∧ r = (s, sd)) ∨
    ∃ target ret e v, (sd.sv w).has .failing = true ∧
      (sd.sv w).has .isreset = decide (target = .reset) ∧
      ForkEvent s.sysstrSignal sd w (sd.sv w) target ret e ∧ Armed (sd.sv w) target ret v ∧
      r.2.sv w = v ∧ history k w r.1.trace = history k w s.trace ++ [e] ∧
      r.1.sysstrSignal = s.sysstrSignal := by
  intro r
  unfold r checkfailOne
  split
  · next hf =>
    refine Or.inr ?_
    have ht : (sd.sv w).has .isreset =
        decide ((if (sd.sv w).has .isreset = true then Target.reset else .start) = .reset) := by
      cases (sd.sv w).has .isreset <;> simp
    rcases run_sub s sd w (if (sd.sv w).has .isreset = true then .reset else .start) with
      ⟨_, hn⟩ | ⟨_, _, ret, e, v, he, hv, h2, htr, hsig⟩
    · exact absurd hn (by simp [hx, hfail hf])
    · refine ⟨_, ret, e, v, hf, ht, he, hv, by simp [h2], ?_, hsig⟩
      rw [htr, history_append, history_cons, fork_mine he hk]
      simp
  · next hf => exact Or.inl ⟨by simpa using hf, rfl⟩

theorem checkfailOne_other (hk : sd.key = k) (which : Which) (hw : which ≠ w) :
    let r := checkfailOne s sd which
    history k w r.1.trace = history k w s.trace ∧ r.2.sv w = sd.sv w ∧
      r.1.sysstrSignal = s.sysstrSignal := by
  intro r
  unfold r checkfailOne
  split
  · refine ⟨run_history_other _ _ _ _ hk hw, run_other _ _ _ _ _ hw, ?_⟩
    rcases run_sub s sd which (if (sd.sv which).has .isreset = true then .reset else .start) with
      ⟨h, _⟩ | ⟨_, _, _, _, _, _, _, _, _, hsig⟩
    · rw [h]
    · exact hsig
  · exact ⟨rfl, rfl, rfl⟩

theorem checkfail_sub (hk : sd.key = k) (hok : SvOk s sd) :
    let r := perpdSvdefCheckfail s sd
    ∃ evs, history k w r.1.trace = history k w s.trace ++ evs ∧
      SubStep s.sysstrSignal sd w evs (r.2.sv w) := by
  intro r
  have h0 : history k w (s.emitSv sd .checkfail).trace =
      history k w s.trace ++ [.sv sd .checkfail] := by
    simp [emitSv_history, mine, hk]
  -- the step on `w` itself, before or after one on the other subservice
  have hself (t : Sys) (x : Svdef) (hxk : x.key = sd.key) (hxf : ∀ f, x.has f = sd.has f)
      (hxs : x.sv w = sd.sv w) (ht : history k w t.trace = history k w s.trace ++ [.sv sd .checkfail])
      (hsig : t.sysstrSignal = s.sysstrSignal) (ha : sd.has .active = true) (hx : Present sd w) :
      ∃ evs, history k w (checkfailOne t x w).1.trace = history k w s.trace ++ evs ∧
        SubStep s.sysstrSignal sd w evs ((checkfailOne t x w).2.sv w) := by
    rcases checkfailOne_self (s := t) (hxk.trans hk) (w := w) (fun hw => (hxf _).trans (hx hw))
        (by rw [hxs]; exact hok.failing w) with ⟨_, h⟩ | ⟨target, ret, e, v, hf, hr, he, hv, h2, htr, _⟩
    · rw [h, hxs]
      exact ⟨_, ht, .checked⟩
    · rw [hxs] at hf hr he hv
      rw [hsig] at he
      refine ⟨[.sv sd .checkfail, e], by rw [htr, ht]; simp, h2 ▸ ?_⟩
      exact .retried target ret e v ha hx hf (hok.failing w hf) hr (he.congr hxk hxf) hv
  rcases checkfail_cases s sd with ⟨_, h⟩ | ⟨ha, hl, h⟩ | ⟨ha, hl, h⟩ <;> simp only [r, h]
  · exact ⟨_, h0, .checked⟩
  · cases w with
    | main => exact hself _ _ rfl (fun _ => rfl) rfl h0 rfl ha (by simp [Present])
    | log =>
      obtain ⟨h1, h2, _⟩ := checkfailOne_other (w := .log) (s := s.emitSv sd .checkfail) hk .main (by simp)
      exact ⟨_, h1.trans h0, by rw [h2]; exact .checked⟩
  · have hlog : (checkfailOne (s.emitSv sd .checkfail) sd .log).2.key = sd.key :=
      (Kept.checkfailOne _ _ _).key
    cases w with
    | main =>
      obtain ⟨h1, h2, h3⟩ := checkfailOne_other (w := .main) (s := s.emitSv sd .checkfail) hk .log (by simp)
      exact hself _ _ hlog (fun f => by simp) h2 (h1.trans h0) h3 ha (by simp [Present])
    | log =>
      obtain ⟨evs, h1, h2⟩ := hself _ _ rfl (fun _ => rfl) rfl h0 rfl ha (by simp [Present, hl])
      obtain ⟨h3, h4, _⟩ := checkfailOne_other (w := .log)
        (s := (checkfailOne (s.emitSv sd .checkfail) sd .log).1) (hlog.trans hk) .main (by simp)
      exact ⟨evs, h3.trans h1, h4 ▸ h2⟩

theorem start_sub (hk : sd.key = k) (hc : sd.has .cull = false) (which : Which) (cmd : Cmd)
    (hm : cmd = .once ∨ cmd = .up) :
    let r := doStart s sd which cmd
    ∃ evs, history k w r.1.trace = history k w s.trace ++ evs ∧
      SubStep s.sysstrSignal sd w evs (r.2.sv w) := by
  intro r
  by_cases hw : which = w
  · subst hw
    have h0 : history k which (s.emitSv sd (.control which cmd)).trace =
        history k which s.trace ++ [.sv sd (.control which cmd)] := by
      simp [emitSv_history, mine, hk]
    rcases start_cases s sd which cmd with ⟨hp, h⟩ | ⟨hp, h⟩ <;> simp only [r, h]
    · rcases run_sub (s.emitSv sd (.control which cmd)) (startFlags sd which cmd) which .start with
        ⟨h1, hn⟩ | ⟨hx, _, ret, e, v, he, hv, h2, htr, _⟩
      · rw [h1]
        refine ⟨_, h0, .flagged cmd hm (Or.inr ?_)⟩
        rw [startFlags_sv_pid, hp] at hn
        simpa [Present] using hn
      · have he' := he.congr (startFlags_key sd which cmd) (startFlags_has sd which cmd)
        refine ⟨[.sv sd (.control which cmd), e], ?_, ?_⟩
        · rw [htr, history_append, h0, history_cons, fork_mine he' hk]
          simp
        · rw [h2, Svdef.setSv_self]
          exact .commanded cmd ret e v hc hm (by simpa [Present] using hx) hp he' hv
    · exact ⟨_, h0, .flagged cmd hm (Or.inl hp)⟩
  · have h0 : history k w (s.emitSv sd (.control which cmd)).trace = history k w s.trace := by
      simp [emitSv_history, mine, hw]
    have hsv := startFlags_other sd which cmd w hw
    refine ⟨[], ?_⟩
    rcases start_cases s sd which cmd with ⟨_, h⟩ | ⟨_, h⟩ <;> simp only [r, h, List.append_nil]
    · refine ⟨(run_history_other _ _ _ _ (by simpa using hk) hw).trans h0, ?_⟩
      rw [run_other _ _ _ _ _ hw, hsv]
      exact .idle _ rfl fun _ _ => rfl
    · refine ⟨h0, ?_⟩
      rw [hsv]
      exact .idle _ rfl fun _ _ => rfl

/-- Every step on an entry is a step in the life of each of its subservices. -/
theorem entry_sub (hk : sd.key = k) (hok : SvOk s sd) (hs : EntryStep s sd s' sd') :
    ∃ evs, history k w s'.trace = history k w s.trace ++ evs ∧
      SubStep s.sysstrSignal sd w evs (sd'.sv w) ∧
      (sd.has .cull = false → sd'.has .cull = true → evs = [.sv sd .wantcull]) := by
  cases hs with
  | reap which wstat hp hw =>
    have hcull : (perpdReaped (s.waited (sd.sv which).pid) sd which wstat).1.2.has .cull =
        sd.has .cull := reaped_has _ _ _ _ _
    by_cases hww : which = w
    · subst hww
      have hx : Present sd which := by
        rintro rfl
        by_contra hn
        have := (hok.nolog (by simpa using hn)).1
        simp only [Svdef.sv_log] at hp
        omega
      obtain ⟨evs, h1, h2⟩ := reaped_self (s := s.waited (sd.sv which).pid) hk wstat hp hx hw
      exact ⟨evs, h1, h2, fun h3 h4 => by simp [h3] at h4⟩
    · obtain ⟨h1, h2⟩ := reaped_other (s := s.waited (sd.sv which).pid) hk which wstat hww
      exact ⟨[], h1.trans (List.append_nil _).symm, h2, fun h3 h4 => by simp [h3] at h4⟩
  | checkfail =>
    obtain ⟨evs, h1, h2⟩ := checkfail_sub (w := w) hk hok
    exact ⟨evs, h1, h2, fun h3 h4 => by simp [h3] at h4⟩
  | start which cmd hc hm =>
    obtain ⟨evs, h1, h2⟩ := start_sub (s := s) (w := w) hk hc which cmd hm
    exact ⟨evs, h1, h2, fun h3 h4 => by simp [doStart_cull, h3] at h4⟩
  | calm s' sd' hs => exact calm_sub hk hs

theorem startLog_sub (hb : Blank sd k) :
    let r := startLog s sd
    r.1.sysstrSignal = s.sysstrSignal ∧ r.2.svMain = .clear ∧
      history k .main r.1.trace = history k .main s.trace ∧
      ∃ evs, history k .log r.1.trace = history k .log s.trace ++ evs ∧
        FirstStep s.sysstrSignal sd .log evs r.2.svLog := by
  intro r
  have hm : sd.svMain = .clear := hb.sv .main
  have hl : sd.svLog = .clear := hb.sv .log
  unfold r startLog
  split
  · next hx =>
    have hxl : Present sd .log := fun _ => hx
    rcases run_sub s (sd.setSv .log (sd.svLog.put .islog)) .log .start with
      ⟨_, hn⟩ | ⟨_, _, ret, e, v, he, hv, h2, ht, hsig⟩
    · exact absurd hn (by simp [Present, hx, hl])
    · have he' := he.congr (Svdef.setSv_key _ _ _) (Svdef.setSv_has sd .log _)
      refine ⟨hsig, by simp [h2, hm], ?_, [e], ?_, ?_⟩
      · exact run_history_other _ _ _ _ (by simpa using hb.key) (by simp)
      · rw [ht, history_append, history_cons, fork_mine he' hb.key]
        simp
      · rw [h2]
        refine .start _ ret e v hxl (fun f hf _ => ?_) he' hv
        simp [hl, hf.symm]
  · exact ⟨rfl, hm, rfl, [], by simp, .down _ (by simp [hl]) (by simp [hl]) (by simp [hl])⟩

theorem startMain_sub (hk : sd.key = k) (hm : sd.svMain = .clear) :
    let r := startMain s sd
    r.2.svLog = sd.svLog ∧ history k .log r.1.trace = history k .log s.trace ∧
      ∃ evs, history k .main r.1.trace = history k .main s.trace ++ evs ∧
        FirstStep s.sysstrSignal sd .main evs r.2.svMain := by
  intro r
  unfold r startMain
  split
  · generalize hx : (if sd.has .once = true then sd.setSv .main (sd.svMain.put .isonce) else sd) = x
    have hxk : x.key = sd.key := by rw [← hx]; split <;> simp
    have hxf (f : SvdefFlag) : x.has f = sd.has f := by rw [← hx]; split <;> simp
    have hxl : x.svLog = sd.svLog := by rw [← hx]; split <;> simp
    have hxp : (x.sv .main).pid = 0 := by rw [← hx]; split <;> simp [hm]
    have hxu (f : SubsvFlag) (hf : f ≠ .isonce) : (x.sv .main).has f = false := by
      rw [← hx]
      split <;> simp [hm, hf.symm]
    rcases run_sub s x .main .start with ⟨_, hn⟩ | ⟨_, _, ret, e, v, he, hv, h2, ht, _⟩
    · exact absurd hn (by simp only [hxp]; simp [Present])
    · have he' := he.congr hxk hxf
      refine ⟨by simp [h2, hxl], ?_, [e], ?_, ?_⟩
      · exact run_history_other _ _ _ _ (hxk.trans hk) (by simp)
      · rw [ht, history_append, history_cons, fork_mine he' hk]
        simp
      · rw [h2]
        exact .start _ ret e v (by simp [Present]) (fun f _ hf => hxu f hf) he' hv
  · exact ⟨rfl, rfl, [], by simp, .down _ (by simp [hm]) (by simp [hm]) (by simp [hm])⟩

theorem firstStart_sub (hb : Blank sd k) (w : Which) :
    let r := firstStart s sd
    ∃ evs, history k w r.1.trace = history k w s.trace ++ evs ∧
      FirstStep s.sysstrSignal sd w evs (r.2.sv w) := by
  intro r
  obtain ⟨hsig, hm, h1, evs, h2, h3⟩ := startLog_sub (s := s) hb
  have hkept := startLog_kept s sd
  obtain ⟨h4, h5, evs', h6, h7⟩ :=
    startMain_sub (s := (startLog s sd).1) (hkept.key.trans hb.key) hm
  simp only [r, firstStart_eq]
  cases w with
  | log => exact ⟨evs, h5.trans h2, by rw [Svdef.sv_log, h4]; exact h3⟩
  | main =>
    refine ⟨evs', h6.trans (by rw [h1]), ?_⟩
    rw [hsig] at h7
    cases h7 with
    | down _ hp hr hf => exact .down _ hp hr hf
    | start u ret e _ hx hu he hv =>
      exact .start u ret e _ (by simp [Present]) hu (he.congr hkept.key fun f => by simp) hv

end Steps

theorem kept_present {sd sd' : Svdef} (h : Kept sd sd') (w : Which) :
    Present sd' w ↔ Present sd w := by
  unfold Present
  rw [h.haslog]

section Life
variable {k : Key} {w : Which}

theorem failed_history {s s' : Sys} (h : Failed s k s') :
    history k w s'.trace = history k w s.trace := by
  cases h with
  | long => rfl
  | nodir => rfl
  | nopipe fd hfd =>
    rw [close_history]
    simp [opened, begun, Sys.tainNow, Sys.emit, history_cons, mine]

theorem opened_history {s s' : Sys} {sd : Svdef} (h : Opened s k sd s') :
    history k w s'.trace = history k w s.trace := by
  cases h <;> simp [opened, begun, Sys.tainNow, Sys.emit, history_cons, mine]

theorem opened_signals {s s' : Sys} {sd : Svdef} (h : Opened s k sd s') :
    s'.sysstrSignal = s.sysstrSignal := by
  cases h <;> simp only [opened, begun, Sys.tainNow, Sys.emit]

theorem service_life {s s' : Sys} {e e' : Option Svdef} (h : ServiceStep k s e s' e') (w : Which) :
    LifeStep s.sysstrSignal k w (history k w s.trace) e (history k w s'.trace) e' := by
  cases h with
  | frame hf =>
    rw [frame_history hf]
    exact .stay _ _
  | entry hk hok hs ht =>
    obtain ⟨evs, h1, h2, h3⟩ := entry_sub (w := w) hk hok hs
    rw [h1]
    refine .entry hk (fun hc hx => hok.cull hc w hx) (fun hx => ?_) (hok.failing w) h2
      (.entryStep hs) h3
    obtain rfl : w = .log := by
      by_contra hw
      exact hx fun hl => absurd hl hw
    exact hok.nolog (by simpa [Present] using hx)
  | activate ht hc ho =>
    next s1 sd =>
    obtain ⟨evs, h1, h2⟩ := firstStart_sub (s := s1.emitSv sd (.activate s.serial)) ho.blank w
    have h0 : history k w (s1.emitSv sd (.activate s.serial)).trace =
        history k w s.trace ++ [.sv sd (.activate s.serial)] := by
      simp [emitSv_history, opened_history ho, mine, ho.blank.key]
    have hkept := firstStart_kept (s1.emitSv sd (.activate s.serial)) sd
    rw [h1, h0, List.append_assoc, List.singleton_append]
    have hsig : (s1.emitSv sd (.activate s.serial)).sysstrSignal = s.sysstrSignal := by
      change s1.sysstrSignal = _
      exact opened_signals ho
    refine .activate s.serial ho.blank (by rw [Svdef.put_sv, ← hsig]; exact h2) ?_ ?_
    · exact ⟨hkept.key, hkept.fdDir, hkept.logpipe0, hkept.logpipe1, by simp, by simp⟩
    · simp [ho.blank.cull]
  | fail hf =>
    rw [failed_history hf]
    exact .stay _ _
  | cull hk hok hc =>
    next sd =>
    have h0 : history k w (perpdSvdefClose (s.emitSv sd .cull) sd).trace =
        history k w s.trace ++ [.sv sd .cull] := by
      rw [perpdSvdefClose, close_history, emitSv_history]
      simp [mine, hk]
    rw [h0]
    exact .cull hk hc

/-- An invariant of a subservice's life, along histories that satisfy the law `P`. -/
structure LifeInv (sig : ℕ → Option (List Char)) (k : Key) (w : Which)
    (P : List Event → Event → Prop) (I : List Event → Option Svdef → Prop) : Prop where
  start : I [] none
  step : ∀ {h h' : List Event} {e e' : Option Svdef}, LifeStep sig k w h e h' e' → Along P h' →
    I h e → I h' e'

theorem service_signals {s s' : Sys} {e e' : Option Svdef} (h : ServiceStep k s e s' e') :
    s'.sysstrSignal = s.sysstrSignal := by
  obtain ⟨k', hk'⟩ := exists_other_key k
  cases h with
  | frame hf => exact hf.signals
  | entry hk hok hs ht => exact (entryStep_frame hs hok (hk ▸ hk')).signals
  | activate ht hc ho =>
    next s1 sd =>
    refine (firstStart_frame _ _ (ho.blank.key ▸ hk')).signals.trans ?_
    change s1.sysstrSignal = _
    exact opened_signals ho
  | fail hf => exact (hf.frame hk').signals
  | cull => rfl

/-- What every step of its life keeps holds of a subservice in every run. -/
theorem LifeInv.run {P : List Event → Event → Prop} {I : List Event → Option Svdef → Prop}
    (cfg : Config) (inputs : List IterIn) (h : LifeInv cfg.sysstrSignal k w P I)
    (hp : Along P (history k w (perpdRun cfg inputs).sys.trace)) :
    I (history k w (perpdRun cfg inputs).sys.trace)
      (entryOf k (perpdRun cfg inputs).svdefs) := by
  have hs : ServiceInv cfg k (fun past e => mine k w e = true → P (history k w past) e)
      (fun s e => s.sysstrSignal = cfg.sysstrSignal ∧ I (history k w s.trace) e) := by
    refine ⟨⟨by simp, by simpa using h.start⟩, fun hstep hp ⟨hsig, hi⟩ => ?_⟩
    have hl := service_life hstep w
    rw [hsig] at hl
    exact ⟨(service_signals hstep).trans hsig, h.step hl ((along_filter _ _).mpr hp) hi⟩
  exact (hs.run inputs ((along_filter _ _).mp hp)).2

end Life

end Perp.PerpdLife
