import Perp.PerpdMoves

set_option autoImplicit false

/-!
# What a step does to the descriptors

Of all that perpd does with an entry of its table, only the log shutdown closes
anything. The children are given descriptors as they are.
-/
namespace Perp.PerpdStill
open PerpdState PerpdSvdef PerpdConn PerpdMainloop PerpdFrame PerpdEntry PerpdEffect PerpdSlots
  PerpdActivate PerpdMoves

/-- An event that is about no descriptor, save that a child gets what `fds` holds. -/
def Apart (fds : ℕ → Option Obj) (sd : Svdef) : Event → Prop
  | .sv x (.fork w target _ _ _ io _) => Kept sd x ∧ io = childIo fds x w target
  | .sv _ (.activate _) | .sv _ (.closeLog _ _) | .sv _ .cull => False
  | .sv _ _ => True
  | _ => False

/-- Between `s` and `s'` nothing is opened or closed. -/
structure Still (s : Sys) (sd : Svdef) (s' : Sys) : Prop where
  grows : ∃ evs, s'.trace = s.trace ++ evs ∧ ∀ e ∈ evs, Apart s.fds sd e
  fds : s'.fds = s.fds
  serial : s'.serial = s.serial
  terminating : s'.flagTerminating = s.flagTerminating
  listen : s'.fdListen = s.fdListen

namespace Still
variable {s t u : Sys} {sd sd' : Svdef}

theorem refl (s : Sys) (sd : Svdef) : Still s sd s := ⟨⟨[], by simp⟩, rfl, rfl, rfl, rfl⟩

theorem trans (h : Still s sd t) (hk : Kept sd sd') (h' : Still t sd' u) : Still s sd u where
  grows := by
    obtain ⟨a, ha, hpa⟩ := h.grows
    obtain ⟨b, hb, hpb⟩ := h'.grows
    refine ⟨a ++ b, by rw [hb, ha, List.append_assoc], fun e he => ?_⟩
    rcases List.mem_append.mp he with he | he
    · exact hpa e he
    · have := hpb e he
      rw [h.fds] at this
      unfold Apart at this ⊢
      split at this
      · exact ⟨hk.trans this.1, this.2⟩
      all_goals first | exact this.elim | trivial
  fds := h'.fds.trans h.fds
  serial := h'.serial.trans h.serial
  terminating := h'.terminating.trans h.terminating
  listen := h'.listen.trans h.listen

theorem emitSv (s : Sys) (sd x : Svdef) (e : SvEvent) (he : Apart s.fds sd (.sv x e)) :
    Still s sd (s.emitSv x e) :=
  ⟨⟨[_], rfl, by simpa using he⟩, rfl, rfl, rfl, rfl⟩

theorem kill (s : Sys) (sd x : Svdef) (which : Which) (target : ℤ) (sig : Signal) :
    Still s sd (kill s x which target sig) :=
  emitSv s sd x _ trivial

theorem waited (s : Sys) (sd : Svdef) (pid : ℕ) : Still s sd (s.waited pid) :=
  ⟨⟨[], by simp [Sys.waited]⟩, rfl, rfl, rfl, rfl⟩

theorem run (s : Sys) (sd : Svdef) (which : Which) (target : Target) :
    Still s sd (perpdSvdefRun s sd which target).1 := by
  rcases run_cases s sd which target with ⟨h, _⟩ | ⟨_, _, ret, s', v, h, hf, _⟩ <;> rw [h]
  · exact refl s sd
  · obtain ⟨now, towait, ht⟩ := hf.trace
    refine ⟨⟨_, ht, ?_⟩, hf.fds, hf.serial, hf.terminating, hf.listen⟩
    simpa [Apart] using Kept.setSv sd which _

theorem doKill (s : Sys) (sd x : Svdef) (which : Which) (sig : Signal) (pg : Bool) :
    Still s sd (doKill s x which sig pg) := by
  unfold PerpdConn.doKill
  dsimp only
  split
  · exact refl s sd
  split
  · exact refl s sd
  split
  · exact kill s sd x which _ sig
  split
  · exact kill s sd x which _ sig
  · exact refl s sd

theorem doSignal (s : Sys) (sd : Svdef) (which : Which) (cmd : Cmd) (pg : Bool) :
    Still s sd (doSignal s sd which cmd pg).1 := by
  have h := emitSv s sd sd (.control which cmd) trivial
  unfold PerpdConn.doSignal
  dsimp only
  split
  · exact h.trans (.refl sd) (doKill _ sd sd which _ pg)
  · exact h

theorem doPause (s : Sys) (sd : Svdef) (which : Which) (pg : Bool) :
    Still s sd (doPause s sd which pg).1 := by
  have h := emitSv s sd sd (.control which .pause) trivial
  unfold PerpdConn.doPause
  dsimp only
  split
  · exact h.trans (.refl sd) (doKill _ sd _ which .sigstop pg)
  · exact h

theorem checkfailOne (s : Sys) (sd : Svdef) (which : Which) :
    Still s sd (checkfailOne s sd which).1 := by
  unfold PerpdSvdef.checkfailOne
  split
  · exact run _ _ _ _
  · exact refl s sd

theorem startLog (s : Sys) (sd : Svdef) : Still s sd (startLog s sd).1 := by
  unfold PerpdActivate.startLog
  split
  · exact (refl s sd).trans (.setSv sd .log _) (run _ _ _ _)
  · exact refl s sd

theorem startMain (s : Sys) (sd : Svdef) : Still s sd (startMain s sd).1 := by
  unfold PerpdActivate.startMain
  split
  · refine (refl s sd).trans ?_ (run _ _ _ _)
    split
    · exact .setSv sd .main _
    · exact .refl sd
  · exact refl s sd

theorem firstStart (s : Sys) (sd : Svdef) : Still s sd (firstStart s sd).1 := by
  rw [firstStart_eq]
  exact (startLog s sd).trans (startLog_kept s sd) (startMain _ _)

end Still

/-- A step on an entry opens nothing, and closes at most the log pipe of the
entry, once. -/
inductive FdStep (s : Sys) (sd : Svdef) (s' : Sys) (sd' : Svdef) : Prop where
  | still (h : Still s sd s')
  | shut (s1 : Sys) (x : Svdef) (hx : Kept sd x) (hx' : Kept x sd') (hl : x.has .haslog = true)
      (h : Still s sd s1) (h' : Still (closeLogpipe s1 x) x s')

section Steps
variable {s s' : Sys} {sd sd' : Svdef}

theorem terminate_fd (s0 : Sys) (x y : Svdef) (which : Which) (p : ℤ) (b : Bool) (hx : Kept sd x)
    (hx' : Kept x sd') (hl : x.has .haslog = true) (h : Still s sd s0) :
    FdStep s sd
      (kill (if b = false then kill (closeLogpipe s0 x) x which p .sigterm else s0) y which p .sigcont)
      sd' := by
  split
  · exact .shut s0 x hx hx' hl h ((Still.kill _ x x which p .sigterm).trans (.refl x)
      (.kill _ x y which p .sigcont))
  · exact .still (h.trans (.refl sd) (.kill _ sd y which p .sigcont))

theorem wantcull_fd (s : Sys) (sd : Svdef) :
    FdStep s sd (perpdSvdefWantcull s sd).1.1 (perpdSvdefWantcull s sd).1.2 := by
  have h0 := Still.emitSv s sd sd .wantcull trivial
  rcases wantcull_cases s sd with ⟨_, h⟩ | ⟨_, hl, _, h⟩ | ⟨_, _, h⟩ <;> rw [h]
  · refine .still ?_
    dsimp only
    split
    · exact (h0.trans (.refl sd) (.kill _ sd _ .main _ .sigterm)).trans (.refl sd)
        (.kill _ sd _ .main _ .sigcont)
    · exact h0.trans (.refl sd) (.kill _ sd _ .main _ .sigcont)
  · exact terminate_fd _ _ _ _ _ _ (.cullFlags sd) (.setSv _ .log _) (by simpa using hl) h0
  · exact .still h0

theorem reaped_fd (s : Sys) (sd : Svdef) (which : Which) (wstat : ℕ) :
    FdStep s sd (perpdReaped s sd which wstat).1.1 (perpdReaped s sd which wstat).1.2 := by
  have h0 := Still.emitSv s sd sd (.reap which wstat) trivial
  have hk := Kept.setSv sd which (reapedSv (sd.sv which) wstat)
  rcases reaped_cases s sd which wstat with
    ⟨_, h⟩ | ⟨_, _, h⟩ | ⟨_, _, rfl, hl, _, _, h⟩ | ⟨_, _, _, h⟩ <;> rw [h]
  · exact .still (h0.trans hk (.run _ _ _ _))
  · exact .still (h0.trans hk (.run _ _ _ _))
  · exact terminate_fd _ _ _ _ _ _ hk (.setSv _ .log _) (by simpa using hl) h0
  · exact .still h0

theorem FdStep.after {t : Sys} (h : Still s sd t) (h' : FdStep t sd s' sd') : FdStep s sd s' sd' := by
  cases h' with
  | still h' => exact .still (h.trans (.refl sd) h')
  | shut s1 x hx hx' hl h1 h2 => exact .shut s1 x hx hx' hl (h.trans (.refl sd) h1) h2

theorem entryStep_fd (hs : EntryStep s sd s' sd') : FdStep s sd s' sd' := by
  cases hs with
  | reap which wstat hp hw => exact (reaped_fd _ sd which wstat).after (.waited s sd _)
  | checkfail =>
    have h0 := Still.emitSv s sd sd .checkfail trivial
    refine .still ?_
    rcases checkfail_cases s sd with ⟨_, h⟩ | ⟨_, _, h⟩ | ⟨_, _, h⟩ <;> rw [h]
    · exact h0
    · exact h0.trans (.refl sd) (.checkfailOne _ _ _)
    · exact (h0.trans (.refl sd) (.checkfailOne _ _ _)).trans (.checkfailOne _ _ _)
        (.checkfailOne _ _ _)
  | start which cmd hc hm =>
    have h0 := Still.emitSv s sd sd (.control which cmd) trivial
    refine .still ?_
    rcases start_cases s sd which cmd with ⟨_, h⟩ | ⟨_, h⟩ <;> rw [h]
    · exact h0.trans (.setSv sd which _) (.run _ _ _ _)
    · exact h0
  | calm s' sd' hs =>
    cases hs with
    | signal which cmd pg hc hsig => exact .still (.doSignal s sd which cmd pg)
    | cont which pg hc =>
      exact .still ((Still.emitSv s sd sd (.control which .continue) trivial).trans (.refl sd)
        (.doKill _ sd _ which .sigcont pg))
    | pause which pg hc => exact .still (.doPause s sd which pg)
    | want which hc => exact .still (.emitSv s sd sd (.control which .down) trivial)
    | note which cmd hc hm => exact .still (.emitSv s sd sd (.control which cmd) trivial)
    | status => exact .still (.emitSv s sd sd .status trivial)
    | mark sd' hm => exact .still (.refl s sd)
    | wantcull => exact wantcull_fd s sd

/-- Between `s` and `s'` there are only events of one kind. -/
def Within (P : Event → Prop) (s s' : Sys) : Prop :=
  ∃ evs, s'.trace = s.trace ++ evs ∧ ∀ e ∈ evs, P e

namespace Within
variable {P Q : Event → Prop} {t u : Sys}

theorem refl (s : Sys) : Within P s s := ⟨[], by simp⟩

theorem trans (h : Within P s t) (h' : Within P t u) : Within P s u := by
  obtain ⟨a, ha, hpa⟩ := h
  obtain ⟨b, hb, hpb⟩ := h'
  exact ⟨a ++ b, by rw [hb, ha, List.append_assoc],
    fun e he => (List.mem_append.mp he).elim (hpa e) (hpb e)⟩

theorem mono (h : Within P s t) (hpq : ∀ e, P e → Q e) : Within Q s t := by
  obtain ⟨evs, he, hp⟩ := h
  exact ⟨evs, he, fun e hm => hpq e (hp e hm)⟩

theorem emit (s : Sys) (e : Event) (he : P e) : Within P s (s.emit e) :=
  ⟨[e], rfl, by simpa using he⟩

theorem close (s : Sys) (fd : ℕ) (he : ∀ o, P (.closed fd o)) : Within P s (s.close fd) :=
  ⟨[.closed fd (s.fds fd)], rfl, by simpa using he _⟩

theorem opened (s : Sys) (fd : ℕ) (o : Obj) (he : P (.opened fd o)) : Within P s (opened s fd o) :=
  ⟨[.opened fd o], rfl, by simpa using he⟩

theorem closeLogpipe (s : Sys) (sd : Svdef) (hl : ∀ o1 o0, P (.sv sd (.closeLog o1 o0)))
    (hc : ∀ fd o, P (.closed fd o)) : Within P s (closeLogpipe s sd) :=
  ((emit s _ (hl _ _)).trans (close _ _ fun o => hc _ o)).trans (close _ _ fun o => hc _ o)

end Within

/-- The events of work on the entries of the table. -/
def Own : Event → Prop
  | .sv _ (.activate _) | .sv _ .cull => False
  | .sv _ _ | .closed _ _ => True
  | _ => False

/-- The events of work within a phase of the main loop. -/
def Inner : Event → Prop
  | .sv _ (.activate _) | .sv _ .cull | .term | .scan | .scanned => False
  | _ => True

/-- Between `s` and `s'` no service comes or goes, and no scan. -/
abbrev Inside : Sys → Sys → Prop := Within Inner

theorem Own.inner {e : Event} (h : Own e) : Inner e := by
  unfold Own at h
  unfold Inner
  split <;> first | exact h | trivial

theorem Still.owned (h : Still s sd s') : Within Own s s' := by
  obtain ⟨evs, ht, hp⟩ := h.grows
  refine ⟨evs, ht, fun e he => ?_⟩
  have := hp e he
  cases e with
  | sv x ev => cases ev <;> trivial
  | _ => exact this.elim

theorem Still.inside (h : Still s sd s') : Inside s s' := h.owned.mono fun _ => Own.inner

theorem entryStep_owned (hs : EntryStep s sd s' sd') : Within Own s s' := by
  cases entryStep_fd hs with
  | still h => exact h.owned
  | shut s1 x _ _ _ h1 h2 =>
    have hc : Within Own s1 (closeLogpipe s1 x) :=
      .closeLogpipe s1 x (fun _ _ => trivial) fun _ _ => trivial
    exact (h1.owned.trans hc).trans h2.owned

theorem entryStep_inside (hs : EntryStep s sd s' sd') : Inside s s' :=
  (entryStep_owned hs).mono fun _ => Own.inner

theorem begun_within {P : Event → Prop} (s : Sys) : Within P s (begun s) :=
  ⟨[], by simp [begun, Sys.tainNow]⟩

theorem failed_within {P : Event → Prop} {key : Key} (h : Failed s key s')
    (ho : ∀ fd o, P (.opened fd o)) (hc : ∀ fd o, P (.closed fd o)) : Within P s s' := by
  cases h with
  | long => exact ⟨[], by simp⟩
  | nodir => exact begun_within s
  | nopipe fd h =>
    exact ((begun_within s).trans (.opened _ fd _ (ho _ _))).trans (.close _ fd fun o => hc fd o)

theorem opened_within {P : Event → Prop} {key : Key} (h : Opened s key sd s')
    (ho : ∀ fd o, P (.opened fd o)) : Within P s s' := by
  cases h with
  | plain => exact (begun_within s).trans (.opened _ _ _ (ho _ _))
  | logged =>
    exact (((begun_within s).trans (.opened _ _ _ (ho _ _))).trans (.opened _ _ _ (ho _ _))).trans
      (.opened _ _ _ (ho _ _))

theorem failed_inside {key : Key} (h : Failed s key s') : Inside s s' :=
  failed_within h (fun _ _ => trivial) fun _ _ => trivial

theorem opened_inside {key : Key} (h : Opened s key sd s') : Inside s s' :=
  opened_within h fun _ _ => trivial

theorem firstStart_within {P : Event → Prop} (s : Sys) (sd : Svdef)
    (hp : ∀ x w target prog now towait io ret, P (.sv x (.fork w target prog now towait io ret))) :
    Within P s (firstStart s sd).1 := by
  have hrun (s : Sys) (sd : Svdef) (w : Which) : Within P s (perpdSvdefRun s sd w .start).1 := by
    rcases run_cases s sd w .start with ⟨h, _⟩ | ⟨_, _, ret, s', v, h, hf, _⟩ <;> rw [h]
    · exact .refl s
    · obtain ⟨now, towait, ht⟩ := hf.trace
      exact ⟨_, ht, by simpa using hp _ _ _ _ _ _ _ _⟩
  have hlog : Within P s (startLog s sd).1 := by
    unfold startLog
    split
    · exact hrun _ _ _
    · exact .refl s
  rw [firstStart_eq]
  refine hlog.trans ?_
  unfold startMain
  split
  · exact hrun _ _ _
  · exact .refl _

end Steps

end Perp.PerpdStill
