import Perp.PerpdRuns

set_option autoImplicit false

/-!
# The clock of a run

perpd reads its clock at many places, and never twice the same reading: at any
time what is still to be read is a tail of what there was in the beginning.
-/
namespace Perp.PerpdClock
open PerpdState PerpdSvdef PerpdConn PerpdMainloop PerpdEntry PerpdEffect PerpdActivate PerpdMoves
  PerpdPhases PerpdRuns

/-- Between two readings, in nanoseconds. -/
def gap (a b : Tain) : ℕ := b.nanos - a.nanos

/-- A clock that does not go back. -/
structure ClockOk (clock : ℕ → Tain) : Prop where
  normal : ∀ n, (clock n).Normal
  mono : ∀ n, (clock n).nanos ≤ (clock (n + 1)).nanos

theorem ClockOk.shift {clock : ℕ → Tain} (h : ClockOk clock) (n : ℕ) :
    ClockOk (fun m => clock (n + m)) :=
  ⟨fun m => h.normal (n + m), fun m => h.mono (n + m)⟩

section Steps
variable {s s' : Sys} {sd sd' : Svdef}

theorem perpdTriggerFail_clock (s : Sys) : (perpdTriggerFail s).clock = s.clock := by
  unfold perpdTriggerFail
  split <;> rfl

theorem run_later (s : Sys) (sd : Svdef) (which : Which) (target : Target) :
    Later s (perpdSvdefRun s sd which target).1 := by
  unfold perpdSvdefRun
  split
  · exact .refl s
  split
  · exact .refl s
  dsimp only
  obtain ⟨ret, hf, _⟩ := fork_spec s.tainNow.2
    ((sd.setSv which (aim (sd.sv which) target)).key, which)
  simp only [hf]
  cases ret with
  | none =>
    exact (tainNow_later s).trans (.of_eq (perpdTriggerFail_clock _))
  | some pid => exact (tainNow_later s).trans (.of_eq rfl)

@[simp] theorem emitSv_clock (s : Sys) (sd : Svdef) (e : SvEvent) :
    (s.emitSv sd e).clock = s.clock := rfl

@[simp] theorem kill_clock (s : Sys) (sd : Svdef) (which : Which) (target : ℤ) (sig : Signal) :
    (kill s sd which target sig).clock = s.clock := rfl

theorem doKill_clock (s : Sys) (sd : Svdef) (which : Which) (sig : Signal) (pg : Bool) :
    (doKill s sd which sig pg).clock = s.clock := by
  unfold doKill
  dsimp only
  split
  · rfl
  split
  · rfl
  split
  · rfl
  split <;> rfl

theorem calmStep_clock (hs : CalmStep s sd s' sd') : s'.clock = s.clock := by
  cases hs with
  | signal which cmd pg hc hsome =>
    unfold doSignal
    dsimp only
    split
    · exact doKill_clock _ _ _ _ _
    · rfl
  | cont which pg hc => exact doKill_clock _ _ _ _ _
  | pause which pg hc =>
    unfold doPause
    dsimp only
    split
    · exact doKill_clock _ _ _ _ _
    · rfl
  | want | note | status | mark => rfl
  | wantcull =>
    rcases wantcull_cases s sd with ⟨_, he⟩ | ⟨_, _, _, he⟩ | ⟨_, _, he⟩ <;> rw [he] <;>
      simp only [kill_clock, apply_ite Sys.clock, closeLogpipe_clock, emitSv_clock, ite_self]

theorem checkfailOne_later (s : Sys) (sd : Svdef) (which : Which) :
    Later s (checkfailOne s sd which).1 := by
  unfold checkfailOne
  split
  · exact run_later _ _ _ _
  · exact .refl s

theorem entryStep_later (hs : EntryStep s sd s' sd') : Later s s' := by
  cases hs with
  | reap which wstat hp hw =>
    have h0 : Later s ((s.waited (sd.sv which).pid).emitSv sd (.reap which wstat)) := .of_eq rfl
    rcases reaped_cases (s.waited (sd.sv which).pid) sd which wstat with
      ⟨_, he⟩ | ⟨_, _, he⟩ | ⟨_, _, _, _, _, _, he⟩ | ⟨_, _, _, he⟩ <;> rw [he]
    · exact h0.trans (run_later _ _ _ _)
    · exact h0.trans (run_later _ _ _ _)
    · refine h0.trans (.of_eq ?_)
      simp only [reapedShutdown, kill_clock, apply_ite Sys.clock, closeLogpipe_clock, ite_self]
    · exact h0
  | checkfail =>
    have h0 : Later s (s.emitSv sd .checkfail) := .of_eq rfl
    rcases checkfail_cases s sd with ⟨_, he⟩ | ⟨_, _, he⟩ | ⟨_, _, he⟩ <;> rw [he]
    · exact h0
    · exact h0.trans (checkfailOne_later _ _ _)
    · exact (h0.trans (checkfailOne_later _ _ _)).trans (checkfailOne_later _ _ _)
  | start which cmd hc hm =>
    have h0 : Later s (s.emitSv sd (.control which cmd)) := .of_eq rfl
    rcases start_cases s sd which cmd with ⟨_, he⟩ | ⟨_, he⟩ <;> rw [he]
    · exact h0.trans (run_later _ _ _ _)
    · exact h0
  | calm s' sd' hs => exact .of_eq (calmStep_clock hs)

theorem firstStart_later (s : Sys) (sd : Svdef) : Later s (firstStart s sd).1 := by
  rw [firstStart_eq]
  refine Later.trans (t := (startLog s sd).1) ?_ ?_
  · unfold startLog
    split
    · exact run_later _ _ _ _
    · exact .refl s
  · unfold startMain
    split
    · exact run_later _ _ _ _
    · exact .refl _

theorem opened_later {key : Key} (h : Opened s key sd s') : Later s s' := by
  have hb : Later s (begun s) := tainNow_later s
  cases h <;> exact hb.trans (.of_eq rfl)

theorem activate_later (s : Sys) (svdir : List Char) (st : Stat) (d : ActivateIn) :
    Later s (perpdSvdefActivate s svdir st d).1 := by
  have hb : Later s (begun s) := tainNow_later s
  rcases activate_cases s svdir st d with ⟨s1, h, hf⟩ | ⟨sd, s1, ho, h⟩ <;> rw [h]
  · cases hf with
    | long => exact .of_eq rfl
    | nodir => exact hb
    | nopipe fd h => exact hb.trans (.of_eq rfl)
  · have he : Later s1 (s1.emitSv sd (.activate s.serial)) := .of_eq rfl
    exact ((opened_later ho).trans he).trans (firstStart_later _ _)

end Steps

theorem move_later {t t' : Table} (hm : Move t t') : Later t.sys t'.sys := by
  cases hm with
  | entry i sd s' sd' hi hs ht => exact entryStep_later hs
  | activate svdir st d s' sd hnew hroom ht ha =>
    have := activate_later t.sys svdir st d
    rwa [ha] at this
  | activateFail svdir st d s' hnew ha =>
    have := activate_later t.sys svdir st d
    rwa [ha] at this
  | cull | accept | drop | term => exact .of_eq rfl
  | idle s' h => exact h.clock

theorem moves_later {t t' : Table} (hm : Moves t t') : Later t.sys t'.sys := by
  induction hm with
  | refl => exact .refl _
  | tail hm hmove ih => exact ih.trans (move_later hmove)

theorem top_clock (cfg : Config) (inputs : List IterIn) :
    ∃ n, (loopTop (perpdRun cfg inputs)).sys.clock = fun m => cfg.clock (n + m) :=
  moves_later ((run_phase cfg inputs).trans (loopTop_phase _ (run_phase cfg inputs).ok)).moves

end Perp.PerpdClock
