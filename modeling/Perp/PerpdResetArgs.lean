import Perp.PerpdClient
import Perp.PerpdLife

set_option autoImplicit false

/-!
# What a reset is told

`perpd.8` promises a reset the way its start ended. The routine that builds the
arguments clears the status before it reads it, so that only a plain exit with
code 0 is told as it was.
-/
namespace Perp.PerpdResetArgs
open PerpdState PerpdSvdef PerpdMainloop PerpdClient PerpdEntry PerpdEffect PerpdActivate
  PerpdService PerpdLife TraceLaw

/-- The arguments of a reset as the manual has them, after a start that ended with `wstat`. -/
def resetArgv (sig : ℕ → Option (List Char)) (w : Which) (name : List Char) (wstat : ℕ) :
    List (List Char) :=
  [rcName w, "reset".toList, name] ++
    if wIfexited wstat then ["exit".toList, Nat.toDigits 10 (wExitstatus wstat)]
    else ["signal".toList, Nat.toDigits 10 (wTermsig wstat),
      (sig (wTermsig wstat)).getD "SIGUNKNOWN".toList]

/-- A status of a process that has ended. -/
def Ended (wstat : ℕ) : Prop := wIfexited wstat ∨ wIfsignaled wstat

/-- How the last start process of this activation ended. -/
def lastReap : Monitor Event (Option ℕ) where
  init := none
  next q
    | .sv _ (.activate _) => none
    | .sv sd (.reap w wstat) => if (sd.sv w).has .isreset then q else some wstat
    | _ => q

/-- A reset is told how the start before it ended. -/
def ToldStatus (sig : ℕ → Option (List Char)) (past : List Event) : Event → Prop
  | .sv sd (.fork w .reset prog _ _ _ (some _)) =>
    ∃ wstat ∈ lastReap.run past, prog = resetArgv sig w sd.name wstat
  | _ => True

instance (sig : ℕ → Option (List Char)) (past : List Event) :
    (e : Event) → Decidable (ToldStatus sig past e)
  | .sv sd (.fork w .reset prog _ _ _ (some _)) => inferInstanceAs (Decidable
    (∃ wstat ∈ lastReap.run past, prog = resetArgv sig w sd.name wstat))
  | .sv _ (.fork _ .reset _ _ _ _ none) | .sv _ (.fork _ .start _ _ _ _ _) => isTrue trivial
  | .sv _ (.activate _) | .sv _ (.reap _ _) | .sv _ (.kill _ _ _) | .sv _ (.control _ _)
  | .sv _ .checkfail | .sv _ .wantcull | .sv _ (.closeLog _ _) | .sv _ .cull | .sv _ .status =>
    isTrue trivial
  | .opened _ _ | .closed _ _ | .request _ | .sent _ _ | .term | .scan | .scanned => isTrue trivial

/-- A reset is forked only for a start that has exited with code 0. -/
def ExitedZero (past : List Event) : Event → Prop
  | .sv _ (.fork _ .reset _ _ _ _ (some _)) =>
    ∃ wstat ∈ lastReap.run past, wIfexited wstat = true ∧ wExitstatus wstat = 0
  | _ => True

theorem toDigits_eq_zero (n : ℕ) : Nat.toDigits 10 n = ['0'] ↔ n = 0 := by
  constructor
  · intro h
    calc
      n = Nat.ofDigitChars 10 (Nat.toDigits 10 n) 0 := Nat.ofDigitChars_ten_toDigits.symm
      _ = Nat.ofDigitChars 10 (Nat.toDigits 10 0) 0 := by rw [h, Nat.toDigits_zero]
      _ = 0 := Nat.ofDigitChars_ten_toDigits
  · rintro rfl
    exact Nat.toDigits_zero 10

/-- With the cleared status the arguments are right for exit 0 and for nothing else. -/
theorem runProg_eq_resetArgv (sig : ℕ → Option (List Char)) (w : Which) (name : List Char)
    (wstat : ℕ) : runProg sig name w .reset 0 = resetArgv sig w name wstat ↔
      wIfexited wstat = true ∧ wExitstatus wstat = 0 := by
  have hzero : runProg sig name w .reset 0 =
      [rcName w, "reset".toList, name] ++ ["exit".toList, ['0']] := rfl
  rw [hzero, resetArgv, List.append_cancel_left_eq]
  cases he : wIfexited wstat with
  | true =>
    rw [if_pos rfl]
    simp [eq_comm (a := ['0']), toDigits_eq_zero]
  | false =>
    rw [if_neg (by simp)]
    simp

section Step
variable {sig : ℕ → Option (List Char)} {k : Key} {w : Which}

/-- Every reset that was forked has a start before it whose status is known,
and was given the arguments for status 0. -/
def Known (sig : ℕ → Option (List Char)) (past : List Event) : Event → Prop
  | .sv sd (.fork w .reset prog _ _ _ (some _)) =>
    (∃ wstat, lastReap.run past = some wstat) ∧ prog = runProg sig sd.name w .reset 0
  | _ => True

theorem known_iff {past : List Event} {e : Event} (h : Known sig past e) :
    ToldStatus sig past e ↔ ExitedZero past e := by
  unfold Known at h
  split at h
  · next sd w prog _ _ _ _ =>
    obtain ⟨⟨wstat, hq⟩, rfl⟩ := h
    simp only [ToldStatus, ExitedZero, hq, Option.mem_some_iff, exists_eq_left',
      runProg_eq_resetArgv]
  · simp_all [ToldStatus, ExitedZero]

/-- A subservice whose last target was a reset has lost a start before. -/
def Mourned (v : Subsv) (q : Option ℕ) : Prop := v.has .isreset = true → ∃ wstat, q = some wstat

theorem known_fork {h : List Event} {sd : Svdef} {u v : Subsv} {target : Target} {ret : Option ℕ}
    {p e : Event} (hl : Along (Known sig) (h ++ [p])) (he : ForkEvent sig sd w u target ret e)
    (hv : Armed u target ret v)
    (ht : target = .reset → ∃ wstat, lastReap.run (h ++ [p]) = some wstat) :
    Along (Known sig) (h ++ [p, e]) ∧ Mourned v (lastReap.run (h ++ [p, e])) := by
  have happ : h ++ [p, e] = (h ++ [p]) ++ [e] := by simp
  obtain ⟨_, x, now, towait, io, rfl, _, _, _⟩ := he
  have hq : lastReap.run (h ++ [p, .sv x (.fork w target (runProg sig x.name w target 0) now towait
      io ret)]) = lastReap.run (h ++ [p]) := by
    rw [happ, Monitor.run_concat]
    rfl
  constructor
  · rw [happ]
    refine (along_concat _ _).mpr ⟨hl, ?_⟩
    cases target with
    | start => trivial
    | reset => cases ret <;> [trivial; exact ⟨ht rfl, rfl⟩]
  · intro hr
    rw [hv.isreset] at hr
    rw [hq]
    exact ht (by simpa using hr)

theorem subStep_known {h evs : List Event} {sd sd' : Svdef}
    (hs : SubStep sig sd w evs (sd'.sv w)) (hl : Along (Known sig) h)
    (hr : Mourned (sd.sv w) (lastReap.run h)) :
    Along (Known sig) (h ++ evs) ∧ Mourned (sd'.sv w) (lastReap.run (h ++ evs)) := by
  generalize sd'.sv w = v at hs ⊢
  -- an event that is no fork, and leaves the last target
  have hother (e : Event) (hk : Known sig h e) (he : lastReap.run (h ++ [e]) = lastReap.run h)
      (u : Subsv) (hu : u.has .isreset = (sd.sv w).has .isreset) :
      Along (Known sig) (h ++ [e]) ∧ Mourned u (lastReap.run (h ++ [e])) := by
    refine ⟨(along_concat _ _).mpr ⟨hl, hk⟩, ?_⟩
    rw [he, Mourned, hu]
    exact hr
  cases hs with
  | idle _ _ hf =>
    rw [List.append_nil, Mourned, hf _ (by simp)]
    exact ⟨hl, hr⟩
  | signalled cmd _ _ _ hf =>
    exact hother (.sv sd (.control w cmd)) trivial (by simp [lastReap]) _ (hf _ (by simp))
  | downed => exact hother (.sv sd (.control w .down)) trivial (by simp [lastReap]) _ (by simp)
  | flagged cmd _ _ => exact hother (.sv sd (.control w cmd)) trivial (by simp [lastReap]) _ (by simp)
  | wantculled _ _ hf _ =>
    exact hother (.sv sd .wantcull) trivial (by simp [lastReap]) _ (hf _ (by simp) (by simp))
  | checked => exact hother (.sv sd .checkfail) trivial (by simp [lastReap]) _ rfl
  | commanded cmd ret e _ _ _ _ _ he hv =>
    obtain ⟨h1, _⟩ := hother (.sv sd (.control w cmd)) trivial (by simp [lastReap]) _ rfl
    exact known_fork h1 he hv (by simp)
  | retried target ret e _ _ _ _ _ ht he hv =>
    obtain ⟨h1, h2⟩ := hother (.sv sd .checkfail) trivial (by simp [lastReap]) _ rfl
    exact known_fork h1 he hv fun hx => h2 (by simp [ht, hx])
  | reset wstat ret e _ _ _ _ hir he hv =>
    have h1 : Along (Known sig) (h ++ [.sv sd (.reap w wstat)]) :=
      (along_concat _ _).mpr ⟨hl, trivial⟩
    exact known_fork h1 he hv fun _ => ⟨wstat, by simp [lastReap, hir]⟩
  | restarted wstat ret e _ _ _ hir _ he hv =>
    obtain ⟨h1, _⟩ := hother (.sv sd (.reap w wstat)) trivial (by simp [lastReap, hir]) _ rfl
    exact known_fork h1 he hv (by simp)
  | finished wstat _ _ hir _ =>
    exact hother (.sv sd (.reap w wstat)) trivial (by simp [lastReap, hir]) _ (by simp)

theorem firstStep_known {h evs : List Event} {sd sd' : Svdef} (n : ℕ)
    (hs : FirstStep sig sd w evs (sd'.sv w)) (hl : Along (Known sig) h) :
    Along (Known sig) (h ++ .sv sd (.activate n) :: evs) ∧
      Mourned (sd'.sv w) (lastReap.run (h ++ .sv sd (.activate n) :: evs)) := by
  have h1 : Along (Known sig) (h ++ [.sv sd (.activate n)]) :=
    (along_concat _ _).mpr ⟨hl, trivial⟩
  generalize sd'.sv w = v at hs ⊢
  cases hs with
  | down _ _ hr _ => exact ⟨h1, by simp [Mourned, hr]⟩
  | start u ret e _ _ _ he hv => exact known_fork h1 he hv (by simp)

theorem life_known : LifeInv sig k w (fun _ _ => True) (fun h e => Along (Known sig) h ∧
    ∀ sd, e = some sd → Mourned (sd.sv w) (lastReap.run h)) where
  start := ⟨along_nil, by simp⟩
  step := by
    rintro h h' e e' hs _ ⟨hl, hr⟩
    cases hs with
    | stay => exact ⟨hl, hr⟩
    | entry _ _ _ _ hs _ _ =>
      obtain ⟨h1, h2⟩ := subStep_known hs hl (hr _ rfl)
      exact ⟨h1, by rintro _ ⟨⟩; exact h2⟩
    | activate n _ hs _ _ =>
      obtain ⟨h1, h2⟩ := firstStep_known n hs hl
      exact ⟨h1, by rintro _ ⟨⟩; exact h2⟩
    | cull => exact ⟨(along_concat _ _).mpr ⟨hl, trivial⟩, by simp⟩

end Step

/-- Every reset of a run is told how its start ended if and only if every reset
of the run is for a start that has exited with code 0. -/
theorem reset_told_status (cfg : Config) (inputs : List IterIn) :
    (∀ k w, Along (ToldStatus cfg.sysstrSignal) (history k w (perpdRun cfg inputs).sys.trace)) ↔
      ∀ k w, Along ExitedZero (history k w (perpdRun cfg inputs).sys.trace) := by
  refine forall_congr' fun k => forall_congr' fun w => ?_
  have hk := (life_known.run (k := k) (w := w) cfg inputs (fun _ _ _ _ => trivial)).1
  constructor
  · exact fun h past e rest he => (known_iff (hk past e rest he)).mp (h past e rest he)
  · exact fun h past e rest he => (known_iff (hk past e rest he)).mpr (h past e rest he)

/-- A start that is killed by signal 9. -/
def killed : List IterIn :=
  [scans quiet [service "foo" 2 ⟨some 8, false, false, none, none⟩], exits quiet [(100, 9)]]

theorem reset_told_status_fails : ¬ ∀ (k : Key) (w : Which),
    Along (ToldStatus (plain [some 100, some 101]).sysstrSignal)
      (history k w (perpdRun (plain [some 100, some 101]) killed).sys.trace) := by
  intro h
  exact absurd (h (1, 2) .main) (by decide +kernel)

end Perp.PerpdResetArgs
