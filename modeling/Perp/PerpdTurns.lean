import Mathlib.Data.List.Chain
import Perp.PerpdClient
import Perp.PerpdLife

set_option autoImplicit false

/-!
# Start and reset take turns

The flags of a subservice say which of the two ran last, so that the next one
is the other. Only a command to start can break in, when a reset is still owed.
-/
namespace Perp.PerpdTurns
open PerpdState PerpdSvdef PerpdMainloop PerpdClient PerpdEntry PerpdEffect PerpdActivate
  PerpdService PerpdLife TraceLaw

/-- start, reset, start, reset and so on -/
def Alternating (l : List Target) : Prop := l.head? ≠ some .reset ∧ l.IsChain (· ≠ ·)

instance (l : List Target) : Decidable (Alternating l) :=
  inferInstanceAs (Decidable (_ ∧ _))

/-- Whose turn it is: a reset only after a start, a start after anything else. -/
def Turn (last : Option Target) : Target → Prop
  | .start => last ≠ some .start
  | .reset => last = some .start

theorem alternating_nil : Alternating [] := by decide

theorem alternating_concat (l : List Target) (t : Target) :
    Alternating (l ++ [t]) ↔ Alternating l ∧ Turn l.getLast? t := by
  unfold Alternating
  rcases List.eq_nil_or_concat l with rfl | ⟨front, last, rfl⟩
  · cases t <;> simp [Turn]
  rw [List.concat_eq_append]
  have hhead : ((front ++ [last]) ++ [t]).head? = (front ++ [last]).head? := by
    cases front <;> rfl
  have hturn : Turn (front ++ [last]).getLast? t ↔ last ≠ t := by
    cases t <;> cases last <;> simp [Turn]
  rw [hhead, List.isChain_append, hturn]
  simp [and_assoc]

/-- The targets of the forks that succeeded since the last activation. -/
def turns : Monitor Event (List Target) where
  init := []
  next q
    | .sv _ (.activate _) => []
    | .sv _ (.fork _ target _ _ _ _ (some _)) => q ++ [target]
    | _ => q

/-- With this event, start and reset still alternate. -/
def KeepsTurn (past : List Event) (e : Event) : Prop := Alternating (turns.run (past ++ [e]))

instance (past : List Event) (e : Event) : Decidable (KeepsTurn past e) :=
  inferInstanceAs (Decidable (Alternating _))

/-- No command starts a subservice that owes a reset. -/
def NoneOwed : Event → Prop
  | .sv sd (.control w cmd) => cmd = .once ∨ cmd = .up →
    ¬ ((sd.sv w).has .failing = true ∧ (sd.sv w).has .isreset = true)
  | _ => True

instance : (e : Event) → Decidable (NoneOwed e)
  | .sv sd (.control w cmd) => inferInstanceAs (Decidable (cmd = .once ∨ cmd = .up →
    ¬ ((sd.sv w).has .failing = true ∧ (sd.sv w).has .isreset = true)))
  | .sv _ (.fork _ _ _ _ _ _ _) | .sv _ (.activate _) | .sv _ (.reap _ _) | .sv _ (.kill _ _ _)
  | .sv _ .checkfail | .sv _ .wantcull | .sv _ (.closeLog _ _) | .sv _ .cull | .sv _ .status =>
    isTrue trivial
  | .opened _ _ | .closed _ _ | .request _ | .sent _ _ | .term | .scan | .scanned => isTrue trivial

/-- What the record of a subservice says of the fork that came last. -/
def LastRun (v : Subsv) (last : Option Target) : Prop :=
  (0 < v.pid → last = some (if v.has .isreset then .reset else .start)) ∧
  (v.pid = 0 → (last = some .start ↔ v.has .failing = true ∧ v.has .isreset = true))

section Step
variable {sig : ℕ → Option (List Char)} {k : Key} {w : Which}

theorem LastRun.congr {u v : Subsv} {last : Option Target} (h : LastRun u last)
    (hp : v.pid = u.pid) (hr : v.has .isreset = u.has .isreset)
    (hf : v.has .failing = u.has .failing) : LastRun v last := by
  unfold LastRun
  rw [hp, hr, hf]
  exact h

theorem fork_turn {h : List Event} {sd : Svdef} {u v : Subsv} {target : Target} {ret : Option ℕ}
    {p e : Event} (hl : Along KeepsTurn (h ++ [p])) (ha : Alternating (turns.run (h ++ [p])))
    (he : ForkEvent sig sd w u target ret e) (hv : Armed u target ret v)
    (ht : Turn (turns.run (h ++ [p])).getLast? target) :
    Along KeepsTurn (h ++ [p, e]) ∧ Alternating (turns.run (h ++ [p, e])) ∧
      LastRun v (turns.run (h ++ [p, e])).getLast? := by
  have happ : h ++ [p, e] = (h ++ [p]) ++ [e] := by simp
  obtain ⟨hpos, x, now, towait, io, rfl, _, _, _⟩ := he
  cases ret with
  | none =>
    have hq : turns.run (h ++ [p, .sv x (.fork w target (runProg sig x.name w target 0) now towait
        io none)]) = turns.run (h ++ [p]) := by rw [happ, Monitor.run_concat]; rfl
    rw [hq]
    refine ⟨?_, ha, by simp [hv.pid], fun _ => ?_⟩
    · rw [happ]
      exact (along_concat _ _).mpr ⟨hl, by rw [KeepsTurn, ← happ, hq]; exact ha⟩
    · rw [hv.failing, hv.isreset]
      cases target <;> simpa [Turn] using ht
  | some pid =>
    have hq : turns.run (h ++ [p, .sv x (.fork w target (runProg sig x.name w target 0) now towait
        io (some pid))]) = turns.run (h ++ [p]) ++ [target] := by
      rw [happ, Monitor.run_concat]
      rfl
    have ha' := (alternating_concat _ _).mpr ⟨ha, ht⟩
    rw [hq]
    refine ⟨?_, ha', fun _ => ?_, fun h0 => ?_⟩
    · rw [happ]
      exact (along_concat _ _).mpr ⟨hl, by rw [KeepsTurn, ← happ, hq]; exact ha'⟩
    · rw [hv.isreset]
      cases target <;> simp
    · have := hpos pid rfl
      rw [hv.pid] at h0
      simp only [Option.getD_some] at h0
      omega

theorem other_turn {h : List Event} {e : Event} (hl : Along KeepsTurn h)
    (ha : Alternating (turns.run h)) (he : turns.run (h ++ [e]) = turns.run h) :
    Along KeepsTurn (h ++ [e]) ∧ Alternating (turns.run (h ++ [e])) :=
  ⟨(along_concat _ _).mpr ⟨hl, by rw [KeepsTurn, he]; exact ha⟩, by rwa [he]⟩

/-- What is known of a subservice: its forks took turns, and its record knows the last. -/
def Ordered (w : Which) (h : List Event) (sd : Svdef) : Prop :=
  LastRun (sd.sv w) (turns.run h).getLast?

theorem subStep_turn {h evs : List Event} {sd sd' : Svdef}
    (hfail : (sd.sv w).has .failing = true → (sd.sv w).pid = 0)
    (hs : SubStep sig sd w evs (sd'.sv w)) (hp : ∀ e ∈ evs, NoneOwed e)
    (hl : Along KeepsTurn h) (ha : Alternating (turns.run h)) (hr : Ordered w h sd) :
    Along KeepsTurn (h ++ evs) ∧ Alternating (turns.run (h ++ evs)) ∧ Ordered w (h ++ evs) sd' := by
  unfold Ordered at hr ⊢
  generalize sd'.sv w = v at hs ⊢
  -- an event that is no fork, and leaves the record as far as it matters here
  have hother (e : Event) (he : turns.run (h ++ [e]) = turns.run h) (u : Subsv)
      (hu : LastRun u (turns.run h).getLast?) : Along KeepsTurn (h ++ [e]) ∧
        Alternating (turns.run (h ++ [e])) ∧ LastRun u (turns.run (h ++ [e])).getLast? := by
    obtain ⟨h1, h2⟩ := other_turn hl ha he
    exact ⟨h1, h2, by rwa [he]⟩
  cases hs with
  | idle _ hpid hf =>
    rw [List.append_nil]
    exact ⟨hl, ha, hr.congr hpid (hf _ (by simp)) (hf _ (by simp))⟩
  | signalled cmd _ _ hpid hf =>
    exact hother _ (by simp [turns]) _ (hr.congr hpid (hf _ (by simp)) (hf _ (by simp)))
  | downed => exact hother _ (by simp [turns]) _ (hr.congr rfl (by simp) (by simp))
  | flagged cmd _ _ =>
    exact hother _ (by simp [turns]) _ (hr.congr (by simp) (by simp) (by simp))
  | wantculled _ hpid hf _ =>
    exact hother _ (by simp [turns]) _
      (hr.congr hpid (hf _ (by simp) (by simp)) (hf _ (by simp) (by simp)))
  | checked => exact hother _ (by simp [turns]) _ hr
  | commanded cmd ret e _ _ hc _ hp0 he hv =>
    have hq : turns.run (h ++ [.sv sd (.control w cmd)]) = turns.run h := by simp [turns]
    obtain ⟨h1, h2⟩ := other_turn hl ha hq
    have hn : NoneOwed (.sv sd (.control w cmd)) := hp _ (by simp)
    refine fork_turn h1 h2 he hv ?_
    rw [hq]
    exact (hr.2 hp0).not.mpr (hn hc)
  | retried target ret e _ _ _ hf hp0 ht he hv =>
    have hq : turns.run (h ++ [.sv sd .checkfail]) = turns.run h := by simp [turns]
    obtain ⟨h1, h2⟩ := other_turn hl ha hq
    refine fork_turn h1 h2 he hv ?_
    rw [hq]
    have hlast := hr.2 hp0
    rw [hf, ht] at hlast
    cases target <;> simpa [Turn] using hlast
  | reset wstat ret e _ _ hpos _ hir he hv =>
    have hq : turns.run (h ++ [.sv sd (.reap w wstat)]) = turns.run h := by simp [turns]
    obtain ⟨h1, h2⟩ := other_turn hl ha hq
    refine fork_turn h1 h2 he hv ?_
    rw [hq]
    simpa [Turn, hir] using hr.1 hpos
  | restarted wstat ret e _ _ hpos hir _ he hv =>
    have hq : turns.run (h ++ [.sv sd (.reap w wstat)]) = turns.run h := by simp [turns]
    obtain ⟨h1, h2⟩ := other_turn hl ha hq
    refine fork_turn h1 h2 he hv ?_
    rw [hq]
    simp [Turn, hr.1 hpos, hir]
  | finished wstat _ hpos hir _ =>
    have hnf : (sd.sv w).has .failing = false := by
      by_contra hn
      have := hfail (by simpa using hn)
      omega
    refine hother _ (by simp [turns]) _ ⟨by simp, fun _ => ?_⟩
    rw [hr.1 hpos]
    simp [hir, hnf]

theorem firstStep_turn {h evs : List Event} {sd sd' : Svdef} (n : ℕ)
    (hs : FirstStep sig sd w evs (sd'.sv w)) (hl : Along KeepsTurn h) :
    Along KeepsTurn (h ++ .sv sd (.activate n) :: evs) ∧
      Alternating (turns.run (h ++ .sv sd (.activate n) :: evs)) ∧
      Ordered w (h ++ .sv sd (.activate n) :: evs) sd' := by
  have hq : turns.run (h ++ [.sv sd (.activate n)]) = [] := by simp [turns]
  have h1 : Along KeepsTurn (h ++ [.sv sd (.activate n)]) :=
    (along_concat _ _).mpr ⟨hl, by rw [KeepsTurn, hq]; exact alternating_nil⟩
  have h2 : Alternating (turns.run (h ++ [.sv sd (.activate n)])) := hq ▸ alternating_nil
  unfold Ordered
  generalize sd'.sv w = v at hs ⊢
  cases hs with
  | down _ hp hr hf => exact ⟨h1, h2, by simp [hp], by simp [hq, hf]⟩
  | start u ret e _ _ _ he hv => exact fork_turn h1 h2 he hv (by simp [hq, Turn])

theorem life_turns : LifeInv sig k w (fun _ => NoneOwed)
    (fun h e => Along KeepsTurn h ∧ Alternating (turns.run h) ∧ ∀ sd, e = some sd → Ordered w h sd) where
  start := ⟨along_nil, alternating_nil, by simp⟩
  step := by
    rintro h h' e e' hs hp ⟨hl, ha, hr⟩
    cases hs with
    | stay => exact ⟨hl, ha, hr⟩
    | entry _ _ _ hfail hs _ _ =>
      have hp' := (along_const _ _).mp hp
      obtain ⟨h1, h2, h3⟩ := subStep_turn hfail hs
        (fun e he => hp' e (List.mem_append_right _ he)) hl ha (hr _ rfl)
      exact ⟨h1, h2, by rintro _ ⟨⟩; exact h3⟩
    | activate n _ hs _ _ =>
      obtain ⟨h1, h2, h3⟩ := firstStep_turn n hs hl
      exact ⟨h1, h2, by rintro _ ⟨⟩; exact h3⟩
    | cull =>
      obtain ⟨h1, h2⟩ := other_turn hl ha (e := .sv _ .cull) (by simp [turns])
      exact ⟨h1, h2, by simp⟩

end Step

/-- Where no command starts a subservice that owes a reset, start and reset
alternate in every activation. -/
theorem start_reset_alternate (cfg : Config) (inputs : List IterIn)
    (hp : ∀ e ∈ (perpdRun cfg inputs).sys.trace, NoneOwed e) (k : Key) (w : Which) :
    Along KeepsTurn (history k w (perpdRun cfg inputs).sys.trace) :=
  (life_turns.run cfg inputs ((along_const _ _).mpr fun e he =>
    hp e (List.mem_of_mem_filter he))).1

/-- A reset that could not be forked is retried and completed, then commands come. -/
def resetRetried : List IterIn :=
  [connects (scans quiet [service "foo" 2 ⟨some 8, false, false, none, none⟩]) 9,
    exits quiet [(100, 0)], exits quiet [(101, 0)],
    { quiet with clients := [sends (ctlRequest (1, 2) 'u' 0)] }]

theorem start_reset_alternate_retried : Along KeepsTurn (history (1, 2) .main
    (perpdRun (plain [some 100, none, some 101, some 102]) resetRetried).sys.trace) :=
  start_reset_alternate (plain [some 100, none, some 101, some 102]) resetRetried
    (by decide +kernel) (1, 2) .main

/-- The reset cannot be forked, a scan that fails half-way keeps it from being
retried, and the service is commanded up. -/
def upOwingReset : List IterIn :=
  [connects (scans quiet [service "foo" 2 ⟨some 8, false, false, none, none⟩]) 9,
    { exits quiet [(100, 0)] with
      signals := [.sigchld, .sighup], scan := ⟨true, [], true⟩
      clients := [sends (ctlRequest (1, 2) 'u' 0)] }]

theorem start_reset_alternate_fails : ¬ ∀ (k : Key) (w : Which), Along KeepsTurn
    (history k w (perpdRun (plain [some 100, none, some 101]) upOwingReset).sys.trace) := by
  intro h
  exact absurd (h (1, 2) .main) (by decide +kernel)

end Perp.PerpdTurns
