import Perp.PerpdClient
import Perp.PerpdLife

set_option autoImplicit false

/-!
# A subservice that is wanted down is not started

Every path to a start looks at what is wanted, save the retry of a failed
`fork()`: it repeats a start whatever was commanded meanwhile.
-/
namespace Perp.PerpdWanted
open PerpdState PerpdSvdef PerpdMainloop PerpdClient PerpdEntry PerpdEffect PerpdActivate
  PerpdService PerpdLife TraceLaw

/-- Was the subservice commanded down, or its service deactivated, with no
command to start since? -/
def downed : Monitor Event Bool where
  init := false
  next q
    | .sv _ (.activate _) => false
    | .sv _ (.control _ .down) => true
    | .sv _ (.control _ .once) | .sv _ (.control _ .up) => false
    | .sv _ .wantcull => true
    | _ => q

/-- A start happens only while it is wanted. -/
def StartWanted (past : List Event) : Event → Prop
  | .sv sd (.fork w .start _ _ _ _ (some _)) =>
    (sd.sv w).has .wantdown = false ∧ sd.has .cull = false ∧ downed.run past = false
  | _ => True

instance (past : List Event) : (e : Event) → Decidable (StartWanted past e)
  | .sv sd (.fork w .start _ _ _ _ (some _)) =>
    inferInstanceAs (Decidable ((sd.sv w).has .wantdown = false ∧ sd.has .cull = false ∧
      downed.run past = false))
  | .sv _ (.fork _ .start _ _ _ _ none) | .sv _ (.fork _ .reset _ _ _ _ _) => isTrue trivial
  | .sv _ (.activate _) | .sv _ (.reap _ _) | .sv _ (.kill _ _ _) | .sv _ (.control _ _)
  | .sv _ .checkfail | .sv _ .wantcull | .sv _ (.closeLog _ _) | .sv _ .cull | .sv _ .status =>
    isTrue trivial
  | .opened _ _ | .closed _ _ | .request _ | .sent _ _ | .term | .scan | .scanned => isTrue trivial

/-- A retry that would start finds the subservice wanted. -/
def RetryWanted : Event → Prop
  | .sv sd .checkfail => sd.has .active = true → ∀ w, Present sd w → (sd.sv w).has .failing = true →
    (sd.sv w).has .isreset = false → (sd.sv w).has .wantdown = false ∧ sd.has .cull = false
  | _ => True

instance : (e : Event) → Decidable (RetryWanted e)
  | .sv sd .checkfail => inferInstanceAs (Decidable (sd.has .active = true → ∀ w, Present sd w →
    (sd.sv w).has .failing = true → (sd.sv w).has .isreset = false →
      (sd.sv w).has .wantdown = false ∧ sd.has .cull = false))
  | .sv _ (.fork _ _ _ _ _ _ _) | .sv _ (.activate _) | .sv _ (.reap _ _) | .sv _ (.kill _ _ _)
  | .sv _ (.control _ _) | .sv _ .wantcull | .sv _ (.closeLog _ _) | .sv _ .cull | .sv _ .status =>
    isTrue trivial
  | .opened _ _ | .closed _ _ | .request _ | .sent _ _ | .term | .scan | .scanned => isTrue trivial

section Step
variable {sig : ℕ → Option (List Char)} {k : Key} {w : Which}

/-- An event that is no fork, and a fork after it: a start must be wanted. -/
theorem along_fork {h : List Event} {sd : Svdef} {u : Subsv} {target : Target} {ret : Option ℕ}
    {p e : Event} (hl : Along StartWanted (h ++ [p])) (he : ForkEvent sig sd w u target ret e)
    (hs : target = .start →
      u.has .wantdown = false ∧ sd.has .cull = false ∧ downed.run (h ++ [p]) = false) :
    Along StartWanted (h ++ [p, e]) ∧ downed.run (h ++ [p, e]) = downed.run (h ++ [p]) := by
  have happ : h ++ [p, e] = (h ++ [p]) ++ [e] := by simp
  obtain ⟨_, x, now, towait, io, rfl, _, hu, hf⟩ := he
  rw [happ]
  refine ⟨(along_concat _ _).mpr ⟨hl, ?_⟩, by rw [Monitor.run_concat]; rfl⟩
  cases target with
  | reset => cases ret <;> trivial
  | start =>
    cases ret with
    | none => trivial
    | some pid =>
      obtain ⟨h1, h2, h3⟩ := hs rfl
      exact ⟨by simp [hu, h1], by simp [hf, h2], h3⟩

theorem armed_wantdown {u v : Subsv} {target : Target} {ret : Option ℕ} (h : Armed u target ret v) :
    v.has .wantdown = u.has .wantdown :=
  h.other _ (by simp) (by simp)

theorem downed_control {cmd : Cmd} (hc : cmd ≠ .down ∧ cmd ≠ .once ∧ cmd ≠ .up) (h : List Event)
    (sd : Svdef) (w : Which) : downed.run (h ++ [.sv sd (.control w cmd)]) = downed.run h := by
  obtain ⟨hdown, honce, hup⟩ := hc
  rw [Monitor.run_concat]
  cases cmd <;> first | rfl | contradiction

/-- A subservice that was commanded down has its flag set. -/
def Remembered (w : Which) (h : List Event) (sd : Svdef) : Prop :=
  Present sd w → downed.run h = true → (sd.sv w).has .wantdown = true

theorem subStep_wanted {h evs : List Event} {sd sd' : Svdef}
    (hcull : sd.has .cull = true → Present sd w → (sd.sv w).has .wantdown = true)
    (hs : SubStep sig sd w evs (sd'.sv w)) (hx : Present sd' w ↔ Present sd w)
    (hp : ∀ e ∈ evs, RetryWanted e) (hl : Along StartWanted h) (hr : Remembered w h sd) :
    Along StartWanted (h ++ evs) ∧ Remembered w (h ++ evs) sd' := by
  unfold Remembered at hr ⊢
  rw [hx]
  have not_downed (hw : (sd.sv w).has .wantdown = false) (hx : Present sd w) :
      downed.run h = false := by
    by_contra hn
    simp [hr hx (by simpa using hn)] at hw
  generalize sd'.sv w = v at hs ⊢
  cases hs with
  | idle _ _ hf =>
    rw [hf _ (by simp), List.append_nil]
    exact ⟨hl, hr⟩
  | signalled cmd _ hc _ hf =>
    rw [hf _ (by simp)]
    exact ⟨(along_concat _ _).mpr ⟨hl, trivial⟩, by rwa [downed_control hc]⟩
  | downed => exact ⟨(along_concat _ _).mpr ⟨hl, trivial⟩, by simp⟩
  | flagged cmd hc _ =>
    have hq : downed.run (h ++ [.sv sd (.control w cmd)]) = false := by
      rcases hc with rfl | rfl <;> simp [downed]
    exact ⟨(along_concat _ _).mpr ⟨hl, trivial⟩, by simp [hq]⟩
  | commanded cmd ret e _ hcull hc hx hp he hv =>
    have hq : downed.run (h ++ [.sv sd (.control w cmd)]) = false := by
      rcases hc with rfl | rfl <;> simp [downed]
    have h1 : Along StartWanted (h ++ [.sv sd (.control w cmd)]) :=
      (along_concat _ _).mpr ⟨hl, trivial⟩
    obtain ⟨h2, h3⟩ := along_fork h1 he fun _ => ⟨by simp, hcull, hq⟩
    exact ⟨h2, by simp [h3, hq]⟩
  | wantculled _ _ _ hw =>
    exact ⟨(along_concat _ _).mpr ⟨hl, trivial⟩, fun hx _ => hw (Or.inr hx)⟩
  | checked =>
    have hq : downed.run (h ++ [.sv sd .checkfail]) = downed.run h := by simp [downed]
    exact ⟨(along_concat _ _).mpr ⟨hl, trivial⟩, by rwa [hq]⟩
  | retried target ret e _ ha hx hf _ ht he hv =>
    have hq : downed.run (h ++ [.sv sd .checkfail]) = downed.run h := by simp [downed]
    have h1 : Along StartWanted (h ++ [.sv sd .checkfail]) := (along_concat _ _).mpr ⟨hl, trivial⟩
    have hok := hp (.sv sd .checkfail) (by simp) ha w hx hf
    obtain ⟨h2, h3⟩ := along_fork h1 he fun hstart => by
      obtain ⟨hw, hc⟩ := hok (by simp [ht, hstart])
      exact ⟨hw, hc, hq.trans (not_downed hw hx)⟩
    rw [armed_wantdown hv, h3, hq]
    exact ⟨h2, hr⟩
  | reset wstat ret e _ hx hp _ _ he hv =>
    have hq : downed.run (h ++ [.sv sd (.reap w wstat)]) = downed.run h := by simp [downed]
    have h1 : Along StartWanted (h ++ [.sv sd (.reap w wstat)]) :=
      (along_concat _ _).mpr ⟨hl, trivial⟩
    obtain ⟨h2, h3⟩ := along_fork h1 he (by simp)
    rw [armed_wantdown hv, h3, hq]
    exact ⟨h2, fun hx hd => by simp [hr hx hd]⟩
  | restarted wstat ret e _ hx _ _ hd he hv =>
    have hq : downed.run (h ++ [.sv sd (.reap w wstat)]) = downed.run h := by simp [downed]
    have h1 : Along StartWanted (h ++ [.sv sd (.reap w wstat)]) :=
      (along_concat _ _).mpr ⟨hl, trivial⟩
    have hw : (sd.sv w).has .wantdown = false := by
      by_contra hn
      simp [hn] at hd
    have hc : sd.has .cull = false := by
      by_contra hn
      simp [hcull (by simpa using hn) hx] at hw
    obtain ⟨h2, h3⟩ := along_fork h1 he fun _ => ⟨hd, hc, hq.trans (not_downed hw hx)⟩
    exact ⟨h2, fun _ => by simp [h3, hq, not_downed hw hx]⟩
  | finished wstat hx _ _ hd =>
    exact ⟨(along_concat _ _).mpr ⟨hl, trivial⟩, fun _ _ => hd⟩

theorem firstStep_wanted {h evs : List Event} {sd sd' : Svdef} (n : ℕ) (hb : Blank sd k)
    (hs : FirstStep sig sd w evs (sd'.sv w)) (hl : Along StartWanted h) :
    Along StartWanted (h ++ .sv sd (.activate n) :: evs) ∧
      Remembered w (h ++ .sv sd (.activate n) :: evs) sd' := by
  have hq : downed.run (h ++ [.sv sd (.activate n)]) = false := by simp [downed]
  have h1 : Along StartWanted (h ++ [.sv sd (.activate n)]) := (along_concat _ _).mpr ⟨hl, trivial⟩
  unfold Remembered
  generalize sd'.sv w = v at hs ⊢
  cases hs with
  | down => exact ⟨h1, by simp [hq]⟩
  | start u ret e _ _ hu he _ =>
    obtain ⟨h2, h3⟩ := along_fork h1 he fun _ => ⟨hu _ (by simp) (by simp), hb.cull, hq⟩
    exact ⟨h2, by simp [h3, hq]⟩

theorem life_wanted : LifeInv sig k w (fun _ => RetryWanted)
    (fun h e => Along StartWanted h ∧ ∀ sd, e = some sd → Remembered w h sd) where
  start := ⟨along_nil, by simp⟩
  step := by
    rintro h h' e e' hs hp ⟨hl, hr⟩
    cases hs with
    | stay => exact ⟨hl, hr⟩
    | entry _ hcull _ _ hs hkept _ =>
      have hp' := (along_const _ _).mp hp
      obtain ⟨h1, h2⟩ := subStep_wanted hcull hs (kept_present hkept w)
        (fun e he => hp' e (List.mem_append_right _ he)) hl (hr _ rfl)
      exact ⟨h1, by rintro _ ⟨⟩; exact h2⟩
    | activate n hb hs _ _ =>
      obtain ⟨h1, h2⟩ := firstStep_wanted n hb hs hl
      exact ⟨h1, by rintro _ ⟨⟩; exact h2⟩
    | cull => exact ⟨(along_concat _ _).mpr ⟨hl, trivial⟩, by simp⟩

end Step

/-- Where every retry finds its subservice wanted, every start is of a
subservice that is wanted, up to the removal of its service and beyond. -/
theorem start_wanted (cfg : Config) (inputs : List IterIn)
    (hp : ∀ e ∈ (perpdRun cfg inputs).sys.trace, RetryWanted e) (k : Key) (w : Which) :
    Along StartWanted (history k w (perpdRun cfg inputs).sys.trace) :=
  (life_wanted.run cfg inputs ((along_const _ _).mpr fun e he =>
    hp e (List.mem_of_mem_filter he))).1

/-- A service that is down is commanded up when `fork()` fails, and retried. -/
def upRetried : List IterIn :=
  [connects (scans quiet [service "foo" 2 ⟨some 8, true, false, none, none⟩]) 9,
    { quiet with clients := [sends (ctlRequest (1, 2) 'u' 0)] }, quiet]

theorem start_wanted_retried : Along StartWanted
    (history (1, 2) .main (perpdRun (plain [none, some 100]) upRetried).sys.trace) :=
  start_wanted (plain [none, some 100]) upRetried (by decide +kernel) (1, 2) .main

/-- A service that is down, commanded up when `fork()` fails, then down again
before the retry. -/
def upThenDown : List IterIn :=
  [connects (scans quiet [service "foo" 2 ⟨some 8, true, false, none, none⟩]) 9,
    connects quiet 10,
    { quiet with clients := [sends (ctlRequest (1, 2) 'u' 0), sends (ctlRequest (1, 2) 'd' 0)] },
    quiet]

theorem start_wanted_fails : ¬ ∀ (k : Key) (w : Which), Along StartWanted
    (history k w (perpdRun (plain [none, some 100]) upThenDown).sys.trace) := by
  intro h
  exact absurd (h (1, 2) .main) (by decide +kernel)

end Perp.PerpdWanted
