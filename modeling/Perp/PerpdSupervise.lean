import Perp.PerpdChildren
import Perp.PerpdLife
import Perp.Supervision

set_option autoImplicit false

/-!
# perpd supervises

What perpd does for one subservice is the life of a supervised process, and the
record in the table says where that life stands.
-/
namespace Perp.PerpdSupervise
open PerpdState PerpdSvdef PerpdMainloop PerpdClient PerpdFrame PerpdEntry PerpdEffect PerpdSlots
  PerpdActivate PerpdMoves PerpdPhases PerpdRuns PerpdService PerpdLife Supervision

def jobOf : Target → Job
  | .start => .start
  | .reset => .reset

/-- What an event of its service is in the life of a subservice. -/
def svLabel (sd : Svdef) (w : Which) : SvEvent → Option Label
  | .activate _ => some (.born (decide (w = .log) || !sd.has .down))
  | .control _ .up | .control _ .once => some (.wish true)
  | .control _ .down | .wantcull => some (.wish false)
  | .fork _ target _ _ _ _ ret => some (.tried (jobOf target) ret.isSome)
  | .reap _ _ => some (.gone ((sd.sv w).has .isonce))
  | .cull => some .removed
  | _ => none

/-- A service without a log has nothing to tell of it. -/
def label (w : Which) : Event → Option Label
  | .sv sd e => if Present sd w then svLabel sd w e else none
  | _ => none

def labels (w : Which) (t : List Event) : List Label := t.filterMap (label w)

def phaseOf (v : Subsv) : Phase :=
  if 0 < v.pid then .running (if v.has .isreset then .reset else .start)
  else if v.has .failing then .owed (if v.has .isreset then .reset else .start)
  else .idle

def wardRec (v : Subsv) : Ward := ⟨phaseOf v, !v.has .wantdown⟩

/-- Where the life of a subservice stands, by the table -/
def wardOf (w : Which) : Option Svdef → Ward
  | none => first
  | some sd => if Present sd w then wardRec (sd.sv w) else first

section Labels
variable {w : Which}

@[simp] theorem labels_nil : labels w [] = [] := rfl

@[simp] theorem labels_append (t u : List Event) : labels w (t ++ u) = labels w t ++ labels w u :=
  List.filterMap_append ..

theorem labels_absent {sd : Svdef} (hx : ¬ Present sd w) (e : SvEvent) :
    labels w [.sv sd e] = [] := by
  simp [labels, label, hx]

theorem labels_present {sd : Svdef} (hx : Present sd w) {e : SvEvent} {l : Label}
    (hl : svLabel sd w e = some l) : labels w [.sv sd e] = [l] := by
  simp [labels, label, hx, hl]

theorem labels_silent {sd : Svdef} {e : SvEvent} (hl : svLabel sd w e = none) :
    labels w [.sv sd e] = [] := by
  simp [labels, label, hl]

theorem forkEvent_label {sig : ℕ → Option (List Char)} {sd : Svdef} {u : Subsv} {target : Target}
    {ret : Option ℕ} {e : Event} (hx : Present sd w) (he : ForkEvent sig sd w u target ret e) :
    labels w [e] = [.tried (jobOf target) ret.isSome] := by
  obtain ⟨-, x, now, towait, io, rfl, -, -, hf⟩ := he
  have hpx : Present x w := fun hw => (hf _).trans (hx hw)
  exact labels_present hpx rfl

theorem phaseOf_armed {u v : Subsv} {target : Target} {ret : Option ℕ} (hv : Armed u target ret v)
    (hpos : ∀ pid, ret = some pid → 0 < pid) :
    phaseOf v = if ret.isSome then .running (jobOf target) else .owed (jobOf target) := by
  unfold phaseOf
  rw [hv.pid, hv.failing, hv.isreset]
  cases ret with
  | none => cases target <;> simp [jobOf]
  | some pid => cases target <;> simp [jobOf, hpos pid rfl]

end Labels

section Step
variable {sig : ℕ → Option (List Char)} {w : Which} {u v : Subsv}

theorem wardRec_congr (hp : v.pid = u.pid) (hf : ∀ f, f ≠ .ispaused → v.has f = u.has f) :
    wardRec v = wardRec u := by
  unfold wardRec phaseOf
  rw [hp, hf _ (by simp), hf _ (by simp), hf _ (by simp)]

theorem phaseOf_pos (hp : 0 < u.pid) :
    phaseOf u = .running (if u.has .isreset then .reset else .start) := if_pos hp

theorem phaseOf_zero (hp : u.pid = 0) :
    phaseOf u = .idle ∨ ∃ job, phaseOf u = .owed job := by
  unfold phaseOf
  rw [if_neg (by omega)]
  split
  · exact .inr ⟨_, rfl⟩
  · exact .inl rfl

theorem next_down (u : Subsv) : next (wardRec u) (.wish false) = some ⟨phaseOf u, false⟩ := by
  rcases Nat.eq_zero_or_pos u.pid with hp | hp
  · rcases phaseOf_zero hp with h | ⟨job, h⟩ <;> simp [next, wardRec, h]
  · simp [next, wardRec, phaseOf_pos hp]

theorem next_up_running (hp : 0 < u.pid) :
    next (wardRec u) (.wish true) = some ⟨phaseOf u, true⟩ := by
  simp [next, wardRec, phaseOf_pos hp]

theorem next_up_down (hp : u.pid = 0) :
    next (wardRec u) (.wish true) = some ⟨.due .start, true⟩ := by
  rcases phaseOf_zero hp with h | ⟨job, h⟩ <;> simp [next, wardRec, h]

/-- The attempt to run that is due, or owed -/
theorem next_tried {target : Target} {ret : Option ℕ} {wanted : Bool} {p : Phase}
    (hp : p = .due (jobOf target) ∨ p = .owed (jobOf target)) (hv : Armed u target ret v)
    (hpos : ∀ pid, ret = some pid → 0 < pid) (hw : u.has .wantdown = !wanted) :
    next ⟨p, wanted⟩ (.tried (jobOf target) ret.isSome) = some (wardRec v) := by
  have hwant : v.has .wantdown = !wanted := (hv.other _ (by simp) (by simp)).trans hw
  rw [wardRec, phaseOf_armed hv hpos, hwant, Bool.not_not]
  exact if_pos hp

theorem next_gone_start (hp : 0 < u.pid) (hr : u.has .isreset = false) :
    next (wardRec u) (.gone (u.has .isonce)) =
      some ⟨.due .reset, !(u.has .wantdown || u.has .isonce)⟩ := by
  simp [next, wardRec, phaseOf_pos hp, hr]

theorem next_gone_reset (hp : 0 < u.pid) (hr : u.has .isreset = true) :
    next (wardRec u) (.gone (u.has .isonce)) =
      some ⟨settle !(u.has .wantdown || u.has .isonce), !(u.has .wantdown || u.has .isonce)⟩ := by
  simp [next, wardRec, phaseOf_pos hp, hr]

/-- The piece that a step adds to the life leads from the record to the record. -/
theorem subStep_ward {sd : Svdef} {evs : List Event} (hx : Present sd w)
    (hfail : (sd.sv w).has .failing = true → (sd.sv w).pid = 0) (hs : SubStep sig sd w evs v) :
    (labels w evs).foldlM next (wardRec (sd.sv w)) = some (wardRec v) := by
  -- an event and the fork that it leads to
  have htwo {p : SvEvent} {l : Label} {x : Ward} {u : Subsv} {target : Target} {ret : Option ℕ}
      {e : Event} (hl : svLabel sd w p = some l) (hn : next (wardRec (sd.sv w)) l = some x)
      (hp : x.phase = .due (jobOf target)) (hw : u.has .wantdown = !x.wanted)
      (he : ForkEvent sig sd w u target ret e) (hv : Armed u target ret v) :
      (labels w [.sv sd p, e]).foldlM next (wardRec (sd.sv w)) = some (wardRec v) := by
    have happ : labels w [.sv sd p, e] = [l, .tried (jobOf target) ret.isSome] := by
      rw [← List.singleton_append, labels_append, labels_present hx hl, forkEvent_label hx he]
      rfl
    rw [happ, List.foldlM_cons, hn, Option.bind_eq_bind, Option.bind_some, List.foldlM_cons,
      next_tried (.inl hp) hv he.1 hw]
    rfl
  cases hs with
  | idle _ hp hf => rw [wardRec_congr hp hf, labels_nil, List.foldlM_nil]; rfl
  | signalled cmd _ hc hp hf =>
    obtain ⟨hdown, honce, hup⟩ := hc
    have hl : svLabel sd w (.control w cmd) = none := by
      cases cmd <;> first | rfl | contradiction
    rw [labels_silent hl, wardRec_congr hp hf, List.foldlM_nil]
    rfl
  | downed =>
    rw [labels_present hx rfl, List.foldlM_cons, next_down]
    simp [wardRec, phaseOf]
  | flagged cmd hc hp =>
    have hpos : 0 < (sd.sv w).pid := hp.resolve_right (not_not_intro hx)
    have hl : svLabel sd w (.control w cmd) = some (.wish true) := by
      rcases hc with rfl | rfl <;> rfl
    rw [labels_present hx hl, List.foldlM_cons, next_up_running hpos]
    simp [wardRec, phaseOf, hpos]
  | commanded cmd ret e _ hcull hc _ hp he hv =>
    have hl : svLabel sd w (.control w cmd) = some (.wish true) := by
      rcases hc with rfl | rfl <;> rfl
    exact htwo hl (next_up_down hp) rfl (by simp) he hv
  | wantculled _ hp hf hw =>
    have hwant : v.has .wantdown = true := hw (.inr hx)
    have hphase : phaseOf v = phaseOf (sd.sv w) := by
      unfold phaseOf
      rw [hp, hf _ (by simp) (by simp), hf _ (by simp) (by simp)]
    rw [labels_present hx rfl, List.foldlM_cons, next_down, wardRec, hphase, hwant]
    rfl
  | checked => rw [labels_silent rfl, List.foldlM_nil]; rfl
  | retried target ret e _ _ _ hf hp ht he hv =>
    have happ : labels w [.sv sd .checkfail, e] = [.tried (jobOf target) ret.isSome] := by
      rw [← List.singleton_append, labels_append, labels_silent rfl, forkEvent_label hx he]
      rfl
    have howed : phaseOf (sd.sv w) = .owed (jobOf target) := by
      unfold phaseOf
      rw [if_neg (by omega), if_pos hf, ht]
      cases target <;> rfl
    rw [happ, List.foldlM_cons, wardRec, next_tried (.inr howed) hv he.1 (by simp)]
    rfl
  | reset wstat ret e _ _ hp _ hr he hv =>
    exact htwo rfl (next_gone_start hp hr) rfl (by simp) he hv
  | restarted wstat ret e _ _ hp hr hd he hv =>
    have hor : ((sd.sv w).has .wantdown || (sd.sv w).has .isonce) = false := by simpa using hd
    refine htwo rfl (next_gone_reset hp hr) ?_ (by simp) he hv
    rw [hor]
    rfl
  | finished wstat _ hp hr hd =>
    have hor : ((sd.sv w).has .wantdown || (sd.sv w).has .isonce) = true := by simpa using hd
    have hnf : (sd.sv w).has .failing = false := by
      by_contra hn
      have := hfail (by simpa using hn)
      omega
    rw [labels_present hx rfl, List.foldlM_cons, next_gone_reset hp hr, hor]
    simp [wardRec, phaseOf, hnf, hor, settle]

end Step

section Birth
variable {k : Key} {w : Which} {s : Sys} {sd : Svdef}

/-- The first start of one of the pair, or main left down: what it adds, and the record. -/
def Begun (sig : ℕ → Option (List Char)) (sd : Svdef) (w : Which) (evs : List Event) (v : Subsv) :
    Prop :=
  (w = .main ∧ sd.has .down = true ∧ evs = [] ∧ v = sd.svMain.put .wantdown) ∨
  ((w = .main → sd.has .down = false) ∧ ∃ u ret e, evs = [e] ∧ u.has .wantdown = false ∧
    ForkEvent sig sd w u .start ret e ∧ Armed u .start ret v)

theorem startLog_begun (hb : Blank sd k) (hl : sd.has .haslog = true) :
    ∃ evs, history k .log (startLog s sd).1.trace = history k .log s.trace ++ evs ∧
      Begun s.sysstrSignal sd .log evs (startLog s sd).2.svLog := by
  have hclear : sd.svLog = .clear := hb.sv .log
  unfold startLog
  rw [if_pos hl]
  rcases run_sub s (sd.setSv .log (sd.svLog.put .islog)) .log .start with
    ⟨_, hn⟩ | ⟨_, _, ret, e, v, he, hv, h2, ht, _⟩
  · exact absurd hn (by simp [Present, hl, hclear])
  · have he' := he.congr (Svdef.setSv_key _ _ _) (Svdef.setSv_has sd .log _)
    refine ⟨[e], ?_, .inr ⟨by simp, _, ret, e, rfl, ?_, he', by rw [h2]; exact hv⟩⟩
    · rw [ht, history_append, history_cons, fork_mine he' hb.key]
      simp
    · simp [hclear]

theorem startMain_begun (hk : sd.key = k) (hm : sd.svMain = .clear) :
    ∃ evs, history k .main (startMain s sd).1.trace = history k .main s.trace ++ evs ∧
      Begun s.sysstrSignal sd .main evs (startMain s sd).2.svMain := by
  unfold startMain
  split
  · next hd =>
    generalize hx : (if sd.has .once = true then sd.setSv .main (sd.svMain.put .isonce) else sd) = x
    have hxk : x.key = sd.key := by rw [← hx]; split <;> simp
    have hxf (f : SvdefFlag) : x.has f = sd.has f := by rw [← hx]; split <;> simp
    have hxp : (x.sv .main).pid = 0 := by rw [← hx]; split <;> simp [hm]
    have hxw : (x.sv .main).has .wantdown = false := by rw [← hx]; split <;> simp [hm]
    rcases run_sub s x .main .start with ⟨_, hn⟩ | ⟨_, _, ret, e, v, he, hv, h2, ht, _⟩
    · exact absurd hn (by simp only [hxp]; simp [Present])
    · have he' := he.congr hxk hxf
      refine ⟨[e], ?_, .inr ⟨fun _ => hd, _, ret, e, rfl, hxw, he', by rw [h2]; exact hv⟩⟩
      rw [ht, history_append, history_cons, fork_mine he' hk]
      simp
  · next hd => exact ⟨[], by simp, .inl ⟨rfl, by simpa using hd, rfl, rfl⟩⟩

theorem firstStart_begun (hb : Blank sd k) (hx : Present sd w) :
    ∃ evs, history k w (firstStart s sd).1.trace = history k w s.trace ++ evs ∧
      Begun s.sysstrSignal sd w evs ((firstStart s sd).2.sv w) := by
  obtain ⟨hsig, hm, h1, -⟩ := startLog_sub (s := s) hb
  have hkept := startLog_kept s sd
  rw [firstStart_eq]
  cases w with
  | log =>
    obtain ⟨evs, h2, h3⟩ := startLog_begun (s := s) hb (hx rfl)
    obtain ⟨h4, h5, -⟩ := startMain_sub (s := (startLog s sd).1) (hkept.key.trans hb.key) hm
    exact ⟨evs, h5.trans h2, by rw [Svdef.sv_log, h4]; exact h3⟩
  | main =>
    obtain ⟨evs, h2, h3⟩ := startMain_begun (s := (startLog s sd).1) (hkept.key.trans hb.key) hm
    refine ⟨evs, h2.trans (by rw [h1]), ?_⟩
    rw [hsig] at h3
    rcases h3 with ⟨hw, hd, he, hv⟩ | ⟨hd, u, ret, e, he, hu, hf, hv⟩
    · refine .inl ⟨hw, by simpa using hd, he, ?_⟩
      have hclear : sd.svMain = .clear := hb.sv .main
      rw [Svdef.sv_main, hv, hm, hclear]
    · refine .inr ⟨fun hw => by simpa using hd hw, u, ret, e, he, hu, ?_, hv⟩
      exact hf.congr hkept.key fun f => startLog_has s sd f

theorem begun_ward {sig : ℕ → Option (List Char)} {evs : List Event} {v : Subsv} {n : ℕ}
    (hb : Blank sd k) (hx : Present sd w) (h : Begun sig sd w evs v) :
    (labels w (.sv sd (.activate n) :: evs)).foldlM next first = some (wardRec v) := by
  rw [← List.singleton_append, labels_append, labels_present hx rfl]
  rcases h with ⟨rfl, hd, rfl, rfl⟩ | ⟨hd, u, ret, e, rfl, hu, he, hv⟩
  · have hclear : sd.svMain = .clear := hb.sv .main
    simp [next, first, hd, wardRec, phaseOf, hclear, settle]
  · have hwant : (decide (w = .log) || !sd.has .down) = true := by
      cases w with
      | log => rfl
      | main => simp [hd rfl]
    rw [hwant, forkEvent_label hx he, List.singleton_append, List.foldlM_cons]
    have hborn : next first (.born true) = some ⟨.due (jobOf .start), true⟩ := rfl
    have htried : next ⟨.due (jobOf .start), true⟩ (.tried (jobOf .start) ret.isSome) =
        some (wardRec v) := next_tried (.inl rfl) hv he.1 hu
    rw [hborn, Option.bind_eq_bind, Option.bind_some, List.foldlM_cons, htried]
    rfl

end Birth

section Life
variable {sig : ℕ → Option (List Char)} {k : Key} {w : Which}

/-- What is not there adds nothing to the life. -/
theorem subStep_absent {sd : Svdef} {evs : List Event} {v : Subsv} (hx : ¬ Present sd w)
    (hs : SubStep sig sd w evs v) : labels w evs = [] := by
  cases hs with
  | idle => rfl
  | signalled => exact labels_absent hx _
  | downed => exact labels_absent hx _
  | flagged => exact labels_absent hx _
  | wantculled => exact labels_absent hx _
  | checked => exact labels_absent hx _
  | commanded _ _ _ _ _ _ hp => exact absurd hp hx
  | retried _ _ _ _ _ hp => exact absurd hp hx
  | reset _ _ _ _ hp => exact absurd hp hx
  | restarted _ _ _ _ hp => exact absurd hp hx
  | finished _ hp => exact absurd hp hx

theorem serviceStep_ward {s s' : Sys} {e e' : Option Svdef} (h : ServiceStep k s e s' e')
    (hi : run (labels w (history k w s.trace)) = some (wardOf w e)) :
    run (labels w (history k w s'.trace)) = some (wardOf w e') := by
  cases h with
  | frame hf => rwa [frame_history hf]
  | fail hf => rwa [failed_history hf]
  | entry hk hok hstep ht =>
    next sd sd' =>
    obtain ⟨evs, h1, h2, -⟩ := entry_sub (w := w) hk hok hstep
    have hpres := kept_present (Kept.entryStep hstep) w
    rw [h1, labels_append, run_append, hi, Option.bind_some]
    simp only [wardOf, hpres]
    by_cases hx : Present sd w
    · rw [if_pos hx, if_pos hx]
      exact subStep_ward hx (hok.failing w) h2
    · rw [if_neg hx, if_neg hx, subStep_absent hx h2]
      rfl
  | activate ht hc ho =>
    next s1 sd =>
    have h0 : history k w (s1.emitSv sd (.activate s.serial)).trace =
        history k w s.trace ++ [.sv sd (.activate s.serial)] := by
      simp [emitSv_history, opened_history ho, mine, ho.blank.key]
    have hkept := firstStart_kept (s1.emitSv sd (.activate s.serial)) sd
    have hpres : Present ((firstStart (s1.emitSv sd (.activate s.serial)) sd).2.put .active) w ↔
        Present sd w := by
      rw [← kept_present hkept w]
      simp [Present]
    simp only [wardOf, hpres]
    by_cases hx : Present sd w
    · obtain ⟨evs, h1, h2⟩ := firstStart_begun (s := s1.emitSv sd (.activate s.serial)) ho.blank hx
      rw [if_pos hx, h1, h0, List.append_assoc, List.singleton_append, labels_append, run_append,
        hi]
      exact begun_ward ho.blank hx h2
    · obtain ⟨evs, h1, h2⟩ := firstStart_sub (s := s1.emitSv sd (.activate s.serial)) ho.blank w
      have hnone : labels w (.sv sd (.activate s.serial) :: evs) = [] := by
        rw [← List.singleton_append, labels_append, labels_absent hx, List.nil_append]
        cases h2 with
        | down => rfl
        | start _ _ _ _ hp => exact absurd hp hx
      rw [if_neg hx, h1, h0, List.append_assoc, List.singleton_append, labels_append, hnone,
        List.append_nil]
      exact hi
  | cull hk hok hc =>
    next sd =>
    have h0 : history k w (perpdSvdefClose (s.emitSv sd .cull) sd).trace =
        history k w s.trace ++ [.sv sd .cull] := by
      rw [perpdSvdefClose, close_history, emitSv_history]
      simp [mine, hk]
    rw [h0, labels_append, run_append, hi, Option.bind_some]
    simp only [wardOf]
    by_cases hx : Present sd w
    · -- what is removed has no process
      have hp : (sd.sv w).pid = 0 := by
        simp only [perpdSvdefCullok, Bool.and_eq_true, Bool.not_eq_true', decide_eq_false_iff_not,
          Bool.and_eq_false_iff] at hc
        cases w with
        | main =>
          have := hc.1.2
          simp only [Svdef.sv_main]
          omega
        | log =>
          have := hc.2.resolve_left (by simp [hx rfl])
          simp only [Svdef.sv_log]
          omega
      rw [if_pos hx, labels_present hx rfl, List.foldlM_cons]
      rcases phaseOf_zero hp with hphase | ⟨job, hphase⟩ <;> simp [next, wardRec, hphase, first]
    · rw [if_neg hx, labels_absent hx]
      rfl

end Life

theorem ward_inv (cfg : Config) (k : Key) (w : Which) :
    ServiceInv cfg k (fun _ _ => True) fun s e =>
      run (labels w (history k w s.trace)) = some (wardOf w e) :=
  ⟨by simp [wardOf], fun hstep _ hi => serviceStep_ward hstep hi⟩

/-- In every run the life of every subservice is one of a supervised process, and
the table says where it stands. -/
theorem life_supervised (cfg : Config) (inputs : List IterIn) (k : Key) (w : Which) :
    let p := perpdRun cfg inputs
    run (labels w (history k w p.sys.trace)) = some (wardOf w (entryOf k p.svdefs)) :=
  (ward_inv cfg k w).run inputs fun _ _ _ _ => trivial

section
variable (cfg : Config) (inputs : List IterIn) {sd : Svdef} {w : Which}

theorem entry_ward (hsd : sd ∈ (perpdRun cfg inputs).svdefs) (hx : Present sd w) :
    run (labels w (history sd.key w (perpdRun cfg inputs).sys.trace)) =
      some (wardRec (sd.sv w)) := by
  have hlife := (ward_inv cfg sd.key w).run inputs fun _ _ _ _ => trivial
  have hentry : entryOf sd.key (perpdRun cfg inputs).svdefs = some sd :=
    entryOf_of_mem (run_phase cfg inputs).ok.ok.nodup hsd
  rwa [hentry, wardOf, if_pos hx] at hlife

/-- What is not to be down runs, unless its `fork()` failed. -/
theorem wanted_up (hsd : sd ∈ (perpdRun cfg inputs).svdefs) (hx : Present sd w)
    (hw : (sd.sv w).has .wantdown = false) :
    (perpdRun cfg inputs).sys.children (sd.sv w).pid = some (sd.key, w) ∨
      (sd.sv w).has .failing = true := by
  have hidle := (wanted_not_idle (entry_ward cfg inputs hsd hx) (by simp [wardRec, hw])).1
  by_cases hp : 0 < (sd.sv w).pid
  · exact .inl (((run_phase cfg inputs).ok.ok.ok sd hsd).owned w hp)
  · refine .inr ?_
    by_contra hf
    exact hidle (by simp [wardRec, phaseOf, hp, hf])

end

/-- What a service is owed: each of the pair that is not to be down has its
process, which perpd has not reaped, or its `fork()` failed and is to be tried
again; and no reset has run that did not follow a start of its own. -/
structure Supervised (p : Perpd) (sd : Svdef) (w : Which) : Prop where
  up : (sd.sv w).has .wantdown = false →
    p.sys.children (sd.sv w).pid = some (sd.key, w) ∨ (sd.sv w).has .failing = true
  resets : succeeded .reset (labels w (history sd.key w p.sys.trace)) ≤
    succeeded .start (labels w (history sd.key w p.sys.trace))

theorem services_supervised (cfg : Config) (inputs : List IterIn) :
    let p := perpdRun cfg inputs
    ∀ sd ∈ p.svdefs, ∀ w, Present sd w → Supervised p sd w := by
  intro p sd hsd w hx
  refine ⟨wanted_up cfg inputs hsd hx, ?_⟩
  exact (Nat.le_add_right _ _).trans (reset_le_start (entry_ward cfg inputs hsd hx))

theorem services_supervised_foo :
    let p := perpdRun (plain [some 100]) [scans quiet [foo]]
    ∃ sd, p.svdefs = [sd] ∧ Supervised p sd .main := by
  intro p
  have hlen : p.svdefs.length = 1 := by decide +kernel
  obtain ⟨sd, hsd⟩ := List.length_eq_one_iff.mp hlen
  exact ⟨sd, hsd, services_supervised (plain [some 100]) [scans quiet [foo]] sd
    (by change sd ∈ p.svdefs; simp [hsd]) .main (by simp [Present])⟩

end Perp.PerpdSupervise
