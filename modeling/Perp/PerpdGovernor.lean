import Mathlib.Data.UInt
import Perp.PerpdClient
import Perp.PerpdClock
import Perp.PerpdService
import Perp.PerpdStill

set_option autoImplicit false

/-!
# The respawn governor

The parent computes how long a child waits before it becomes the service, and
when the next one may. The waits queue up: a start can be scheduled behind
others that lie in the future themselves.
-/
namespace Perp.PerpdGovernor
open PerpdState PerpdSvdef PerpdConn PerpdMainloop PerpdClient PerpdFrame PerpdEntry PerpdEffect
  PerpdSlots PerpdActivate PerpdMoves PerpdPhases PerpdRuns PerpdService PerpdStill PerpdClock
  TraceLaw

def second : ℕ := 1000000000

/-- The scheduled start instants of a subservice in its current activation, the last at the end. -/
def planned (k : Key) (w : Which) : Monitor Event (List ℕ) where
  init := []
  next q
    | .sv sd (.activate _) => if sd.key = k then [] else q
    | .sv sd (.fork w' .start _ now towait _ (some _)) =>
      if sd.key = k ∧ w' = w then q ++ [now.nanos + towait.nanos] else q
    | _ => q

/-- A start is delayed only if the previous instant is less than a second past,
and is scheduled a second or more after every one before it. -/
def Governed (past : List Event) : Event → Prop
  | .sv sd (.fork w .start _ now towait _ ret) =>
    (towait.iszero = false → ∃ prev ∈ ((planned sd.key w).run past).getLast?,
      now.nanos < prev + second) ∧
    (ret.isSome = true → ∀ prev ∈ (planned sd.key w).run past,
      prev + second ≤ now.nanos + towait.nanos)
  | _ => True

/-- The second after a scheduled instant can be told. -/
def Fits (_ : List Event) : Event → Prop
  | .sv _ (.fork _ .start _ now towait _ _) =>
    now.nanos + towait.nanos + second < 2 ^ 64 * second
  | _ => True

/-- The record of when a start is in order, a second after the last one. -/
structure Paced (v : Subsv) (q : List ℕ) : Prop where
  normal : v.whenOk.Normal
  spaced : ∀ prev ∈ q, prev + second ≤ v.whenOk.nanos
  last : 0 < v.whenOk.nanos → ∃ prev ∈ q.getLast?, v.whenOk.nanos = prev + second

theorem Paced.clear : Paced .clear [] :=
  ⟨by decide, by simp, fun h => absurd h (by decide)⟩

theorem Paced.of_eq {u v : Subsv} {q : List ℕ} (h : Paced u q) (he : v.whenOk = u.whenOk) :
    Paced v q := by
  obtain ⟨h1, h2, h3⟩ := h
  constructor <;> rwa [he]

section Arithmetic
variable {v : Subsv} {now : Tain} (hv : v.whenOk.Normal) (hn : now.Normal)
include hv hn

theorem governor_exact :
    (governor v .start now).Normal ∧
    now.nanos + (governor v .start now).nanos = max now.nanos v.whenOk.nanos ∧
    ((governor v .start now).iszero = false → now.nanos < v.whenOk.nanos) := by
  have hless := Tain.less_iff hn hv
  by_cases hlt : now.nanos < v.whenOk.nanos
  · have hg : governor v .start now = Tain.minus v.whenOk now := by
      simp [governor, hless.mpr hlt]
    obtain ⟨h1, h2⟩ := Tain.minus_exact hv hn hlt.le
    rw [hg]
    exact ⟨h1, by omega, fun _ => hlt⟩
  · have hg : governor v .start now = .zero := by
      have hno : Tain.less now v.whenOk = false := by
        rw [← Bool.not_eq_true, hless]
        exact hlt
      simp [governor, hno]
    rw [hg]
    have hz : Tain.zero.nanos = 0 := by decide
    exact ⟨by decide, by omega, fun h => absurd h (by decide)⟩

theorem whenOk_exact (hfit : now.nanos + (governor v .start now).nanos + second < 2 ^ 64 * second) :
    let t := Tain.plus (Tain.plus now (.load 1 0)) (governor v .start now)
    t.Normal ∧ t.nanos = now.nanos + (governor v .start now).nanos + second := by
  obtain ⟨hg, _, _⟩ := governor_exact hv hn
  have h1 : (Tain.load 1 0).Normal := by decide
  have h1' : (Tain.load 1 0).nanos = 1000000000 := by decide
  unfold second at hfit ⊢
  obtain ⟨hp, hpn⟩ := Tain.plus_exact hn h1 (by omega)
  obtain ⟨ht, htn⟩ := Tain.plus_exact hp hg (by omega)
  exact ⟨ht, by omega⟩

end Arithmetic

/-- What holds of an entry and the past: the record of each of the pair, and
that all starts so far were governed. -/
structure Pace (s : Sys) (sd : Svdef) : Prop where
  clock : ∀ n, (s.clock n).Normal
  governed : Along Governed s.trace
  paced : ∀ w, Paced (sd.sv w) ((planned sd.key w).run s.trace)

/-- Neither a fork nor an activation. -/
def Unplanned : Event → Prop
  | .sv _ (.activate _) | .sv _ (.fork _ _ _ _ _ _ _) => False
  | _ => True

theorem governed_of_unplanned {past : List Event} {e : Event} (h : Unplanned e) :
    Governed past e := by
  unfold Governed
  split
  · exact h.elim
  · trivial

theorem planned_ignores {k : Key} {w : Which} {e : Event} (h : e.key = some k → Unplanned e)
    (q : List ℕ) : (planned k w).next q e = q := by
  simp only [planned]
  split
  · exact if_neg fun hk => h (congrArg some hk)
  · exact if_neg fun hk => h (congrArg some hk.1)
  · rfl

section Steps
variable {s s' : Sys} {sd sd' : Svdef}

theorem planned_within (h : Within Unplanned s s') (k : Key) (w : Which) :
    (planned k w).run s'.trace = (planned k w).run s.trace := by
  obtain ⟨evs, ht, he⟩ := h
  rw [ht, Monitor.run_append_of_ignored _ _ _ fun e hm => planned_ignores fun _ => he e hm]

theorem planned_frame {k : Key} (h : Frame k s s') (w : Which) :
    (planned k w).run s'.trace = (planned k w).run s.trace := by
  obtain ⟨evs, ht, hk, _⟩ := h.grows
  rw [ht, Monitor.run_append_of_ignored _ _ _ fun e hm => planned_ignores fun hx =>
    absurd hx (hk e hm)]

theorem governed_within (h : Along Governed s.trace) (hw : Within Unplanned s s') :
    Along Governed s'.trace := by
  obtain ⟨evs, ht, he⟩ := hw
  rw [ht]
  exact h.append_free fun e hm _ => governed_of_unplanned (he e hm)

theorem normal_later (h : ∀ n, (s.clock n).Normal) (hl : Later s s') :
    ∀ n, (s'.clock n).Normal := by
  obtain ⟨m, hm⟩ := hl
  rw [hm]
  exact fun n => h (m + n)

theorem Pace.quiet (h : Pace s sd) (hw : Within Unplanned s s') (hl : Later s s')
    (hk : sd'.key = sd.key) (hv : ∀ w, (sd'.sv w).whenOk = (sd.sv w).whenOk) : Pace s' sd' where
  clock := normal_later h.clock hl
  governed := governed_within h.governed hw
  paced w := by
    rw [hk, planned_within hw]
    exact (h.paced w).of_eq (hv w)

theorem perpdTriggerFail_trace (s : Sys) : (perpdTriggerFail s).trace = s.trace := by
  unfold perpdTriggerFail
  split <;> rfl

theorem run_forks (s : Sys) (sd : Svdef) (which : Which) (target : Target) :
    perpdSvdefRun s sd which target = (s, sd) ∨ ∃ x prog io ret v, x.key = sd.key ∧
      (perpdSvdefRun s sd which target).1.trace = s.trace ++ [.sv x (.fork which target prog
        (s.clock 0) (governor (sd.sv which) target (s.clock 0)) io ret)] ∧
      (perpdSvdefRun s sd which target).2 = sd.setSv which v ∧
      v.whenOk = if target = .start ∧ ret.isSome then
        Tain.plus (Tain.plus (s.clock 0) (.load 1 0)) (governor (sd.sv which) target (s.clock 0))
      else (sd.sv which).whenOk := by
  have haim : (aim (sd.sv which) target).whenOk = (sd.sv which).whenOk := by cases target <;> rfl
  have hgov : governor (aim (sd.sv which) target) target (s.clock 0) =
      governor (sd.sv which) target (s.clock 0) := by
    simp only [governor, haim]
  unfold perpdSvdefRun
  split
  · exact Or.inl rfl
  split
  · exact Or.inl rfl
  right
  dsimp only
  obtain ⟨ret, hf, _⟩ := fork_spec s.tainNow.2
    ((sd.setSv which (aim (sd.sv which) target)).key, which)
  simp only [hf]
  refine ⟨sd.setSv which (aim (sd.sv which) target),
    runProg s.sysstrSignal (sd.setSv which (aim (sd.sv which) target)).name which target
      (aim (sd.sv which) target).wstat,
    childIo s.tainNow.2.fds (sd.setSv which (aim (sd.sv which) target)) which target, ret, ?_⟩
  rw [← hgov]
  cases ret with
  | none =>
    refine ⟨(aim (sd.sv which) target).put .failing, Svdef.setSv_key _ _ _, ?_,
      Svdef.setSv_setSv _ _ _ _, ?_⟩
    · rw [perpdTriggerFail_trace]
      rfl
    · rw [if_neg (by simp)]
      exact haim
  | some pid =>
    refine ⟨forked (aim (sd.sv which) target) target pid (s.clock 0)
        (governor (aim (sd.sv which) target) target (s.clock 0)), Svdef.setSv_key _ _ _, rfl,
      Svdef.setSv_setSv _ _ _ _, ?_⟩
    simp only [forked, Option.isSome_some, and_true, haim]

theorem Pace.run (h : Pace s sd) (which : Which) (target : Target)
    (hfit : Along Fits (perpdSvdefRun s sd which target).1.trace) :
    Pace (perpdSvdefRun s sd which target).1 (perpdSvdefRun s sd which target).2 := by
  rcases run_forks s sd which target with he | ⟨x, prog, io, ret, v, hx, ht, hsd, hv⟩
  · rwa [he]
  have hnow := h.clock 0
  have hw := h.paced which
  generalize hq : (planned sd.key which).run s.trace = q at hw
  -- the other of the pair sees nothing of it
  have hplanned (w : Which) : (planned sd.key w).run (perpdSvdefRun s sd which target).1.trace =
      if w = which ∧ target = .start ∧ ret.isSome then
        q ++ [(s.clock 0).nanos + (governor (sd.sv which) target (s.clock 0)).nanos]
      else (planned sd.key w).run s.trace := by
    rw [ht, Monitor.run_concat]
    cases target <;> cases ret <;> simp only [planned, hx, Option.isSome_none, Option.isSome_some,
      Bool.false_eq_true, reduceCtorEq, and_true, and_false, true_and, ↓reduceIte]
    by_cases hww : w = which
    · subst hww
      rw [if_pos rfl, if_pos rfl, ← hq]
      rfl
    · rw [if_neg (Ne.symm hww), if_neg hww]
  refine ⟨normal_later h.clock (run_later s sd which target), ?_, fun w => ?_⟩
  · rw [ht, along_concat]
    refine ⟨h.governed, ?_⟩
    cases target with
    | reset => trivial
    | start =>
      obtain ⟨_, hmax, hlate⟩ := governor_exact hw.normal hnow
      refine ⟨fun hz => ?_, fun _ prev hm => ?_⟩
      · obtain ⟨prev, hlast, hp⟩ := hw.last (by have := hlate hz; omega)
        exact ⟨prev, by rwa [hx, hq], by have := hlate hz; omega⟩
      · rw [hx, hq] at hm
        have := hw.spaced prev hm
        omega
  · rw [hsd, Svdef.setSv_key, hplanned, Svdef.setSv_sv]
    by_cases hww : which = w
    · subst hww
      rw [if_pos rfl]
      by_cases hstart : target = .start ∧ ret.isSome = true
      · obtain ⟨rfl, hret⟩ := hstart
        rw [if_pos ⟨rfl, rfl, hret⟩]
        rw [if_pos ⟨rfl, hret⟩] at hv
        have hroom : Fits s.trace (.sv x (.fork which .start prog (s.clock 0)
            (governor (sd.sv which) .start (s.clock 0)) io ret)) := by
          rw [ht] at hfit
          exact ((along_concat _ _).mp hfit).2
        obtain ⟨hok, hexact⟩ := whenOk_exact hw.normal hnow hroom
        obtain ⟨_, hmax, _⟩ := governor_exact hw.normal hnow
        rw [← hv] at hok hexact
        refine ⟨hok, fun prev hm => ?_, fun _ => ⟨_, by simp, hexact⟩⟩
        rw [hexact]
        rcases List.mem_append.mp hm with hm | hm
        · have := hw.spaced prev hm
          omega
        · rw [List.mem_singleton.mp hm]
      · rw [if_neg hstart] at hv
        rw [if_neg fun hx => hstart hx.2]
        exact (h.paced which).of_eq hv
    · rw [if_neg hww, if_neg fun hx => hww hx.1.symm]
      exact h.paced w

@[simp] theorem put_whenOk (v : Subsv) (f : SubsvFlag) : (v.put f).whenOk = v.whenOk := rfl
@[simp] theorem drop_whenOk (v : Subsv) (f : SubsvFlag) : (v.drop f).whenOk = v.whenOk := rfl

@[simp] theorem reapedSv_whenOk (v : Subsv) (wstat : ℕ) : (reapedSv v wstat).whenOk = v.whenOk := by
  unfold reapedSv
  dsimp only
  split <;> rfl

theorem setSv_whenOk (sd : Svdef) (which w : Which) (v : Subsv)
    (hv : v.whenOk = (sd.sv which).whenOk) : ((sd.setSv which v).sv w).whenOk = (sd.sv w).whenOk := by
  rw [Svdef.setSv_sv]
  split
  · next h => rw [hv, h]
  · rfl

theorem calmStep_whenOk (hs : CalmStep s sd s' sd') (w : Which) :
    (sd'.sv w).whenOk = (sd.sv w).whenOk := by
  have hcull : ((cullFlags sd).sv w).whenOk = (sd.sv w).whenOk := by
    by_cases h : sd.has .haslog <;> cases w <;> simp [cullFlags, h]
  cases hs with
  | signal which cmd pg hc hsome =>
    unfold doSignal
    dsimp only
    split <;> rfl
  | cont which pg hc => exact setSv_whenOk sd which w _ rfl
  | pause which pg hc =>
    unfold doPause
    dsimp only
    split
    · exact setSv_whenOk sd which w _ rfl
    · rfl
  | want which hc => exact setSv_whenOk sd which w _ rfl
  | note | status => rfl
  | mark sd' hm => rw [hm.sv]
  | wantcull =>
    rcases wantcull_cases s sd with ⟨_, he⟩ | ⟨_, _, _, he⟩ | ⟨_, _, he⟩ <;> rw [he]
    · exact (setSv_whenOk _ .main w ((cullFlags sd).svMain.drop .ispaused) rfl).trans hcull
    · exact (setSv_whenOk _ .log w ((cullFlags sd).svLog.drop .ispaused) rfl).trans hcull
    · exact hcull

theorem calm_within (h : Calm s sd s' sd') : Within Unplanned s s' := by
  obtain ⟨evs, ht, he, _⟩ := h.grows
  refine ⟨evs, ht, fun e hm => ?_⟩
  have := he e hm
  unfold Quiet at this
  split at this <;> first | exact this.elim | trivial

theorem checkfailOne_pace (h : Pace s sd) (which : Which)
    (hfit : Along Fits (checkfailOne s sd which).1.trace) :
    Pace (checkfailOne s sd which).1 (checkfailOne s sd which).2 := by
  unfold checkfailOne at hfit ⊢
  split
  · next hf =>
    rw [if_pos hf] at hfit
    exact h.run _ _ hfit
  · exact h

theorem entryStep_pace (hs : EntryStep s sd s' sd') (h : Pace s sd)
    (hfit : Along Fits s'.trace) : Pace s' sd' := by
  cases hs with
  | reap which wstat hp hw =>
    have h0 : Pace ((s.waited (sd.sv which).pid).emitSv sd (.reap which wstat))
        (sd.setSv which (reapedSv (sd.sv which) wstat)) :=
      h.quiet ⟨[.sv sd (.reap which wstat)], rfl, by simp [Unplanned]⟩ (.of_eq rfl)
        (Svdef.setSv_key _ _ _) fun w => setSv_whenOk sd which w _ (by simp)
    rcases reaped_cases (s.waited (sd.sv which).pid) sd which wstat with
      ⟨_, he⟩ | ⟨_, _, he⟩ | ⟨_, _, rfl, _, _, hl, he⟩ | ⟨_, _, _, he⟩ <;> rw [he] at hfit ⊢
    · exact h0.run _ _ hfit
    · exact h0.run _ _ hfit
    · refine h0.quiet (calm_within (Calm.reapedShutdown _ _ (by simpa using hl))) (.of_eq ?_)
        (Svdef.setSv_key _ _ _) fun w => ?_
      · simp only [reapedShutdown, kill_clock, apply_ite Sys.clock, closeLogpipe_clock, ite_self]
      · cases w <;> rfl
    · exact h0
  | checkfail =>
    have h0 : Pace (s.emitSv sd .checkfail) sd :=
      h.quiet ⟨[.sv sd .checkfail], rfl, by simp [Unplanned]⟩ (.of_eq rfl) rfl fun _ => rfl
    rcases checkfail_cases s sd with ⟨_, he⟩ | ⟨_, _, he⟩ | ⟨_, _, he⟩ <;> rw [he] at hfit ⊢
    · exact h0
    · exact checkfailOne_pace h0 _ hfit
    · have hpast : Along Fits (checkfailOne (s.emitSv sd .checkfail) sd .log).1.trace := by
        obtain ⟨evs, ht⟩ := checkfailOne_trace (checkfailOne (s.emitSv sd .checkfail) sd .log).1
          (checkfailOne (s.emitSv sd .checkfail) sd .log).2 .main
        rw [ht] at hfit
        exact hfit.of_append
      exact checkfailOne_pace (checkfailOne_pace h0 _ hpast) _ hfit
  | start which cmd hc hm =>
    have h0 : Pace (s.emitSv sd (.control which cmd)) (startFlags sd which cmd) :=
      h.quiet ⟨[.sv sd (.control which cmd)], rfl, by simp [Unplanned]⟩ (.of_eq rfl)
        (startFlags_key _ _ _) fun w => setSv_whenOk sd which w _ (by split <;> rfl)
    rcases start_cases s sd which cmd with ⟨_, he⟩ | ⟨_, he⟩ <;> rw [he] at hfit ⊢
    · exact h0.run _ _ hfit
    · exact h0
  | calm s' sd' hs =>
    have hcalm := Calm.of_calmStep hs
    exact h.quiet (calm_within hcalm) (.of_eq (calmStep_clock hs)) hcalm.kept.key
      (calmStep_whenOk hs)

theorem firstStart_pace (h : Pace s sd) (hfit : Along Fits (firstStart s sd).1.trace) :
    Pace (firstStart s sd).1 (firstStart s sd).2 := by
  have hflag {s : Sys} {sd : Svdef} (h : Pace s sd) (w : Which) (f : SubsvFlag) :
      Pace s (sd.setSv w ((sd.sv w).put f)) :=
    h.quiet (.refl s) (.refl s) (Svdef.setSv_key _ _ _) fun w' => setSv_whenOk sd w w' _ rfl
  rw [firstStart_eq] at hfit ⊢
  have hlog (hfit : Along Fits (startLog s sd).1.trace) :
      Pace (startLog s sd).1 (startLog s sd).2 := by
    unfold startLog at hfit ⊢
    split
    · next hl =>
      rw [if_pos hl] at hfit
      exact (hflag h .log .islog).run _ _ hfit
    · exact h
  generalize startLog s sd = r at *
  unfold startMain at hfit ⊢
  split
  · next hd =>
    rw [if_pos hd] at hfit
    obtain ⟨evs, ht⟩ := run_trace r.1
      (if r.2.has .once then r.2.setSv .main (r.2.svMain.put .isonce) else r.2) .main .start
    have hr := hlog (Along.of_append (ht ▸ hfit))
    refine Pace.run ?_ _ _ hfit
    split
    · exact hflag hr .main .isonce
    · exact hr
  · next hd =>
    rw [if_neg hd] at hfit
    exact hflag (hlog hfit) .main .wantdown

end Steps

/-- What holds of the table. -/
structure Governing (t : Table) : Prop where
  clock : ∀ n, (t.sys.clock n).Normal
  governed : Along Governed t.sys.trace
  paced : ∀ sd ∈ t.svdefs, ∀ w, Paced (sd.sv w) ((planned sd.key w).run t.sys.trace)

theorem Governing.quiet {t t' : Table} (h : Governing t) (hw : Within Unplanned t.sys t'.sys)
    (hl : Later t.sys t'.sys) (hsub : ∀ sd ∈ t'.svdefs, sd ∈ t.svdefs) : Governing t' where
  clock := normal_later h.clock hl
  governed := governed_within h.governed hw
  paced sd hsd w := by
    rw [planned_within hw]
    exact h.paced sd (hsub sd hsd) w

theorem governing_move {t t' : Table} (ht : TableOk t) (hm : Move t t')
    (hfit : Along Fits t'.sys.trace) (h : Governing t) : Governing t' := by
  have hl := move_later hm
  cases hm with
  | entry i sd s' sd' hi hs hterm =>
    have hmem := List.mem_of_getElem? hi
    have hp := entryStep_pace hs ⟨h.clock, h.governed, h.paced sd hmem⟩ hfit
    refine ⟨hp.clock, hp.governed, fun x hx w => ?_⟩
    rcases mem_set_cases hx with rfl | ⟨j, hij, hj⟩
    · exact hp.paced w
    · have hne := key_ne_of_ne ht.nodup hi hj hij
      have hframe := entryStep_frame hs (ht.ok sd hmem) hne
      rw [planned_frame hframe]
      exact h.paced x (List.mem_of_getElem? hj) w
  | activate svdir st d s' sd hnew hroom hterm ha =>
    have hnk := lookup_eq_none hnew
    obtain ⟨_, _, hframe⟩ := activate_svOk (ht.orphans _ hnk) ha
    obtain ⟨sd0, s1, ho, rfl, rfl⟩ := activate_some ha
    have hopen : Within Unplanned t.sys s1 := opened_within ho fun _ _ => trivial
    have h0 : Pace (s1.emitSv sd0 (.activate t.sys.serial)) sd0 := by
      have hclock := normal_later h.clock (opened_later ho)
      refine ⟨hclock, ?_, fun w => ?_⟩
      · exact (along_concat _ _).mpr ⟨governed_within h.governed hopen, trivial⟩
      · rw [ho.blank.sv w]
        simpa [Sys.emitSv, Sys.emit, planned] using Paced.clear
    have hp := firstStart_pace h0 hfit
    refine ⟨hp.clock, hp.governed, fun x hx w => ?_⟩
    rcases List.mem_append.mp hx with hx | hx
    · have hne : (st.dev, st.ino) ≠ x.key := fun he => hnk (he ▸ List.mem_map_of_mem hx)
      rw [planned_frame (hframe _ hne)]
      exact h.paced x hx w
    · rw [List.mem_singleton.mp hx]
      simpa using hp.paced w
  | activateFail svdir st d s' hnew ha =>
    exact h.quiet (failed_within (activateFail_frame ha) (fun _ _ => trivial) fun _ _ => trivial)
      hl fun _ hx => hx
  | cull i sd hi hc =>
    refine h.quiet ((Within.emit _ _ trivial).trans (.close _ _ fun _ => trivial)) hl fun x hx => ?_
    exact (swapRemove_perm _ _ _ hi).mem_iff.mpr (List.mem_cons_of_mem _ hx)
  | accept fd hf => exact h.quiet (.opened _ _ _ trivial) hl fun _ hx => hx
  | drop fd conns hc => exact h.quiet (.close _ _ fun _ => trivial) hl fun _ hx => hx
  | term hterm =>
    refine h.quiet ⟨[.term, .closed t.sys.fdListen (t.sys.fds t.sys.fdListen)], ?_, ?_⟩ hl
      fun _ hx => hx
    · simp [terminated, Sys.close, Sys.emit]
    · simp [Unplanned]
  | idle s' hi =>
    obtain ⟨evs, he, hp⟩ := hi.grows
    refine h.quiet ⟨evs, he, fun e hm => ?_⟩ hl fun _ hx => hx
    have := hp e hm
    unfold Plain at this
    split at this <;> first | exact this.elim | trivial

instance (past : List Event) : (e : Event) → Decidable (Governed past e)
  | .sv sd (.fork w .start _ now towait _ ret) => inferInstanceAs (Decidable
    ((towait.iszero = false → ∃ prev ∈ ((planned sd.key w).run past).getLast?,
      now.nanos < prev + second) ∧
    (ret.isSome = true → ∀ prev ∈ (planned sd.key w).run past,
      prev + second ≤ now.nanos + towait.nanos)))
  | .sv _ (.fork _ .reset _ _ _ _ _) | .sv _ (.activate _) | .sv _ (.reap _ _)
  | .sv _ (.kill _ _ _) | .sv _ (.control _ _) | .sv _ .checkfail | .sv _ .wantcull
  | .sv _ (.closeLog _ _) | .sv _ .cull | .sv _ .status => isTrue trivial
  | .opened _ _ | .closed _ _ | .request _ | .sent _ _ | .term | .scan | .scanned => isTrue trivial

instance (past : List Event) : (e : Event) → Decidable (Fits past e)
  | .sv _ (.fork _ .start _ now towait _ _) =>
    inferInstanceAs (Decidable (now.nanos + towait.nanos + second < 2 ^ 64 * second))
  | .sv _ (.fork _ .reset _ _ _ _ _) | .sv _ (.activate _) | .sv _ (.reap _ _)
  | .sv _ (.kill _ _ _) | .sv _ (.control _ _) | .sv _ .checkfail | .sv _ .wantcull
  | .sv _ (.closeLog _ _) | .sv _ .cull | .sv _ .status => isTrue trivial
  | .opened _ _ | .closed _ _ | .request _ | .sent _ _ | .term | .scan | .scanned => isTrue trivial

/-- A clock that stands still. -/
def standing (sec : UInt64) : Config :=
  { plain [some 100, some 101, some 102] with clock := fun _ => ⟨sec, 500⟩ }

theorem standing_clock (sec : UInt64) : ClockOk (standing sec).clock :=
  ⟨fun _ => by simp [standing, Tain.Normal], fun _ => le_refl _⟩

/-- A service that exits at once, and its reset too. -/
def rapid : List IterIn := [scans quiet [foo], exits quiet [(100, 0)], exits quiet [(101, 0)]]

end Perp.PerpdGovernor
