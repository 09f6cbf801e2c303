import Perp.PerpdFailing
import Perp.PerpdLife
import Perp.PerpdRequests

set_option autoImplicit false

/-!
# A deactivation does not stall

An entry that is flagged CULL is removed when the last of its children is gone,
or its last fork has failed and is tried again.
-/
namespace Perp.PerpdStall
open PerpdState PerpdSvdef PerpdMainloop PerpdClient PerpdFrame PerpdEntry PerpdEffect PerpdSlots
  PerpdActivate PerpdMoves PerpdPhases PerpdRuns PerpdService PerpdLife PerpdRequests PerpdLeft
  PerpdFailing TraceLaw

/-- A recorded child is alive. -/
def Live (sd : Svdef) : Prop := ∃ w, Present sd w ∧ 0 < (sd.sv w).pid

/-- A fork for the entry failed. -/
def Failed (sd : Svdef) : Prop := ∃ w, Present sd w ∧ (sd.sv w).has .failing = true

/-- The next iteration retries a fork for the entry. -/
structure Retried (s : Sys) (sd : Svdef) : Prop where
  failed : Failed sd
  terminating : s.flagTerminating = false
  failing : 0 < s.flagFailing
  active : sd.has .active = true

/-- Every deactivation goes on, and when all is down perpd ends. -/
structure NoStall (w : Perpd) : Prop where
  culled : ∀ sd ∈ w.svdefs, sd.has .cull = true → Live sd ∨ Retried w.sys sd
  ended : w.sys.flagTerminating = true → (∀ sd ∈ w.svdefs, ¬ Live sd) → w.svdefs = []

/-- The retries pass over no entry that is due to be removed, and no fork of a
terminating perpd fails for an entry of which nothing else runs. -/
def GoesOn (past : List Event) : Event → Prop
  | .sv sd .checkfail => perpdSvdefCullok sd = true → sd.has .active = true
  | .sv sd (.fork _ _ _ _ _ _ none) => .term ∈ past → perpdSvdefCullok sd = false
  | _ => True

theorem live_iff {sd : Svdef} (hc : sd.has .cull = true) :
    Live sd ↔ perpdSvdefCullok sd = false := by
  constructor
  · rintro ⟨w, hx, hp⟩
    exact not_cullok hp hx
  · intro hn
    by_contra hl
    have hpid (w : Which) (hx : Present sd w) : (sd.sv w).pid = 0 := by
      by_contra hp
      exact hl ⟨w, hx, by omega⟩
    have := (cullok_iff sd).mpr ⟨hc, hpid .main (by simp [Present]),
      fun h => hpid .log (fun _ => h)⟩
    simp [hn] at this

/-- The retry of an entry that is due to be removed is pending. -/
def Pends (s : Sys) (sd : Svdef) : Prop :=
  Failed sd ∧ s.flagTerminating = false ∧ 0 < s.flagFailing

theorem Pends.stable : Stable Pends :=
  fun _ ht hf ⟨h, h1, h2⟩ => ⟨h, ht.trans h1, h2.trans_le hf⟩

theorem Pends.marked {s : Sys} {sd sd' : Svdef} (hm : Marked sd sd') (h : Pends s sd) :
    Pends s sd' := by
  obtain ⟨⟨w, hx, hf⟩, h1, h2⟩ := h
  refine ⟨⟨w, fun hw => ?_, by rwa [hm.sv w]⟩, h1, h2⟩
  rw [hm.flags _ (by simp) (by simp)]
  exact hx hw

/-- Where a dead child leaves an entry due to be removed and not counted, a retry is pending. -/
theorem reaped_pends {s : Sys} {sd : Svdef} (which : Which) (wstat : ℕ) (hok : SvOk s sd)
    (hterm : s.flagTerminating = true ↔ .term ∈ s.trace) (hp : 0 < (sd.sv which).pid) :
    let r := perpdReaped (s.waited (sd.sv which).pid) sd which wstat
    r.2 = false → perpdSvdefCullok r.1.2 = true → Along GoesOn r.1.1.trace → Pends r.1.1 r.1.2 := by
  intro r hflag hc hlaw
  obtain ⟨x, v, hf, _, hx, hr, hv, hpres⟩ := reaped_failed which wstat hok hp hflag hc
  obtain ⟨now, towait, ht⟩ := hf.trace
  have hnt : s.flagTerminating = false := by
    by_contra hn
    have hmem := hterm.mp (by simpa using hn)
    have hno := hlaw _ _ [] ht (List.mem_append_left _ hmem)
    exact absurd (hx.symm.trans hno) (by simp)
  have hfail := hf.failing
  rw [if_pos ⟨rfl, hnt⟩] at hfail
  have hpos : 0 < r.1.1.flagFailing := (Nat.succ_pos _).trans_eq hfail.symm
  refine ⟨⟨which, ?_, ?_⟩, hf.terminating.trans hnt, hpos⟩
  · rw [hr]
    simpa [Present] using hpres
  · rw [hr]
    simpa using hv

theorem checkfailOne_pid {s : Sys} {sd : Svdef} (which w : Which) (hp : 0 < (sd.sv w).pid) :
    ((checkfailOne s sd which).2.sv w).pid = (sd.sv w).pid := by
  unfold checkfailOne
  split
  · rcases run_cases s sd which (if (sd.sv which).has .isreset then .reset else .start) with
      ⟨h, _⟩ | ⟨_, h0, ret, s', v, h, _, _⟩ <;> rw [h]
    have hne : which ≠ w := by
      rintro rfl
      omega
    rw [Svdef.setSv_sv, if_neg hne]
  · rfl

theorem checkfail_pid {s : Sys} {sd : Svdef} (w : Which) (hp : 0 < (sd.sv w).pid) :
    ((perpdSvdefCheckfail s sd).2.sv w).pid = (sd.sv w).pid := by
  rcases checkfail_cases s sd with ⟨_, he⟩ | ⟨_, _, he⟩ | ⟨_, _, he⟩ <;> rw [he]
  · exact checkfailOne_pid .main w hp
  · have h1 := checkfailOne_pid (s := s.emitSv sd .checkfail) .log w hp
    exact (checkfailOne_pid .main w (h1 ▸ hp)).trans h1

theorem checkfailOne_failed {s : Sys} {sd : Svdef} {w : Which} (hf : (sd.sv w).has .failing = true)
    (hp : ((checkfailOne s sd w).2.sv w).pid = 0) :
    ((checkfailOne s sd w).2.sv w).has .failing = true := by
  unfold checkfailOne at hp ⊢
  rw [if_pos hf] at hp ⊢
  rcases run_cases s sd w (if (sd.sv w).has .isreset then .reset else .start) with
    ⟨h, _⟩ | ⟨_, _, ret, s', v, h, hfs, hv⟩ <;> rw [h] at hp ⊢
  · exact hf
  · rw [Svdef.setSv_self] at hp ⊢
    rw [hv.pid] at hp
    cases ret with
    | none => simp [hv.failing]
    | some pid =>
      have := (hfs.fresh pid rfl).1
      simp only [Option.getD_some] at hp
      omega

theorem checkfail_failed {s : Sys} {sd : Svdef} {w : Which} (ha : sd.has .active = true)
    (hx : Present sd w) (hf : (sd.sv w).has .failing = true)
    (hp : ((perpdSvdefCheckfail s sd).2.sv w).pid = 0) :
    ((perpdSvdefCheckfail s sd).2.sv w).has .failing = true := by
  have hother (t : Sys) (x : Svdef) (u : Which) (hu : u ≠ w) :
      (checkfailOne t x u).2.sv w = x.sv w := by
    unfold checkfailOne
    split
    · exact run_other _ _ _ _ _ hu
    · rfl
  rcases checkfail_cases s sd with ⟨hn, _⟩ | ⟨_, hl, he⟩ | ⟨_, hl, he⟩
  · simp [ha] at hn
  · rw [he] at hp ⊢
    cases w with
    | main => exact checkfailOne_failed hf hp
    | log => exact absurd (hx rfl) (by simp [hl])
  · rw [he] at hp ⊢
    cases w with
    | main =>
      refine checkfailOne_failed ?_ hp
      rwa [hother _ _ .log (by simp)]
    | log =>
      rw [hother _ _ .main (by simp)] at hp ⊢
      exact checkfailOne_failed hf hp

theorem checkfail_pends {s : Sys} {sd : Svdef} (hok : SvOk s sd) (ht : s.flagTerminating = false)
    (hfail : perpdSvdefCullok sd = true → Failed sd)
    (hlaw : Along GoesOn (perpdSvdefCheckfail s sd).1.trace)
    (hc : perpdSvdefCullok (perpdSvdefCheckfail s sd).2 = true) :
    Pends (perpdSvdefCheckfail s sd).1 (perpdSvdefCheckfail s sd).2 ∧
      (perpdSvdefCheckfail s sd).2.has .active = true := by
  obtain ⟨hcull, hm, hl⟩ := (cullok_iff _).mp hc
  rw [checkfail_has] at hcull hl
  have hgone (w : Which) (hx : Present sd w) : ((perpdSvdefCheckfail s sd).2.sv w).pid = 0 := by
    cases w with
    | main => exact hm
    | log => exact hl (hx rfl)
  have hcs : perpdSvdefCullok sd = true := by
    by_contra hn
    obtain ⟨w, hx, hp⟩ := (live_iff hcull).mpr (by simpa using hn)
    have := checkfail_pid (s := s) w hp
    have := hgone w hx
    omega
  obtain ⟨evs, he⟩ := checkfail_trace s sd
  have ha : sd.has .active = true := hlaw _ _ _ he hcs
  obtain ⟨w, hx, hf⟩ := hfail hcs
  have hf' := checkfail_failed ha hx hf (hgone w hx)
  have hterm : (perpdSvdefCheckfail s sd).1.flagTerminating = s.flagTerminating :=
    (Flags.entryStep (.checkfail : EntryStep s sd _ _)).terminating
  refine ⟨⟨⟨w, fun hw => ?_, hf'⟩, hterm.trans ht, checkfail_retried hok ha ht w hf'⟩, by simpa⟩
  rw [checkfail_has]
  exact hx hw

/-- What is due to be removed is retried, or `perpd_svdef_checkfail()` passes over it. -/
def AllPend (w : Perpd) : Prop := ∀ sd ∈ w.svdefs, perpdSvdefCullok sd = true → Pends w.sys sd

/-- What is due to be removed is retried. -/
def AllActive (w : Perpd) : Prop :=
  ∀ sd ∈ w.svdefs, perpdSvdefCullok sd = true → Pends w.sys sd ∧ sd.has .active = true

theorem Pends.part {t t' : Table} (h : Part t t') {sd : Svdef} (hp : Pends t.sys sd) :
    Pends t'.sys sd :=
  ⟨hp.1, h.terminating.trans hp.2.1, hp.2.2.trans_le h.failing⟩

theorem loop_pends : LoopInv GoesOn AllActive AllPend where
  top _ h sd hsd hc := (h sd hsd hc).imp_left (Pends.part (loopTop_part _))
  poll inp _ h sd hsd hc := by
    rw [loopPoll_svdefs] at hsd
    exact (h sd hsd hc).imp_left (Pends.part (loopPoll_part _ inp))
  term {w} _ h sd hsd hc := by
    by_cases ht : w.sys.flagTerm = 0
    · unfold loopTerm at hsd ⊢
      rw [if_pos ht] at hsd ⊢
      exact (h sd hsd hc).1
    · rw [loopTerm_clean w ht sd hsd] at hc
      simp at hc
  chld {w} inp hw hp h := by
    unfold loopChld at hp ⊢
    split
    · exact h
    next hn =>
    rw [if_neg hn] at hp
    have hi : Idle w.sys { w.sys with flagChld := 0 } := .of_silent rfl rfl rfl rfl rfl rfl rfl rfl
    exact waitup_left Pends.stable reaped_pends inp.reaps _ w.svdefs
      (hw.ok.moves (.single (.idle (t := table w) _ hi))) hw.culled h hp
  scan {w} inp hw h := by
    unfold loopScan
    split
    · exact h
    next hg =>
    have ht : w.sys.flagTerminating = false := by
      by_contra hn
      have hn' : w.sys.flagTerminating = true := by simpa using hn
      exact hg ⟨(hw.settled hn').2, by simp [(hw.closed hn').1]⟩
    have hi : Idle w.sys { w.sys with flagHup := 0 } := .of_silent rfl rfl rfl rfl rfl rfl rfl rfl
    exact scan_left Pends.stable Pends.marked inp.scan _ w.svdefs
      (hw.ok.moves (.single (.idle (t := table w) _ hi))) ht h
  failing {w} hw hp h := by
    unfold loopFailing at hp ⊢
    split
    · next hz =>
      intro sd hsd hc
      have := (h sd hsd hc).2.2
      omega
    next hz =>
    rw [if_neg hz] at hp
    split
    · next ht =>
      intro sd hsd hc
      exact absurd (ht.symm.trans (h sd hsd hc).2.1) (by simp)
    next ht =>
    rw [if_neg ht] at hp
    have h0 := (unfailing_phase w hw).ok
    refine checkfailLoop_each
      (H := fun s sd => s.flagTerminating = false ∧ (perpdSvdefCullok sd = true → Failed sd))
      (I := fun s sd => perpdSvdefCullok sd = true → Pends s sd ∧ sd.has .active = true)
      ?_ ?_ ?_ _ 0 _ _ h0.ok h0.culled (by simp) (by simp) ?_ hp
    · exact fun _ ht _ ⟨h1, h2⟩ => ⟨ht.trans h1, h2⟩
    · exact fun hf ht hm h hc => (h hc).imp_left (Pends.stable hf ht hm)
    · exact fun hok ⟨h1, h2⟩ hlaw hc => checkfail_pends hok h1 h2 hlaw hc
    · exact fun j sd _ hj => ⟨by simpa using ht, fun hc => (h sd (List.mem_of_getElem? hj) hc).1⟩
  clients {w} inp nready hw h sd hsd hc := by
    have hp := Part.of_stretch (loopClients_work w inp nready hw.culled).toStretch
    have hmem : sd ∈ w.svdefs := loopClients_culled hsd ((cullok_iff sd).mp hc).1
    exact (h sd hmem hc).imp_left (Pends.part hp)
  exit _ h := h

/-- In a run that goes on no deactivation stalls. -/
theorem cull_no_stall (cfg : Config) (inputs : List IterIn)
    (hp : Along GoesOn (perpdRun cfg inputs).sys.trace) : NoStall (perpdRun cfg inputs) := by
  have hrun := loop_pends.run cfg (by simp [AllActive, perpdStart]) inputs hp
  have hloop := (run_phase cfg inputs).ok
  constructor
  · intro sd hsd hc
    rw [live_iff hc]
    cases hcs : perpdSvdefCullok sd with
    | false => exact Or.inl rfl
    | true =>
      obtain ⟨⟨h1, h2, h3⟩, h4⟩ := hrun sd hsd hcs
      exact Or.inr ⟨h1, h2, h3, h4⟩
  · intro ht hdead
    refine List.eq_nil_iff_forall_not_mem.mpr fun sd hsd => ?_
    have hc := hloop.culled ht sd hsd
    have hcs : perpdSvdefCullok sd = true := by
      by_contra hn
      exact hdead sd hsd ((live_iff hc).mpr (by simpa using hn))
    exact absurd (ht.symm.trans (hrun sd hsd hcs).1.2.1) (by simp)

instance (past : List Event) : (e : Event) → Decidable (GoesOn past e)
  | .sv _ .checkfail => inferInstanceAs (Decidable (_ → _))
  | .sv _ (.fork _ _ _ _ _ _ none) => inferInstanceAs (Decidable (_ → _))
  | .sv _ (.fork _ _ _ _ _ _ (some _)) | .sv _ (.activate _) | .sv _ (.reap _ _)
  | .sv _ (.kill _ _ _) | .sv _ (.control _ _) | .sv _ .wantcull | .sv _ (.closeLog _ _)
  | .sv _ .cull | .sv _ .status => isTrue trivial
  | .opened _ _ | .closed _ _ | .request _ | .sent _ _ | .term | .scan | .scanned => isTrue trivial

/-- A service is deactivated, made sticky again, and the fork of its reset fails
until it is tried for the third time. -/
def cullRetried : List IterIn :=
  [scans quiet [foo], scans quiet [], scans quiet [foo], exits quiet [(100, 15)], quiet]

theorem cull_no_stall_retried :
    NoStall (perpdRun (plain [some 100, none, none, some 101]) cullRetried) :=
  cull_no_stall (plain [some 100, none, none, some 101]) cullRetried (by decide +kernel)

/-- A service is deactivated, and the fork of its reset fails. -/
def cullFailed : List IterIn := [scans quiet [foo], scans quiet [], exits quiet [(100, 15)]]

theorem cull_no_stall_fails : ¬ NoStall (perpdRun (plain [some 100, none]) cullFailed) := by
  intro h
  let w := perpdRun (plain [some 100, none]) cullFailed
  have hleft : ∃ sd ∈ w.svdefs, sd.has .cull = true ∧ ∀ v, (sd.sv v).pid = 0 := by
    decide +kernel
  obtain ⟨sd, hsd, hc, hdead⟩ := hleft
  rcases h.culled sd hsd hc with ⟨v, _, hp⟩ | hr
  · rw [hdead v] at hp
    omega
  · have hpos := hr.failing
    have hzero : (perpdRun (plain [some 100, none]) cullFailed).sys.flagFailing = 0 := by
      decide +kernel
    omega

end Perp.PerpdStall
