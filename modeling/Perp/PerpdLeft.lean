import Perp.PerpdCompact
import Perp.PerpdService

set_option autoImplicit false

/-!
# What is left in the table

An entry that is flagged CULL and has no child is due to be removed. Each of
the loops of perpd is asked which of these it leaves behind.
-/
namespace Perp.PerpdLeft
open PerpdState PerpdSvdef PerpdMainloop PerpdFrame PerpdEntry PerpdEffect PerpdSlots
  PerpdActivate PerpdMoves PerpdCompact PerpdPhases PerpdRuns PerpdService TraceLaw

/-- What is said of an entry outlasts what perpd does for the others. -/
def Stable (I : Sys → Svdef → Prop) : Prop :=
  ∀ {s s' : Sys} {sd : Svdef}, Frame sd.key s s' → s'.flagTerminating = s.flagTerminating →
    s.flagFailing ≤ s'.flagFailing → I s sd → I s' sd

theorem trace_le {t t' : Table} (h : TableOk t) (hm : Moves t t') :
    t.sys.trace.length ≤ t'.sys.trace.length := by
  obtain ⟨evs, he⟩ := moves_grow h hm
  rw [he, List.length_append]
  omega

theorem terminating_mono {t t' : Table} (h : TableOk t) (hm : Moves t t')
    (ht : t.sys.flagTerminating = true) : t'.sys.flagTerminating = true := by
  obtain ⟨evs, he⟩ := moves_grow h hm
  rw [(h.moves hm).term, he]
  exact List.mem_append_left _ (h.term.mp ht)

theorem phase_terminating {w w' : Perpd} (h : LoopOk w) (hp : Phase w w')
    (ht : w'.sys.flagTerminating = false) : w.sys.flagTerminating = false := by
  by_contra hn
  have := terminating_mono h.ok hp.moves (by simpa [table] using hn)
  exact absurd (ht.symm.trans this) (by simp)

theorem cullok_iff (sd : Svdef) : perpdSvdefCullok sd = true ↔ sd.has .cull = true ∧
    sd.svMain.pid = 0 ∧ (sd.has .haslog = true → sd.svLog.pid = 0) := by
  unfold perpdSvdefCullok
  cases sd.has .haslog <;> simp [and_assoc]

theorem marked_cullok {sd sd' : Svdef} (h : Marked sd sd') :
    perpdSvdefCullok sd' = perpdSvdefCullok sd := by
  have hm := h.sv .main
  have hl := h.sv .log
  rw [Svdef.sv_main, Svdef.sv_main] at hm
  rw [Svdef.sv_log, Svdef.sv_log] at hl
  simp only [perpdSvdefCullok, hm, hl, h.flags .cull (by simp) (by simp),
    h.flags .haslog (by simp) (by simp)]

theorem not_cullok {sd : Svdef} {w : Which} (hp : 0 < (sd.sv w).pid)
    (hw : w = .log → sd.has .haslog = true) : perpdSvdefCullok sd = false := by
  by_contra hc
  obtain ⟨_, hm, hl⟩ := (cullok_iff sd).mp (by simpa using hc)
  cases w with
  | main => exact absurd hm (by simpa using Nat.ne_of_gt hp)
  | log => exact absurd (hl (hw rfl)) (by simpa using Nat.ne_of_gt hp)

theorem wantcull_cullok (s : Sys) (sd : Svdef)
    (hc : perpdSvdefCullok (perpdSvdefWantcull s sd).1.2 = true) :
    (perpdSvdefWantcull s sd).2 = true := by
  rcases wantcull_cases s sd with ⟨hp, he⟩ | ⟨_, hl, hp, he⟩ | ⟨_, _, he⟩ <;> rw [he] at hc ⊢
  · rw [not_cullok (w := .main) (by simpa using hp) (by simp)] at hc
    simp at hc
  · rw [not_cullok (w := .log) (by simpa using hp) (by simpa using hl)] at hc
    simp at hc

theorem reaped_failed {s : Sys} {sd : Svdef} (which : Which) (wstat : ℕ) (hok : SvOk s sd)
    (hp : 0 < (sd.sv which).pid) :
    let r := perpdReaped (s.waited (sd.sv which).pid) sd which wstat
    r.2 = false → perpdSvdefCullok r.1.2 = true →
      ∃ x v, ForkStep ((s.waited (sd.sv which).pid).emitSv sd (.reap which wstat)) r.1.1 x which
          .reset none ∧
        x.key = sd.key ∧ perpdSvdefCullok x = true ∧ r.1.2 = sd.setSv which v ∧
        v.has .failing = true ∧ (which = .log → sd.has .haslog = true) := by
  have hx : which = .log → sd.has .haslog = true := by
    rintro rfl
    by_contra hn
    have := (hok.nolog (by simpa using hn)).1
    simp only [Svdef.sv_log] at hp
    omega
  intro r
  unfold r
  rcases reaped_cases (s.waited (sd.sv which).pid) sd which wstat with
    ⟨_, he⟩ | ⟨_, hd, he⟩ | ⟨_, _, rfl, hl, _, hlp, he⟩ | ⟨_, _, _, he⟩ <;> rw [he]
  · intro _ hc
    rcases run_cases ((s.waited (sd.sv which).pid).emitSv sd (.reap which wstat))
        (sd.setSv which (reapedSv (sd.sv which) wstat)) which .reset with
      ⟨_, ⟨rfl, hn⟩ | hpos⟩ | ⟨_, _, ret, s', v, hr, hf, hv⟩
    · exact absurd (hx rfl) (by simpa using hn)
    · simp at hpos
    simp only [hr] at hc ⊢
    rw [Svdef.setSv_setSv] at hc ⊢
    cases ret with
    | some pid =>
      have hpos : 0 < v.pid := by
        rw [hv.pid]
        exact (hf.fresh pid rfl).1
      rw [not_cullok (w := which) (by simpa using hpos) (by simpa using hx)] at hc
      simp at hc
    | none =>
      refine ⟨_, v, hf, by simp, ?_, rfl, by simp [hv.failing], hx⟩
      -- the entry as the failed fork shows it is due to be removed as well
      rw [cullok_iff] at hc ⊢
      cases which <;> simpa [hv.pid] using hc
  · -- it wants to be down as it is deactivated
    intro _ hc
    have hcull : sd.has .cull = true := by
      simpa using ((cullok_iff _).mp hc).1
    rw [reapedSv_has, hok.cull hcull which hx] at hd
    simp at hd
  · intro _ hc
    rw [not_cullok (w := .log) (by simpa [reapedShutdown] using hlp)
      (by simpa [reapedShutdown] using hl)] at hc
    simp at hc
  · simp

section Loops
variable {rest : Multiset ℕ} {P : List Event → Event → Prop} {I : Sys → Svdef → Prop}

theorem set_cases {s s' : Sys} {svdefs : List Svdef} {i j : ℕ} {sd sd' x : Svdef}
    (h : TableOk ⟨s, svdefs, rest⟩) (hi : svdefs[i]? = some sd) (hs : EntryStep s sd s' sd')
    (hj : (svdefs.set i sd')[j]? = some x) :
    (j = i ∧ x = sd') ∨ (j ≠ i ∧ svdefs[j]? = some x ∧ Frame x.key s s') := by
  by_cases hji : j = i
  · subst hji
    rw [List.getElem?_set_self (List.getElem?_eq_some_iff.mp hi).1] at hj
    exact Or.inl ⟨rfl, (Option.some.inj hj).symm⟩
  · rw [List.getElem?_set_ne (Ne.symm hji)] at hj
    have hne := key_ne_of_ne h.nodup hi hj hji
    exact Or.inr ⟨hji, hj, entryStep_frame hs (h.ok sd (List.mem_of_getElem? hi)) hne⟩

theorem cullLoop_trace (left i : ℕ) (s : Sys) (svdefs : List Svdef) :
    ∃ evs, (perpdCullLoop left i s svdefs).1.trace = s.trace ++ evs ∧ ∀ e ∈ evs,
      (∃ sd ∈ svdefs, perpdSvdefCullok sd = true ∧ e = .sv sd .cull) ∨ ∃ fd o, e = .closed fd o := by
  induction left generalizing i s svdefs with
  | zero => exact ⟨[], by simp [perpdCullLoop]⟩
  | succ left ih =>
    unfold perpdCullLoop
    split
    · exact ⟨[], by simp⟩
    next sd hi =>
    split
    · next hc =>
      obtain ⟨evs, ht, he⟩ := ih i (perpdSvdefClose (s.emitSv sd .cull) sd) (swapRemove svdefs i)
      refine ⟨.sv sd .cull :: .closed sd.fdDir (s.fds sd.fdDir) :: evs, ?_, ?_⟩
      · rw [ht]
        simp [perpdSvdefClose, Sys.close, Sys.emitSv, Sys.emit]
      · intro e hm
        rcases List.mem_cons.mp hm with rfl | hm
        · exact Or.inl ⟨sd, List.mem_of_getElem? hi, hc, rfl⟩
        rcases List.mem_cons.mp hm with rfl | hm
        · exact Or.inr ⟨_, _, rfl⟩
        · rcases he e hm with ⟨x, hx, h⟩ | hclosed
          · exact Or.inl ⟨x, (swapRemove_perm svdefs i sd hi).mem_iff.mpr
              (List.mem_cons_of_mem _ hx), h⟩
          · exact Or.inr hclosed
    · exact ih _ _ _

/-- What the count of finished entries accounts for is removed. -/
theorem cull_left {c : Svdef → Prop} (n : ℕ) (s : Sys) (svdefs : List Svdef)
    (h : ∀ sd ∈ svdefs, perpdSvdefCullok sd = true → I s sd ∨ (0 < n ∧ c sd)) :
    let t := if 0 < n then perpdCull s svdefs else (s, svdefs)
    ∀ sd ∈ t.2, perpdSvdefCullok sd = true → I t.1 sd := by
  dsimp only
  split
  · intro sd hsd hc
    rw [cull_clean s svdefs sd hsd] at hc
    simp at hc
  · next hn =>
    intro sd hsd hc
    exact (h sd hsd hc).resolve_right fun h => hn h.1

/-- The entries that `perpd_waitup()` finds due to be removed are counted, and
counted again if they are to be cycled. -/
theorem waitupLoop_left (hI : Stable I)
    (hreap : ∀ {s : Sys} {sd : Svdef} (which : Which) (wstat : ℕ), SvOk s sd →
      (s.flagTerminating = true ↔ .term ∈ s.trace) → 0 < (sd.sv which).pid →
      let r := perpdReaped (s.waited (sd.sv which).pid) sd which wstat
      r.2 = false → perpdSvdefCullok r.1.2 = true → Along P r.1.1.trace → I r.1.1 r.1.2)
    (reaps : List (ℕ × ℕ)) (gotCull gotCycle : ℕ) (s : Sys) (svdefs : List Svdef)
    (h : TableOk ⟨s, svdefs, rest⟩) (hc : CullAll ⟨s, svdefs, rest⟩)
    (hl : ∀ sd ∈ svdefs, perpdSvdefCullok sd = true →
      I s sd ∨ (0 < gotCull ∧ (sd.has .cycle = true → 0 < gotCycle))) :
    let r := perpdWaitupLoop reaps gotCull gotCycle s svdefs
    Along P r.1.1.trace → ∀ sd ∈ r.1.2, perpdSvdefCullok sd = true →
      I r.1.1 sd ∨ (0 < r.2.1 ∧ (sd.has .cycle = true → 0 < r.2.2)) := by
  induction reaps generalizing gotCull gotCycle s svdefs with
  | nil => exact fun _ => hl
  | cons x reaps ih =>
    obtain ⟨pid, wstat⟩ := x
    unfold perpdWaitupLoop
    dsimp only
    split
    · next hg =>
      obtain ⟨hpos, hchild, hw⟩ := hg
      obtain ⟨i, w, sd, hf, hi, hpid⟩ := findPid_child h hchild
      have hstep : EntryStep s sd _ _ := .reap w wstat (by omega) hw
      have hw1 := Work.entry (t := ⟨s, svdefs, rest⟩) i sd _ _ hi hstep hc
      rw [hpid] at hstep hw1
      simp only [hf, hi]
      intro hp
      have ht1 := h.moves hw1.moves
      obtain ⟨evs, he⟩ := moves_grow ht1 (waitupLoop_work reaps
        (if (perpdReaped (s.waited pid) sd w wstat).2 = true ∧
          perpdSvdefCullok (perpdReaped (s.waited pid) sd w wstat).1.2 = true
          then gotCull + 1 else gotCull)
        (if (perpdReaped (s.waited pid) sd w wstat).2 = true ∧
          (perpdReaped (s.waited pid) sd w wstat).1.2.has .cycle = true
          then gotCycle + 1 else gotCycle) _ _ ht1 (hw1.culled hc)).moves
      have hp1 := Along.of_append (he ▸ hp)
      refine ih _ _ _ _ ht1 (hw1.culled hc) ?_ hp
      intro x hx hcx
      obtain ⟨j, hxj⟩ := List.getElem?_of_mem hx
      rcases set_cases h hi hstep hxj with ⟨_, rfl⟩ | ⟨_, hjx, hfr⟩
      · cases hflag : (perpdReaped (s.waited pid) sd w wstat).2 with
        | false =>
          have hok := h.ok sd (List.mem_of_getElem? hi)
          refine Or.inl ?_
          subst hpid
          exact hreap w wstat hok h.term (by omega) hflag hcx hp1
        | true =>
          refine Or.inr ⟨by rw [if_pos ⟨rfl, hcx⟩]; omega, fun hcy => ?_⟩
          rw [if_pos ⟨rfl, hcy⟩]
          omega
      · rcases hl x (List.mem_of_getElem? hjx) hcx with hleft | ⟨h1, h2⟩
        · exact Or.inl (hI hfr hw1.flags.terminating hw1.flags.failing hleft)
        · refine Or.inr ⟨?_, fun hcy => ?_⟩
          · split <;> omega
          · have := h2 hcy
            split <;> omega
    · exact ih _ _ _ _ h hc hl

theorem perpdTriggerScan_trace (s : Sys) : (perpdTriggerScan s).trace = s.trace := by
  unfold perpdTriggerScan
  split <;> rfl

theorem stable_triggerScan (hI : Stable I) {s : Sys} {sd : Svdef} (h : I s sd) :
    I (perpdTriggerScan s) sd := by
  refine hI (.perpdTriggerScan s) (perpdTriggerScan_idle s).terminating ?_ h
  unfold perpdTriggerScan
  split <;> exact le_refl _

theorem waitup_left (hI : Stable I)
    (hreap : ∀ {s : Sys} {sd : Svdef} (which : Which) (wstat : ℕ), SvOk s sd →
      (s.flagTerminating = true ↔ .term ∈ s.trace) → 0 < (sd.sv which).pid →
      let r := perpdReaped (s.waited (sd.sv which).pid) sd which wstat
      r.2 = false → perpdSvdefCullok r.1.2 = true → Along P r.1.1.trace → I r.1.1 r.1.2)
    (reaps : List (ℕ × ℕ)) (s : Sys) (svdefs : List Svdef)
    (h : TableOk ⟨s, svdefs, rest⟩) (hc : CullAll ⟨s, svdefs, rest⟩)
    (hl : ∀ sd ∈ svdefs, perpdSvdefCullok sd = true → I s sd)
    (hp : Along P (perpdWaitup reaps s svdefs).1.trace) :
    ∀ sd ∈ (perpdWaitup reaps s svdefs).2, perpdSvdefCullok sd = true →
      I (perpdWaitup reaps s svdefs).1 sd := by
  have hw := waitupLoop_work reaps 0 0 s svdefs h hc
  have hp1 : Along P (perpdWaitupLoop reaps 0 0 s svdefs).1.1.trace := by
    obtain ⟨a, ha⟩ := moves_grow (h.moves hw.moves) (cull_stretch _ _ rest).moves
    have hpc : Along P (if 0 < (perpdWaitupLoop reaps 0 0 s svdefs).2.1 then
        perpdCull (perpdWaitupLoop reaps 0 0 s svdefs).1.1
          (perpdWaitupLoop reaps 0 0 s svdefs).1.2
        else (perpdWaitupLoop reaps 0 0 s svdefs).1).1.trace := by
      unfold perpdWaitup at hp
      dsimp only at hp
      split at hp
      · rwa [perpdTriggerScan_trace] at hp
      · exact hp
    split at hpc
    · exact Along.of_append (ha ▸ hpc)
    · exact hpc
  have h1 := waitupLoop_left hI hreap reaps 0 0 s svdefs h hc (fun sd hsd hcs => Or.inl (hl sd hsd hcs))
    hp1
  have h2 := cull_left _ _ _ h1
  unfold perpdWaitup
  dsimp only
  intro sd hsd hcs
  have h3 := h2 sd hsd hcs
  split
  · exact stable_triggerScan hI h3
  · exact h3

theorem scanLoop_left (hI : Stable I)
    (hmark : ∀ {s : Sys} {sd sd' : Svdef}, Marked sd sd' → I s sd → I s sd')
    (dirents : List Dirent) (gotFail : ℕ) (s : Sys) (svdefs : List Svdef)
    (h : TableOk ⟨s, svdefs, rest⟩) (hc : CullAll ⟨s, svdefs, rest⟩)
    (ht : s.flagTerminating = false)
    (hl : ∀ sd ∈ svdefs, perpdSvdefCullok sd = true → I s sd) :
    let r := perpdScanLoop dirents gotFail s svdefs
    ∀ sd ∈ r.1.2, perpdSvdefCullok sd = true → I r.1.1 sd := by
  induction dirents generalizing gotFail s svdefs with
  | nil => exact hl
  | cons d dirents ih =>
    unfold perpdScanLoop
    dsimp only
    split
    · exact ih _ _ _ h hc ht hl
    next st _ =>
    split
    · next i hlk =>
      obtain ⟨sd, hi, _⟩ := lookup_some hlk
      have hm := keep_marked sd d.name
      have hstep : EntryStep s sd s _ := .calm _ _ (.mark _ hm)
      have hw := Work.entry (t := ⟨s, svdefs, rest⟩) i sd _ _ hi hstep hc
      rw [List.modify_eq_set_getElem?, hi]
      refine ih _ _ _ (h.moves hw.moves) (hw.culled hc) ht fun x hx hcx => ?_
      obtain ⟨j, hxj⟩ := List.getElem?_of_mem hx
      rcases set_cases h hi hstep hxj with ⟨_, rfl⟩ | ⟨_, hjx, _⟩
      · exact hmark hm (hl sd (List.mem_of_getElem? hi) (by rwa [marked_cullok hm] at hcx))
      · exact hl x (List.mem_of_getElem? hjx) hcx
    next hlk =>
    split
    · exact ih _ _ _ h hc ht hl
    next hroom =>
    have hnk := lookup_eq_none hlk
    split
    · next s1 ha =>
      have hw := Work.activateFail (t := ⟨s, svdefs, rest⟩) _ _ _ _ hlk ha
      refine ih _ _ _ (h.moves hw.moves) (hw.culled hc) (hw.flags.terminating.trans ht) ?_
      intro x hx hcx
      have hf := (activateFail_frame ha).frame fun he => hnk (he ▸ List.mem_map_of_mem hx)
      exact hI hf hw.flags.terminating hw.flags.failing (hl x hx hcx)
    · next s1 sd ha =>
      have hw := Stretch.activate (t := ⟨s, svdefs, rest⟩) _ _ _ _ _ hlk (by simpa using hroom) ht ha
      refine ih _ _ _ (h.moves hw.moves) (hw.culled hc) (hw.flags.terminating.trans ht) ?_
      intro x hx hcx
      rcases List.mem_append.mp hx with hx | hx
      · obtain ⟨_, _, hf⟩ := activate_svOk (h.orphans _ hnk) ha
        have hfx := hf x.key fun he => hnk (he ▸ List.mem_map_of_mem hx)
        exact hI hfx hw.flags.terminating hw.flags.failing (hl x hx hcx)
      · obtain rfl := List.mem_singleton.mp hx
        obtain ⟨sd0, _, ho, -, rfl⟩ := activate_some ha
        have := ((cullok_iff _).mp hcx).1
        simp [ho.blank.cull] at this

/-- The entries that a scan finds due to be removed are counted, and are not to be cycled. -/
theorem scanCull_left (hI : Stable I) (left i gotCull : ℕ) (s : Sys)
    (svdefs : List Svdef) (h : TableOk ⟨s, svdefs, rest⟩) (hc : CullAll ⟨s, svdefs, rest⟩)
    (hl : ∀ sd ∈ svdefs, perpdSvdefCullok sd = true →
      I s sd ∨ (0 < gotCull ∧ sd.has .cycle = false)) :
    let r := perpdScanCull left i gotCull s svdefs
    ∀ sd ∈ r.1.2, perpdSvdefCullok sd = true →
      I r.1.1 sd ∨ (0 < r.2 ∧ sd.has .cycle = false) := by
  induction left generalizing i gotCull s svdefs with
  | zero => exact hl
  | succ left ih =>
    unfold perpdScanCull
    split
    · exact hl
    next sd hi =>
    have hmem := List.mem_of_getElem? hi
    split
    · exact ih _ _ _ _ h hc hl
    split
    · next hnc =>
      have hstep : EntryStep s sd _ _ := .calm _ _ .wantcull
      have hw := Work.wantcull (t := ⟨s, svdefs, rest⟩) i sd hi
      refine ih _ _ _ _ (h.moves hw.moves) (hw.culled hc) fun x hx hcx => ?_
      obtain ⟨j, hxj⟩ := List.getElem?_of_mem hx
      rcases set_cases h hi hstep hxj with ⟨_, rfl⟩ | ⟨_, hjx, hfr⟩
      · -- it was not flagged CULL, and so not to be cycled
        have hcy : sd.has .cycle = false := by
          by_contra hcy
          have := (h.ok sd hmem).cycle (by simpa using hcy)
          simp [hnc] at this
        refine Or.inr ⟨?_, by simpa using hcy⟩
        rw [if_pos (wantcull_cullok s sd hcx)]
        omega
      · refine (hl x (List.mem_of_getElem? hjx) hcx).imp
          (hI hfr hw.flags.terminating hw.flags.failing) fun ⟨h1, h2⟩ => ⟨?_, h2⟩
        split <;> omega
    · have hm := drop_marked sd .cycle (Or.inr rfl)
      have hstep : EntryStep s sd s _ := .calm _ _ (.mark _ hm)
      have hw := Work.entry (t := ⟨s, svdefs, rest⟩) i sd _ _ hi hstep hc
      refine ih _ _ _ _ (h.moves hw.moves) (hw.culled hc) fun x hx hcx => ?_
      obtain ⟨j, hxj⟩ := List.getElem?_of_mem hx
      rcases set_cases h hi hstep hxj with ⟨_, rfl⟩ | ⟨_, hjx, _⟩
      · refine Or.inr ⟨?_, by simp⟩
        rw [if_pos hcx]
        omega
      · refine (hl x (List.mem_of_getElem? hjx) hcx).imp_right fun ⟨h1, h2⟩ => ⟨?_, h2⟩
        split <;> omega

theorem emit_stable (hI : Stable I) {s : Sys} {sd : Svdef} {e : Event} (he : Plain e) (h : I s sd) :
    I (s.emit e) sd :=
  hI ((Idle.emit s e he).frame _) rfl (le_refl _) h

section Scan
variable {s : Sys} {svdefs : List Svdef}

theorem scan_walk_left (hI : Stable I)
    (hmark : ∀ {s : Sys} {sd sd' : Svdef}, Marked sd sd' → I s sd → I s sd')
    (dirents : List Dirent) (h : TableOk ⟨s, svdefs, rest⟩) (ht : s.flagTerminating = false)
    (hl : ∀ sd ∈ svdefs, perpdSvdefCullok sd = true → I s sd) :
    let r := perpdScanLoop dirents 0 (s.emit .scan) (svdefs.map (·.drop .active))
    ∀ sd ∈ r.1.2, perpdSvdefCullok sd = true → I r.1.1 sd := by
  have h1 := (emit_stretch s svdefs rest .scan trivial).trans (scan_drop s svdefs rest ht)
  refine scanLoop_left hI hmark dirents 0 _ _ (h.moves h1.moves) (scan_culled s svdefs rest ht) ht ?_
  intro x hx hcx
  obtain ⟨sd, hsd, rfl⟩ := List.mem_map.mp hx
  have hdrop := drop_marked sd .active (Or.inl rfl)
  rw [marked_cullok hdrop] at hcx
  exact hmark hdrop (emit_stable hI trivial (hl sd hsd hcx))

theorem scan_pass_left (hI : Stable I)
    (hmark : ∀ {s : Sys} {sd sd' : Svdef}, Marked sd sd' → I s sd → I s sd')
    (dirents : List Dirent) (h : TableOk ⟨s, svdefs, rest⟩) (ht : s.flagTerminating = false)
    (hl : ∀ sd ∈ svdefs, perpdSvdefCullok sd = true → I s sd) (n : ℕ) :
    let r := perpdScanLoop dirents 0 (s.emit .scan) (svdefs.map (·.drop .active))
    let t := perpdScanCull n 0 0 (r.1.1.emit .scanned) r.1.2
    ∀ sd ∈ t.1.2, perpdSvdefCullok sd = true → I t.1.1 sd ∨ (0 < t.2 ∧ sd.has .cycle = false) := by
  obtain ⟨h3, hc⟩ := scan_end s svdefs rest dirents ht
  have hok := h.moves ((emit_stretch s svdefs rest .scan trivial).trans h3).moves
  have hl2 := scan_walk_left hI hmark dirents h ht hl
  exact scanCull_left hI n 0 0 _ _ hok hc fun sd hsd hcs =>
    Or.inl (emit_stable hI trivial (hl2 sd hsd hcs))

theorem scan_left (hI : Stable I)
    (hmark : ∀ {s : Sys} {sd sd' : Svdef}, Marked sd sd' → I s sd → I s sd')
    (inp : ScanIn) (s : Sys) (svdefs : List Svdef) (h : TableOk ⟨s, svdefs, rest⟩)
    (ht : s.flagTerminating = false)
    (hl : ∀ sd ∈ svdefs, perpdSvdefCullok sd = true → I s sd) :
    ∀ sd ∈ (perpdScan inp s svdefs).2, perpdSvdefCullok sd = true → I (perpdScan inp s svdefs).1 sd := by
  have hl2 := scan_walk_left hI hmark inp.dirents h ht hl
  have hl3 (n : ℕ) := cull_left _ _ _ (scan_pass_left hI hmark inp.dirents h ht hl n)
  unfold perpdScan
  dsimp only
  split
  · exact fun sd hsd hcs => emit_stable hI trivial (hl sd hsd hcs)
  split
  · exact fun sd hsd hcs => stable_triggerScan hI (hl2 sd hsd hcs)
  · intro sd hsd hcs
    split
    · exact stable_triggerScan hI (hl3 _ sd hsd hcs)
    · exact hl3 _ sd hsd hcs

end Scan

theorem wantcullLoop_left (left i gotCull : ℕ) (s : Sys) (svdefs : List Svdef)
    (hlen : i + left = svdefs.length)
    (hdone : ∀ j sd, j < i → svdefs[j]? = some sd → perpdSvdefCullok sd = true → 0 < gotCull) :
    let r := perpdWantcullLoop left i gotCull s svdefs
    ∀ sd ∈ r.1.2, perpdSvdefCullok sd = true → 0 < r.2 := by
  induction left generalizing i gotCull s svdefs with
  | zero =>
    intro r sd hsd
    obtain ⟨j, hj⟩ := List.getElem?_of_mem hsd
    have hlt := (List.getElem?_eq_some_iff.mp hj).1
    simp only [r, perpdWantcullLoop] at hj hlt ⊢
    exact hdone j sd (by omega) hj
  | succ left ih =>
    unfold perpdWantcullLoop
    split
    · next hi =>
      rw [List.getElem?_eq_none_iff] at hi
      omega
    next sd hi =>
    refine ih _ _ _ _ (by simp; omega) fun j x hj hx hcx => ?_
    by_cases hji : j = i
    · subst hji
      rw [List.getElem?_set_self (by omega)] at hx
      obtain rfl := Option.some.inj hx
      rw [if_pos (wantcull_cullok s sd hcx)]
      omega
    · rw [List.getElem?_set_ne (Ne.symm hji)] at hx
      have := hdone j x (by omega) hx hcx
      split <;> omega

theorem loopTerm_clean (w : Perpd) (ht : w.sys.flagTerm ≠ 0) :
    ∀ sd ∈ (loopTerm w).svdefs, perpdSvdefCullok sd = false := by
  intro sd hsd
  by_contra hc
  have hcs : perpdSvdefCullok sd = true := by simpa using hc
  unfold loopTerm at hsd
  rw [if_neg ht] at hsd
  dsimp only at hsd
  have h1 (s : Sys) := wantcullLoop_left w.svdefs.length 0 0 s w.svdefs (by simp) (by simp)
  split at hsd
  · exact hc (cull_clean _ _ sd hsd)
  · next hn => exact hn (h1 _ sd hsd hcs)

/-- What `perpd_svdef_checkfail()` makes of each entry holds of all of them at
the end; `H` is what it finds. -/
theorem checkfailLoop_each {H : Sys → Svdef → Prop} (hH : Stable H) (hI : Stable I)
    (hstep : ∀ {s : Sys} {sd : Svdef}, SvOk s sd → H s sd →
      Along P (perpdSvdefCheckfail s sd).1.trace →
      I (perpdSvdefCheckfail s sd).1 (perpdSvdefCheckfail s sd).2)
    (left i : ℕ) (s : Sys) (svdefs : List Svdef) (h : TableOk ⟨s, svdefs, rest⟩)
    (hc : CullAll ⟨s, svdefs, rest⟩) (hlen : i + left = svdefs.length)
    (hdone : ∀ j sd, j < i → svdefs[j]? = some sd → I s sd)
    (htodo : ∀ j sd, i ≤ j → svdefs[j]? = some sd → H s sd) :
    let r := perpdCheckfailLoop left i s svdefs
    Along P r.1.trace → ∀ sd ∈ r.2, I r.1 sd := by
  induction left generalizing i s svdefs with
  | zero =>
    intro r _ sd hsd
    obtain ⟨j, hj⟩ := List.getElem?_of_mem hsd
    have hlt := (List.getElem?_eq_some_iff.mp hj).1
    simp only [r, perpdCheckfailLoop] at hj hlt ⊢
    exact hdone j sd (by omega) hj
  | succ left ih =>
    unfold perpdCheckfailLoop
    split
    · next hi =>
      rw [List.getElem?_eq_none_iff] at hi
      omega
    next sd hi =>
    have hstep' : EntryStep s sd _ _ := .checkfail
    have hw := Work.entry (t := ⟨s, svdefs, rest⟩) i sd _ _ hi hstep' hc
    have ht1 := h.moves hw.moves
    intro r hp
    obtain ⟨evs, he⟩ := moves_grow ht1 (checkfailLoop_work left (i + 1) _ _ (hw.culled hc)).moves
    have hp1 := Along.of_append (he ▸ hp)
    refine ih _ _ _ ht1 (hw.culled hc) (by simp; omega) ?_ ?_ hp
    · intro j x hj hx
      rcases set_cases h hi hstep' hx with ⟨_, rfl⟩ | ⟨hji, hjx, hfr⟩
      · exact hstep (h.ok sd (List.mem_of_getElem? hi)) (htodo i sd (le_refl _) hi) hp1
      · exact hI hfr hw.flags.terminating hw.flags.failing (hdone j x (by omega) hjx)
    · intro j x hj hx
      rcases set_cases h hi hstep' hx with ⟨rfl, _⟩ | ⟨_, hjx, hfr⟩
      · omega
      · exact hH hfr hw.flags.terminating hw.flags.failing (htodo j x (by omega) hjx)

end Loops

end Perp.PerpdLeft
