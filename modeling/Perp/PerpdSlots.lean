import Perp.PerpdEffect

set_option autoImplicit false

/-!
# Children and their slots

Each step on an entry keeps `SvOk`: the recorded pids are exactly the unreaped
children forked for the entry. With it, no step is felt by another service.
-/
namespace Perp.PerpdSlots
open PerpdState PerpdSvdef PerpdConn PerpdMainloop PerpdFrame PerpdEntry PerpdEffect

/-- What every entry of `svdefs[]` satisfies. -/
structure SvOk (s : Sys) (sd : Svdef) : Prop where
  cull : sd.has .cull = true → ∀ w, (w = .log → sd.has .haslog = true) →
    (sd.sv w).has .wantdown = true
  cycle : sd.has .cycle = true → sd.has .cull = true
  nolog : sd.has .haslog = false → sd.svLog.pid = 0 ∧ sd.svLog.has .failing = false
  failing : ∀ w, (sd.sv w).has .failing = true → (sd.sv w).pid = 0
  owned : ∀ w, 0 < (sd.sv w).pid → s.children (sd.sv w).pid = some (sd.key, w)
  slot : ∀ p w, s.children p = some (sd.key, w) → 0 < p ∧ (sd.sv w).pid = p

namespace SvOk

theorem frame {s s' : Sys} {sd : Svdef} (h : SvOk s sd) (hf : Frame sd.key s s') :
    SvOk s' sd :=
  { h with
    owned := fun w hw => (hf.children _ w).2 (h.owned w hw)
    slot := fun p w hp => h.slot p w ((hf.children p w).1 hp) }

theorem of_calm {s t : Sys} {a b : Svdef} (h : SvOk s a) (hc : Calm s a t b)
    (hcull : b.has .cull = true → a.has .cull = true ∨
      ∀ w, (w = .log → a.has .haslog = true) → (b.sv w).has .wantdown = true)
    (hcycle : b.has .cycle = true → a.has .cycle = true ∨ b.has .cull = true) : SvOk t b where
  cull hb w hw := by
    rw [hc.kept.haslog] at hw
    rcases hcull hb with ha | hb
    · exact hc.wantdown w (h.cull ha w hw)
    · exact hb w hw
  cycle hb := (hcycle hb).elim (fun ha => hc.kept.cull (h.cycle ha)) id
  nolog hb := by
    rw [hc.kept.haslog] at hb
    have hp := hc.pid .log
    have hf := hc.flags .log .failing (by simp) (by simp)
    rw [Svdef.sv_log, Svdef.sv_log] at hp hf
    exact ⟨hp.trans (h.nolog hb).1, hf.trans (h.nolog hb).2⟩
  failing w hf := by
    rw [hc.flags w .failing (by simp) (by simp)] at hf
    exact (hc.pid w).trans (h.failing w hf)
  owned w hp := by
    rw [hc.pid w] at hp ⊢
    rw [hc.children, hc.kept.key]
    exact h.owned w hp
  slot p w hp := by
    rw [hc.children, hc.kept.key] at hp
    rw [hc.pid w]
    exact h.slot p w hp

theorem emitSv {s : Sys} {sd : Svdef} (h : SvOk s sd) (x : Svdef) (e : SvEvent) :
    SvOk (s.emitSv x e) sd :=
  { h with }

theorem calmStep {s s' : Sys} {sd sd' : Svdef} (h : SvOk s sd) (hs : CalmStep s sd s' sd') :
    SvOk s' sd' := by
  have hc := Calm.of_calmStep hs
  cases hs with
  | signal which cmd pg hnc hsig =>
    obtain ⟨sig, hsig⟩ := Option.isSome_iff_exists.mp hsig
    refine SvOk.of_calm h hc (fun hb => Or.inl ?_) (fun hb => Or.inl ?_) <;>
      simpa [doSignal, hsig] using hb
  | cont which pg hnc =>
    refine SvOk.of_calm h hc (fun hb => Or.inl ?_) (fun hb => Or.inl ?_) <;>
      simpa [doContinue] using hb
  | pause which pg hnc =>
    refine SvOk.of_calm h hc (fun hb => Or.inl ?_) (fun hb => Or.inl ?_) <;>
    · unfold doPause at hb
      dsimp only at hb
      split at hb <;> simpa using hb
  | want which hnc =>
    refine SvOk.of_calm h hc (fun hb => Or.inl ?_) (fun hb => Or.inl ?_) <;> simpa using hb
  | note which cmd hnc hm => exact SvOk.of_calm h hc Or.inl Or.inl
  | status => exact SvOk.of_calm h hc Or.inl Or.inl
  | mark sd' hm =>
    refine SvOk.of_calm h hc (fun hb => Or.inl ?_) (fun hb => ?_)
    · rwa [hm.flags _ (by simp) (by simp)] at hb
    · rw [hm.flags .cull (by simp) (by simp)]
      exact hm.cycle hb
  | wantcull =>
    exact SvOk.of_calm h hc (fun _ => Or.inr (wantcull_wantdown s sd)) (by simp)

theorem run {s : Sys} {sd : Svdef} (h : SvOk s sd) (which : Which) (target : Target) :
    SvOk (perpdSvdefRun s sd which target).1 (perpdSvdefRun s sd which target).2 := by
  rcases run_cases s sd which target with ⟨he, _⟩ | ⟨hlog, hpid, ret, s', v, he, hf, hv⟩
  · rw [he]
    exact h
  rw [he]
  have hkeep (w : Which) (hw : which ≠ w) : (sd.setSv which v).sv w = sd.sv w := by
    simp [Svdef.setSv_sv, hw]
  have hold (p : ℕ) (w : Which) (hc : s.children p = some (sd.key, w)) :
      s'.children p = some (sd.key, w) := by
    rw [hf.children]
    cases ret with
    | none => exact hc
    | some pid =>
      have hne : p ≠ pid := by
        rintro rfl
        simp [(hf.fresh p rfl).2] at hc
      simpa [Function.update_of_ne hne] using hc
  constructor
  · intro hc w hw
    rw [Svdef.setSv_has] at hc hw
    have hd := h.cull hc w hw
    by_cases hww : which = w
    · subst hww
      rw [Svdef.setSv_self, hv.other _ (by simp) (by simp)]
      exact hd
    · rwa [hkeep w hww]
  · simpa using h.cycle
  · intro hn
    rw [Svdef.setSv_has] at hn
    have hm : which = .main := by
      cases which with
      | main => rfl
      | log => exact absurd ⟨rfl, hn⟩ hlog
    subst hm
    exact h.nolog hn
  · intro w hfail
    by_cases hww : which = w
    · subst hww
      rw [Svdef.setSv_self] at hfail ⊢
      rw [hv.failing, Option.isNone_iff_eq_none] at hfail
      rw [hv.pid, hfail]
      rfl
    · rw [hkeep w hww] at hfail ⊢
      exact h.failing w hfail
  · intro w hp
    by_cases hww : which = w
    · subst hww
      rw [Svdef.setSv_self, hv.pid] at hp ⊢
      cases ret with
      | none => simp at hp
      | some pid => simp [hf.children]
    · rw [hkeep w hww] at hp ⊢
      rw [Svdef.setSv_key]
      exact hold _ w (h.owned w hp)
  · intro p w hc
    rw [Svdef.setSv_key, hf.children] at hc
    by_cases hww : which = w
    · subst hww
      rw [Svdef.setSv_self, hv.pid]
      cases ret with
      | none => exact absurd (h.slot p which hc).2 (by have := (h.slot p which hc).1; omega)
      | some pid =>
        by_cases hpp : p = pid
        · exact ⟨hpp ▸ (hf.fresh pid rfl).1, hpp.symm⟩
        · have := h.slot p which (by simpa [Function.update_of_ne hpp] using hc)
          omega
    · rw [hkeep w hww]
      cases ret with
      | none => exact h.slot p w hc
      | some pid =>
        by_cases hpp : p = pid
        · subst hpp
          simp [hww] at hc
        · exact h.slot p w (by simpa [Function.update_of_ne hpp] using hc)

theorem waited {s : Sys} {sd : Svdef} (h : SvOk s sd) (which : Which) (wstat : ℕ)
    (hp : 0 < (sd.sv which).pid) :
    SvOk (s.waited (sd.sv which).pid) (sd.setSv which (reapedSv (sd.sv which) wstat)) := by
  have hkeep (w : Which) (hw : which ≠ w) :
      (sd.setSv which (reapedSv (sd.sv which) wstat)).sv w = sd.sv w := by
    simp [Svdef.setSv_sv, hw]
  constructor
  · intro hc w hw
    rw [Svdef.setSv_has] at hc hw
    have hd := h.cull hc w hw
    by_cases hww : which = w
    · subst hww
      simp [hd]
    · rwa [hkeep w hww]
  · simpa using h.cycle
  · intro hn
    rw [Svdef.setSv_has] at hn
    cases which with
    | main => exact h.nolog hn
    | log => simp [(h.nolog hn).1] at hp
  · intro w hfail
    by_cases hww : which = w
    · subst hww
      simp
    · rw [hkeep w hww] at hfail ⊢
      exact h.failing w hfail
  · intro w hpw
    by_cases hww : which = w
    · subst hww
      simp at hpw
    · rw [hkeep w hww] at hpw ⊢
      have hne : (sd.sv w).pid ≠ (sd.sv which).pid := by
        intro heq
        have h1 := h.owned w hpw
        rw [heq, h.owned which hp] at h1
        simp [hww] at h1
      simpa [Sys.waited, Function.update_of_ne hne] using h.owned w hpw
  · intro p w hc
    have hne : p ≠ (sd.sv which).pid := by
      rintro rfl
      simp [Sys.waited] at hc
    have hc' : s.children p = some (sd.key, w) := by
      simpa [Sys.waited, Function.update_of_ne hne] using hc
    obtain ⟨h0, hs⟩ := h.slot p w hc'
    by_cases hww : which = w
    · subst hww
      exact absurd hs.symm hne
    · exact ⟨h0, by rwa [hkeep w hww]⟩

theorem reaped {s : Sys} {sd : Svdef} (h : SvOk s sd) (which : Which) (wstat : ℕ)
    (hp : 0 < (sd.sv which).pid) :
    SvOk (perpdReaped (s.waited (sd.sv which).pid) sd which wstat).1.1
      (perpdReaped (s.waited (sd.sv which).pid) sd which wstat).1.2 := by
  have h0 := SvOk.emitSv (SvOk.waited h which wstat hp) sd (.reap which wstat)
  rcases reaped_cases (s.waited (sd.sv which).pid) sd which wstat with
    ⟨_, he⟩ | ⟨_, _, he⟩ | ⟨_, _, rfl, _, _, hl, he⟩ | ⟨_, _, _, he⟩ <;> rw [he]
  · exact h0.run _ _
  · exact h0.run _ _
  · refine h0.of_calm (Calm.reapedShutdown _ _ (by simpa using hl)) (fun hb => Or.inl ?_)
      (fun hb => Or.inl ?_) <;> simpa [reapedShutdown] using hb
  · exact h0

theorem checkfailOne {s : Sys} {sd : Svdef} (h : SvOk s sd) (which : Which) :
    SvOk (checkfailOne s sd which).1 (checkfailOne s sd which).2 := by
  unfold PerpdSvdef.checkfailOne
  split
  · exact SvOk.run h _ _
  · exact h

theorem checkfail {s : Sys} {sd : Svdef} (h : SvOk s sd) :
    SvOk (perpdSvdefCheckfail s sd).1 (perpdSvdefCheckfail s sd).2 := by
  have h0 := SvOk.emitSv h sd .checkfail
  rcases checkfail_cases s sd with ⟨_, he⟩ | ⟨_, _, he⟩ | ⟨_, _, he⟩ <;> rw [he]
  · exact h0
  · exact SvOk.checkfailOne h0 .main
  · exact SvOk.checkfailOne (SvOk.checkfailOne h0 .log) .main

theorem startFlags {s : Sys} {sd : Svdef} (h : SvOk s sd) (which : Which) (cmd : Cmd)
    (hc : sd.has .cull = false) : SvOk s (startFlags sd which cmd) where
  cull hc' := by simp [hc] at hc'
  cycle := by simpa using h.cycle
  nolog hn := by
    rw [startFlags_has] at hn
    have h1 := startFlags_sv_pid sd which cmd
    have h2 := startFlags_sv_has sd which cmd .failing
    cases which with
    | main => exact h.nolog hn
    | log =>
      simp only [Svdef.sv_log, reduceCtorEq, ↓reduceIte, decide_false, Bool.not_false,
        Bool.true_and] at h1 h2
      exact ⟨h1.trans (h.nolog hn).1, h2.trans (h.nolog hn).2⟩
  failing w hf := by
    by_cases hw : which = w
    · subst hw
      rw [startFlags_sv_pid]
      exact h.failing which (by simpa using hf)
    · rw [startFlags_other _ _ _ _ hw] at hf ⊢
      exact h.failing w hf
  owned w hp := by
    by_cases hw : which = w
    · subst hw
      rw [startFlags_sv_pid] at hp ⊢
      simpa using h.owned which hp
    · rw [startFlags_other _ _ _ _ hw] at hp ⊢
      simpa using h.owned w hp
  slot p w hp := by
    rw [startFlags_key] at hp
    by_cases hw : which = w
    · subst hw
      rw [startFlags_sv_pid]
      exact h.slot p which hp
    · rw [startFlags_other _ _ _ _ hw]
      exact h.slot p w hp

theorem start {s : Sys} {sd : Svdef} (h : SvOk s sd) (which : Which) (cmd : Cmd)
    (hc : sd.has .cull = false) : SvOk (doStart s sd which cmd).1 (doStart s sd which cmd).2 := by
  have h0 := SvOk.emitSv (SvOk.startFlags h which cmd hc) sd (.control which cmd)
  rcases start_cases s sd which cmd with ⟨_, he⟩ | ⟨_, he⟩ <;> rw [he]
  · exact SvOk.run h0 _ _
  · exact h0

theorem entryStep {s s' : Sys} {sd sd' : Svdef} (h : SvOk s sd) (hs : EntryStep s sd s' sd') :
    SvOk s' sd' := by
  cases hs with
  | reap which wstat hp hw => exact SvOk.reaped h which wstat hp
  | checkfail => exact SvOk.checkfail h
  | start which cmd hc hm => exact SvOk.start h which cmd hc
  | calm s' sd' hs => exact SvOk.calmStep h hs

end SvOk

theorem calm_frame {s t : Sys} {a b : Svdef} {k : Key} (h : Calm s a t b) (hok : SvOk s a)
    (hk : a.key ≠ k) : Frame k s t where
  grows := by
    obtain ⟨evs, ht, hq, hc⟩ := h.grows
    refine ⟨evs, ht, ?_, ?_, ?_, fun fd o _ ho => hc fd o ho⟩
    · intro e he
      have := hq e he
      unfold Quiet at this
      split at this <;> simp_all [Event.key]
    · intro e he p hp w hcp
      have := hq e he
      unfold Quiet at this
      split at this <;> first
        | exact this.elim
        | simp only [Event.pid, reduceCtorEq, Option.some.injEq] at hp
      obtain ⟨_, hpos, hpid, _⟩ := this
      have hown := hok.owned _ hpos
      rw [← hpid, hp, hcp] at hown
      simp only [Option.some.injEq, Prod.mk.injEq] at hown
      exact hk hown.1.symm
    · intro e he fd o heq
      have := hq e he
      rw [heq] at this
      exact this.elim
  opens fd o _ ho := h.opens fd o ho
  listens fd ho := h.opens fd _ ho
  children p w := by rw [h.children]
  serial := h.serial.ge
  terminating ht := by rwa [h.terminating]
  term ht := by
    obtain ⟨evs, he, hq, _⟩ := h.grows
    have hn : .term ∉ evs := fun hm => hq _ hm
    simpa [h.terminating, he, hn] using ht
  shut := Or.inl h.terminating
  signals := h.signals
  listen := h.listen

theorem checkfailOne_frame (s : Sys) (sd : Svdef) (which : Which) {k : Key} (hk : sd.key ≠ k) :
    Frame k s (checkfailOne s sd which).1 := by
  unfold PerpdSvdef.checkfailOne
  split
  · exact run_frame _ _ _ _ hk
  · exact Frame.refl k s

theorem entryStep_frame {s s' : Sys} {sd sd' : Svdef} {k : Key} (hs : EntryStep s sd s' sd')
    (hok : SvOk s sd) (hk : sd.key ≠ k) : Frame k s s' := by
  cases hs with
  | reap which wstat hp hw =>
    have hne (w : Which) : s.children (sd.sv which).pid ≠ some (k, w) := by
      rw [hok.owned which hp]
      simp [hk]
    have h0 := (Frame.waited _ _ hne).trans
      (Frame.emitSv (s.waited (sd.sv which).pid) sd (.reap which wstat) hk (by simp [Event.pid]))
    have hok0 := SvOk.emitSv (SvOk.waited hok which wstat hp) sd (.reap which wstat)
    rcases reaped_cases (s.waited (sd.sv which).pid) sd which wstat with
      ⟨_, he⟩ | ⟨_, _, he⟩ | ⟨_, _, rfl, _, _, hl, he⟩ | ⟨_, _, _, he⟩ <;> rw [he]
    · exact h0.trans (run_frame _ _ _ _ (by simpa using hk))
    · exact h0.trans (run_frame _ _ _ _ (by simpa using hk))
    · exact h0.trans
        (calm_frame (Calm.reapedShutdown _ _ (by simpa using hl)) hok0 (by simpa using hk))
    · exact h0
  | checkfail =>
    have h0 := Frame.emitSv s sd .checkfail hk (by simp [Event.pid])
    rcases checkfail_cases s sd with ⟨_, he⟩ | ⟨_, _, he⟩ | ⟨_, _, he⟩ <;> rw [he]
    · exact h0
    · exact h0.trans (checkfailOne_frame _ _ _ hk)
    · refine (h0.trans (checkfailOne_frame _ _ _ hk)).trans (checkfailOne_frame _ _ _ ?_)
      rwa [(Kept.checkfailOne _ _ _).key]
  | start which cmd hc hm =>
    have h0 := Frame.emitSv s sd (.control which cmd) hk (by simp [Event.pid])
    rcases start_cases s sd which cmd with ⟨_, he⟩ | ⟨_, he⟩ <;> rw [he]
    · exact h0.trans (run_frame _ _ _ _ (by simpa using hk))
    · exact h0
  | calm s' sd' hs => exact calm_frame (Calm.of_calmStep hs) hok hk

end Perp.PerpdSlots
