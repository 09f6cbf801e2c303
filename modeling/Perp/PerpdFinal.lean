import Perp.PerpdLeft

set_option autoImplicit false

/-!
# Termination is final

From the moment `flag_term` is processed perpd only works on the entries it has
left, and removes them.
-/
namespace Perp.PerpdFinal
open PerpdState PerpdSvdef PerpdConn PerpdMainloop PerpdMoves PerpdStill PerpdPhases
  PerpdRuns PerpdService PerpdLeft TraceLaw

/-- What a terminating perpd may still do: nothing is scanned, activated, opened
or said to a client. -/
def Allowed : Event → Prop
  | .sv _ (.activate _) | .opened _ _ | .request _ | .sent _ _ | .scan | .scanned => False
  | _ => True

/-- Once `flag_term` has been processed, only what is allowed happens. -/
def AfterTerm (past : List Event) (e : Event) : Prop := .term ∈ past → Allowed e

theorem allowed_own {e : Event} (h : Own e) : Allowed e := by
  unfold Allowed
  split <;> first | exact h | trivial

theorem afterTerm_running {w : Perpd} (h : LoopOk w) (ht : w.sys.flagTerminating = false) :
    Along AfterTerm w.sys.trace := by
  intro past e rest he hm
  have hterm : .term ∈ w.sys.trace := by
    rw [he]
    exact List.mem_append_left _ hm
  exact absurd (ht.symm.trans (h.ok.term.mpr hterm)) (by simp)

theorem afterTerm_within {s s' : Sys} (h : Along AfterTerm s.trace) (hw : Within Allowed s s') :
    Along AfterTerm s'.trace := by
  obtain ⟨evs, he, ha⟩ := hw
  rw [he]
  exact h.append_free fun e hm past _ => ha e hm

theorem cull_allowed (s : Sys) (svdefs : List Svdef) : Within Allowed s (perpdCull s svdefs).1 := by
  obtain ⟨evs, ht, he⟩ := cullLoop_trace svdefs.length 0 s svdefs
  refine ⟨evs, ht, fun e hm => ?_⟩
  rcases he e hm with ⟨x, _, _, rfl⟩ | ⟨fd, o, rfl⟩ <;> trivial

theorem chore_allowed {t t' : Table} (h : Chore t t') : Within Allowed t.sys t'.sys :=
  h.owned.mono fun _ => allowed_own

theorem loopTerm_allowed (w : Perpd) : Within Allowed w.sys (loopTerm w).sys := by
  have h0 : Within Allowed w.sys (terminated w.sys) :=
    ⟨[.term, .closed w.sys.fdListen (w.sys.fds w.sys.fdListen)],
      by simp [terminated, Sys.close, Sys.emit], by simp [Allowed]⟩
  have h2 := h0.trans (chore_allowed (loopTerm_chore w))
  unfold loopTerm
  dsimp only
  split
  · exact .refl _
  split
  · exact h2.trans (cull_allowed _ _)
  · exact h2

theorem waitup_allowed {s : Sys} {svdefs : List Svdef} {rest : Multiset ℕ} (reaps : List (ℕ × ℕ))
    (h : TableOk ⟨s, svdefs, rest⟩) (hc : CullAll ⟨s, svdefs, rest⟩) :
    Within Allowed s (perpdWaitup reaps s svdefs).1 := by
  have h1 := chore_allowed (waitupLoop_work reaps 0 0 s svdefs h hc)
  have h2 := h1.trans (cull_allowed _ (perpdWaitupLoop reaps 0 0 s svdefs).1.2)
  unfold perpdWaitup Within
  dsimp only
  rw [apply_ite Sys.trace, perpdTriggerScan_trace, ite_self]
  split
  · exact h2
  · exact h1

theorem loopChld_allowed (w : Perpd) (inp : IterIn) (h : LoopOk w) :
    Within Allowed w.sys (loopChld w inp).sys := by
  have hi : Idle w.sys { w.sys with flagChld := 0 } := .of_silent rfl rfl rfl rfl rfl rfl rfl rfl
  unfold loopChld
  split
  · exact .refl _
  · exact waitup_allowed (s := { w.sys with flagChld := 0 }) inp.reaps
      (h.ok.moves (.single (.idle (t := table w) _ hi))) h.culled

theorem afterTerm_inv : LoopInv (fun _ _ => True) (fun w => Along AfterTerm w.sys.trace)
    (fun w => Along AfterTerm w.sys.trace) where
  top {w} hw h := afterTerm_within h (chore_allowed (loopTop_work w))
  poll {w} inp hw h := by rwa [loopPoll_trace]
  term {w} hw h := afterTerm_within h (loopTerm_allowed w)
  chld inp hw _ h := afterTerm_within h (loopChld_allowed _ inp hw)
  scan {w} inp hw h := by
    by_cases ht : w.sys.flagTerminating = true
    · have hup := hw.settled ht
      have ha := hw.closed ht
      unfold loopScan
      rwa [if_pos ⟨hup.2, by simp [ha.1]⟩]
    · refine afterTerm_running (loopScan_phase w inp hw).ok ?_
      exact (loopScan_part w inp hw).terminating.trans (by simpa [table] using ht)
  failing {w} hw _ h := by
    unfold loopFailing
    split
    · exact h
    split
    · exact h
    · have h0 := (unfailing_phase w hw).ok
      have hc := checkfailLoop_work w.svdefs.length 0 { w.sys with flagFailing := 0 } w.svdefs
        h0.culled
      exact afterTerm_within (s := { w.sys with flagFailing := 0 }) h (chore_allowed hc)
  clients {w} inp nready hw h := by
    by_cases ht : w.sys.flagTerminating = true
    · rwa [loopClients_terminating w inp nready hw.ok ht (hw.closed ht).2]
    · refine afterTerm_running (loopClients_phase w inp nready hw).ok ?_
      have hp := loopClients_work w inp nready hw.culled
      exact hp.flags.terminating.trans (by simpa [table] using ht)
  exit _ h := h

theorem keys_terminating {t t' : Table} (h : TableOk t) (hm : Moves t t')
    (ht : t.sys.flagTerminating = true) : ∀ sd' ∈ t'.svdefs, ∃ sd ∈ t.svdefs, sd.key = sd'.key := by
  induction hm with
  | refl => exact fun sd hsd => ⟨sd, hsd, rfl⟩
  | @tail a b hm hmove ih =>
    have hta : a.sys.flagTerminating = true := terminating_mono h hm ht
    have hkeep (hb : ∀ sd' ∈ b.svdefs, ∃ sd ∈ a.svdefs, sd.key = sd'.key) :
        ∀ sd' ∈ b.svdefs, ∃ sd ∈ t.svdefs, sd.key = sd'.key := by
      intro sd' hsd'
      obtain ⟨x, hx, hxk⟩ := hb sd' hsd'
      obtain ⟨sd, hsd, hk⟩ := ih x hx
      exact ⟨sd, hsd, hk.trans hxk⟩
    cases hmove with
    | entry i sd s' sd' hi hs hterm =>
      refine hkeep fun x hx => ?_
      rcases mem_set_cases hx with rfl | ⟨j, _, hj⟩
      · exact ⟨sd, List.mem_of_getElem? hi, (PerpdEffect.Kept.entryStep hs).key.symm⟩
      · exact ⟨x, List.mem_of_getElem? hj, rfl⟩
    | activate svdir st d s' sd hnew hroom hterm ha =>
      exact absurd (hta.symm.trans hterm) (by simp)
    | cull i sd hi hc =>
      refine hkeep fun x hx => ⟨x, ?_, rfl⟩
      exact (swapRemove_perm _ _ _ hi).mem_iff.mpr (List.mem_cons_of_mem _ hx)
    | activateFail | accept | drop | term | idle => exact ih

/-- What is left of perpd while it terminates: no clients, and services that are
to be down and removed. -/
structure WindingDown (w : Perpd) : Prop where
  clients : w.clients = []
  culled : ∀ sd ∈ w.svdefs, sd.has .cull = true ∧
    ∀ which, (which = .log → sd.has .haslog = true) → (sd.sv which).has .wantdown = true

end Perp.PerpdFinal
