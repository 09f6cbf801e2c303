import Perp.PerpdClient
import Perp.PerpdLeft

set_option autoImplicit false

/-!
# A failed fork is retried

The mark on a subservice whose fork failed and the global flag that asks for
another iteration are set together. They are cleared in different places.
-/
namespace Perp.PerpdFailing
open PerpdState PerpdSvdef PerpdMainloop PerpdClient PerpdFrame PerpdEntry PerpdEffect PerpdSlots
  PerpdActivate PerpdMoves PerpdPhases PerpdRuns PerpdService PerpdLeft TraceLaw

/-- Each failure that is on record afterwards was on record before, or it is counted. -/
structure Counted (s : Sys) (sd : Svdef) (s' : Sys) (sd' : Svdef) : Prop where
  flags : Flags s s'
  failing : s.flagTerminating = false → ∀ w, (sd'.sv w).has .failing = true →
    (sd.sv w).has .failing = true ∨ 0 < s'.flagFailing

namespace Counted
variable {s t u : Sys} {a b c : Svdef}

theorem of_same (h : Flags s t) (hf : ∀ w, (b.sv w).has .failing = true → (a.sv w).has .failing = true) :
    Counted s a t b :=
  ⟨h, fun _ w hw => Or.inl (hf w hw)⟩

theorem emitSv (s : Sys) (a x : Svdef) (e : SvEvent) : Counted s a (s.emitSv x e) a :=
  of_same ⟨rfl, rfl, rfl, le_refl _⟩ fun _ h => h

theorem setSv (s : Sys) (a : Svdef) (w : Which) (v : Subsv)
    (hv : v.has .failing = true → (a.sv w).has .failing = true) : Counted s a s (a.setSv w v) := by
  refine of_same (.refl s) fun x hx => ?_
  rw [Svdef.setSv_sv] at hx
  split at hx
  · next h => exact h ▸ hv hx
  · exact hx

theorem trans (h : Counted s a t b) (h' : Counted t b u c) : Counted s a u c where
  flags := h.flags.trans h'.flags
  failing ht w hw := by
    have ht' := h.flags.terminating.trans ht
    have := h'.flags.failing
    rcases h'.failing ht' w hw with hw | hw
    · exact (h.failing ht w hw).imp_right fun h => by omega
    · exact Or.inr hw

theorem run (s : Sys) (a : Svdef) (which : Which) (target : Target) :
    Counted s a (perpdSvdefRun s a which target).1 (perpdSvdefRun s a which target).2 := by
  refine ⟨.run s a which target, fun ht w hw => ?_⟩
  rcases run_cases s a which target with ⟨h, _⟩ | ⟨_, _, ret, s', v, h, hf, hv⟩ <;> rw [h] at hw ⊢
  · exact Or.inl hw
  rw [Svdef.setSv_sv] at hw
  split at hw
  · rw [hv.failing, Option.isNone_iff_eq_none] at hw
    right
    rw [hf.failing, if_pos ⟨hw, ht⟩]
    omega
  · exact Or.inl hw

theorem calm (h : Calm s a t b) : Counted s a t b :=
  of_same (.calm h) fun w hw => by rwa [h.flags w _ (by simp) (by simp)] at hw

theorem checkfailOne (s : Sys) (a : Svdef) (which : Which) :
    Counted s a (checkfailOne s a which).1 (checkfailOne s a which).2 := by
  unfold PerpdSvdef.checkfailOne
  split
  · exact run _ _ _ _
  · exact of_same (.refl s) fun _ h => h

theorem reaped (s : Sys) (a : Svdef) (which : Which) (wstat : ℕ) (hl : 0 < (a.sv which).pid) :
    Counted s a (perpdReaped (s.waited (a.sv which).pid) a which wstat).1.1
      (perpdReaped (s.waited (a.sv which).pid) a which wstat).1.2 := by
  have hw : Counted s a ((s.waited (a.sv which).pid).emitSv a (.reap which wstat)) a :=
    of_same ⟨rfl, rfl, rfl, le_refl _⟩ fun _ h => h
  have h0 := hw.trans (setSv _ a which (reapedSv (a.sv which) wstat) (by simp))
  rcases reaped_cases (s.waited (a.sv which).pid) a which wstat with
    ⟨_, he⟩ | ⟨_, _, he⟩ | ⟨_, _, rfl, _, _, hp, he⟩ | ⟨_, _, _, he⟩ <;> rw [he]
  · exact h0.trans (run _ _ _ _)
  · exact h0.trans (run _ _ _ _)
  · exact h0.trans (calm (.reapedShutdown _ _ (by simpa using hp)))
  · exact h0

theorem entryStep (hs : EntryStep s a t b) : Counted s a t b := by
  cases hs with
  | reap which wstat hp hw => exact reaped s a which wstat hp
  | checkfail =>
    have h0 := emitSv s a a .checkfail
    rcases checkfail_cases s a with ⟨_, he⟩ | ⟨_, _, he⟩ | ⟨_, _, he⟩ <;> rw [he]
    · exact h0
    · exact h0.trans (checkfailOne _ _ _)
    · exact (h0.trans (checkfailOne _ _ _)).trans (checkfailOne _ _ _)
  | start which cmd hc hm =>
    have h1 : Counted s a (s.emitSv a (.control which cmd)) (startFlags a which cmd) := by
      refine (emitSv s a a (.control which cmd)).trans (of_same (.refl _) fun w hw => ?_)
      by_cases h : which = w
      · subst h
        simpa using hw
      · rwa [startFlags_other _ _ _ _ h] at hw
    rcases start_cases s a which cmd with ⟨_, he⟩ | ⟨_, he⟩ <;> rw [he]
    · exact h1.trans (run _ _ _ _)
    · exact h1
  | calm s' sd' hs => exact calm (.of_calmStep hs)

theorem firstStart (s : Sys) (a : Svdef) :
    Counted s a (firstStart s a).1 (firstStart s a).2 := by
  have hlog : Counted s a (startLog s a).1 (startLog s a).2 := by
    unfold startLog
    split
    · exact (setSv s a .log _ (by simp)).trans (run _ _ _ _)
    · exact of_same (.refl s) fun _ h => h
  have hmain (t : Sys) (b : Svdef) : Counted t b (startMain t b).1 (startMain t b).2 := by
    unfold startMain
    split
    · refine Counted.trans ?_ (run _ _ _ _)
      split
      · exact setSv t b .main _ (by simp)
      · exact of_same (.refl t) fun _ h => h
    · exact setSv t b .main _ (by simp)
  rw [firstStart_eq]
  exact hlog.trans (hmain _ _)

end Counted

theorem checkfail_trace (s : Sys) (sd : Svdef) : ∃ evs,
    (perpdSvdefCheckfail s sd).1.trace = s.trace ++ .sv sd .checkfail :: evs := by
  have h0 : (s.emitSv sd .checkfail).trace = s.trace ++ [.sv sd .checkfail] := rfl
  rcases checkfail_cases s sd with ⟨_, he⟩ | ⟨_, _, he⟩ | ⟨_, _, he⟩ <;> rw [he]
  · exact ⟨[], h0⟩
  · obtain ⟨a, ha⟩ := checkfailOne_trace (s.emitSv sd .checkfail) sd .main
    exact ⟨a, by simp [ha, h0]⟩
  · obtain ⟨a, ha⟩ := checkfailOne_trace (s.emitSv sd .checkfail) sd .log
    obtain ⟨b, hb⟩ := checkfailOne_trace (checkfailOne (s.emitSv sd .checkfail) sd .log).1
      (checkfailOne (s.emitSv sd .checkfail) sd .log).2 .main
    exact ⟨a ++ b, by simp [hb, ha, h0]⟩

theorem checkfailOne_retried {s : Sys} {sd : Svdef} {w : Which} (h : SvOk s sd)
    (hw : w = .log → sd.has .haslog = true) (ht : s.flagTerminating = false)
    (hf : ((checkfailOne s sd w).2.sv w).has .failing = true) :
    0 < (checkfailOne s sd w).1.flagFailing := by
  unfold checkfailOne at hf ⊢
  split at hf
  · next hfail =>
    rw [if_pos hfail]
    rcases run_cases s sd w (if (sd.sv w).has .isreset then .reset else .start) with
      ⟨_, hl | hp⟩ | ⟨_, _, ret, s', v, he, hfs, hv⟩
    · exact absurd (hw hl.1) (by simp [hl.2])
    · have := h.failing w hfail
      omega
    · rw [he] at hf ⊢
      rw [Svdef.setSv_self, hv.failing, Option.isNone_iff_eq_none] at hf
      rw [hfs.failing, if_pos ⟨hf, ht⟩]
      omega
  · next hn => exact absurd hf hn

theorem checkfail_retried {s : Sys} {sd : Svdef} (h : SvOk s sd) (ha : sd.has .active = true)
    (ht : s.flagTerminating = false) (w : Which)
    (hf : ((perpdSvdefCheckfail s sd).2.sv w).has .failing = true) :
    0 < (perpdSvdefCheckfail s sd).1.flagFailing := by
  have h0 := SvOk.emitSv h sd .checkfail
  rcases checkfail_cases s sd with ⟨hn, _⟩ | ⟨_, hl, he⟩ | ⟨_, hl, he⟩
  · simp [ha] at hn
  · rw [he] at hf ⊢
    cases w with
    | main => exact checkfailOne_retried h0 (by simp) ht hf
    | log =>
      have hok := (SvOk.checkfailOne h0 .main).nolog (by simpa using hl)
      exact absurd hf (by simp [hok.2])
  · have h1 := SvOk.checkfailOne h0 .log
    have ht1 := (Flags.checkfailOne (s.emitSv sd .checkfail) sd .log).terminating.trans ht
    rw [he] at hf ⊢
    cases w with
    | main => exact checkfailOne_retried h1 (by simp) ht1 hf
    | log =>
      have hc := Counted.checkfailOne (checkfailOne (s.emitSv sd .checkfail) sd .log).1
        (checkfailOne (s.emitSv sd .checkfail) sd .log).2 .main
      rcases hc.failing ht1 .log hf with hf1 | hpos
      · have := checkfailOne_retried h0 (fun _ => hl) ht hf1
        exact this.trans_le hc.flags.failing
      · exact hpos

/-- A failure of a service that is not being deactivated is counted. -/
def Owed (s : Sys) (sd : Svdef) : Prop :=
  s.flagTerminating = false → sd.has .cull = false → ∀ w, (sd.sv w).has .failing = true →
    0 < s.flagFailing

theorem Owed.stable : Stable Owed := by
  intro s s' sd _ ht hf h ht' hc w hw
  exact (h (ht ▸ ht') hc w hw).trans_le hf

theorem Owed.counted {s s' : Sys} {sd sd' : Svdef} (h : Owed s sd) (hc : Counted s sd s' sd')
    (hk : sd.has .cull = true → sd'.has .cull = true) : Owed s' sd' := by
  intro ht hn w hw
  have hts : s.flagTerminating = false := hc.flags.terminating ▸ ht
  rcases hc.failing hts w hw with hw | hpos
  · have hnc : sd.has .cull = false := by
      by_contra hx
      exact absurd (hk (by simpa using hx)) (by simp [hn])
    exact (h hts hnc w hw).trans_le hc.flags.failing
  · exact hpos

theorem service_owed {k : Key} {s s' : Sys} {e e' : Option Svdef} (hs : ServiceStep k s e s' e')
    (ht : s'.flagTerminating = s.flagTerminating) (hf : s.flagFailing ≤ s'.flagFailing)
    (h : ∀ sd, e = some sd → Owed s sd) : ∀ sd, e' = some sd → Owed s' sd := by
  cases hs with
  | frame _ =>
    intro sd hsd ht' hc w hw
    exact (h sd hsd (ht ▸ ht') hc w hw).trans_le hf
  | entry _ _ hs _ =>
    rintro _ ⟨⟩
    exact (h _ rfl).counted (.entryStep hs) (Kept.entryStep hs).cull
  | @activate s1 sd _ _ ho =>
    rintro _ ⟨⟩
    have hb : Owed (s1.emitSv sd (.activate s.serial)) sd := by
      intro _ _ w hw
      simp [ho.blank.sv w] at hw
    have h1 := hb.counted (.firstStart _ sd) (by simp [ho.blank.cull])
    intro ht' hc w hw
    exact h1 ht' (by simpa using hc) w (by simpa using hw)
  | fail => simp
  | cull => simp

def AllOwed (t : Table) : Prop := ∀ sd ∈ t.svdefs, Owed t.sys sd

theorem AllOwed.part {t t' : Table} (h : AllOwed t) (ht : TableOk t) (hp : Part t t') :
    AllOwed t' := by
  replace hp := hp.steps
  induction hp with
  | refl => exact h
  | @tail b c hs hstep ih =>
    have hb : TableOk b := ht.moves (Relation.ReflTransGen.mono (fun _ _ hs => hs.1) _ _ hs)
    intro sd hsd
    have hn := (hb.move hstep.1).nodup
    refine service_owed (move_service hb hstep.1 sd.key) hstep.2.1 hstep.2.2 ?_ sd
      (entryOf_of_mem hn hsd)
    intro x hx
    exact ih x (entryOf_mem hx).1

/-- `perpd_svdef_checkfail()` finds an entry active if it has a failure to retry
and is not being deactivated. -/
def RetriedActive : Event → Prop
  | .sv sd .checkfail =>
    sd.has .cull = false → ∀ w, (sd.sv w).has .failing = true → sd.has .active = true
  | _ => True

theorem loop_owed :
    LoopInv (fun _ => RetriedActive) (fun w => AllOwed (table w)) (fun w => AllOwed (table w)) where
  top hw h := h.part hw.ok (loopTop_part _)
  poll inp hw h := h.part hw.ok (loopPoll_part _ inp)
  term {w} hw h := by
    by_cases ht : w.sys.flagTerm = 0
    · unfold loopTerm
      rw [if_pos ht]
      exact h
    · -- a terminating perpd retries nothing
      intro sd _ hn
      exact absurd ((loopTerm_terminating w ht).symm.trans hn) (by simp)
  chld inp hw _ h := h.part hw.ok (loopChld_part _ inp hw)
  scan inp hw h := h.part hw.ok (loopScan_part _ inp hw)
  failing {w} hw hp h := by
    unfold loopFailing at hp ⊢
    split
    · exact h
    next hf =>
    rw [if_neg hf] at hp
    split
    · exact h
    next ht =>
    rw [if_neg ht] at hp
    have h0 := (unfailing_phase w hw).ok
    refine checkfailLoop_each (H := fun s _ => s.flagTerminating = false) ?_ Owed.stable ?_ _ 0 _ _
      h0.ok h0.culled (by simp) (by simp) ?_ hp
    · exact fun _ ht _ h => ht.trans h
    · intro s sd hok hs hlaw _ hc v hv
      obtain ⟨evs, he⟩ := checkfail_trace s sd
      have hact : RetriedActive (.sv sd .checkfail) := hlaw s.trace _ evs he
      cases ha : sd.has .active with
      | true => exact checkfail_retried hok ha hs v hv
      | false =>
        have hsame : (perpdSvdefCheckfail s sd).2 = sd := by
          simp [perpdSvdefCheckfail, ha]
        rw [hsame] at hc hv
        exact absurd (hact hc v hv) (by simp [ha])
    · intro j sd _ _
      simpa using ht
  clients inp nready hw h :=
    h.part hw.ok (.of_stretch (loopClients_work _ inp nready hw.culled).toStretch)
  exit n h := h

/-- A retry is pending for every subservice that owes one. -/
def Remembered (w : Perpd) : Prop :=
  w.sys.flagTerminating = false → ∀ sd ∈ w.svdefs, sd.has .cull = false →
    ∀ v, (sd.sv v).has .failing = true → 0 < w.sys.flagFailing

/-- Where the retries find every entry active that owes one, no failed fork is forgotten. -/
theorem failing_remembered (cfg : Config) (inputs : List IterIn)
    (hp : ∀ e ∈ (perpdRun cfg inputs).sys.trace, RetriedActive e) :
    Remembered (perpdRun cfg inputs) := by
  have h := loop_owed.run cfg (by simp [AllOwed, table, perpdStart]) inputs ((along_const _ _).mpr hp)
  exact fun ht sd hsd => h sd hsd ht

instance : (e : Event) → Decidable (RetriedActive e)
  | .sv _ .checkfail => inferInstanceAs (Decidable (_ → ∀ _, _ → _))
  | .sv _ (.fork _ _ _ _ _ _ _) | .sv _ (.activate _) | .sv _ (.reap _ _) | .sv _ (.kill _ _ _)
  | .sv _ (.control _ _) | .sv _ .wantcull | .sv _ (.closeLog _ _) | .sv _ .cull | .sv _ .status =>
    isTrue trivial
  | .opened _ _ | .closed _ _ | .request _ | .sent _ _ | .term | .scan | .scanned => isTrue trivial

/-- The first start of a service fails twice. -/
def failsTwice : List IterIn := [scans quiet [service "foo" 2 ⟨some 8, false, false, none, none⟩], quiet]

theorem failing_remembered_twice : Remembered (perpdRun (plain [none, none, none]) failsTwice) :=
  failing_remembered (plain [none, none, none]) failsTwice (by decide +kernel)

/-- A running service exits, the fork of its reset fails, and a scan in the same
iteration ends in an error. -/
def failsUnscanned : List IterIn :=
  [scans quiet [service "foo" 2 ⟨some 8, false, false, none, none⟩],
    { exits quiet [(100, 0)] with signals := [.sigchld, .sighup], scan := ⟨true, [], true⟩ }]

theorem failing_remembered_fails :
    ¬ Remembered (perpdRun (plain [some 100, none]) failsUnscanned) := by
  intro h
  let w := perpdRun (plain [some 100, none]) failsUnscanned
  have hsd : ∃ sd ∈ w.svdefs, sd.has .cull = false ∧ sd.svMain.has .failing = true := by
    decide +kernel
  obtain ⟨sd, hsd, hc, hf⟩ := hsd
  have hpos := h (by decide +kernel) sd hsd hc .main hf
  have hzero : (perpdRun (plain [some 100, none]) failsUnscanned).sys.flagFailing = 0 := by
    decide +kernel
  omega

end Perp.PerpdFailing
