import Perp.PerpdClient
import Perp.PerpdLeft
import Perp.PerpdWalk

set_option autoImplicit false

/-!
# A service that is to be cycled

The entry of a service that is sticky again before its deactivation is complete
carries CYCLE. When it is removed the base directory has to be scanned once more.
-/
namespace Perp.PerpdCycle
open PerpdState PerpdSvdef PerpdConn PerpdMainloop PerpdClient PerpdFrame PerpdEntry PerpdEffect
  PerpdSlots PerpdActivate PerpdMoves PerpdStill PerpdPhases PerpdRuns PerpdService PerpdLeft
  PerpdWalk TraceLaw

/-- Was the last that perpd did for the processes of the service to reap one? -/
def reapedLast (k : Key) : Monitor Event Bool where
  init := false
  next q
    | .sv sd (.reap _ _) => if sd.key = k then true else q
    | .sv sd (.fork _ _ _ _ _ _ _) => if sd.key = k then false else q
    | _ => q

/-- In an iteration that leads from `w` to `w'` and does not find perpd
terminating, an entry that is to be cycled is removed. -/
structure Removed (w w' : Perpd) (pre : List Event) (sd : Svdef) (post : List Event) : Prop where
  trace : w'.sys.trace = w.sys.trace ++ (pre ++ .sv sd .cull :: post)
  cycle : sd.has .cycle = true
  terminating : w'.sys.flagTerminating = false

/-- The directory has been read since, or is going to be. -/
def ScanPending (w' : Perpd) (post : List Event) : Prop := .scanned ∈ post ∨ 0 < w'.sys.flagHup

theorem reapedLast_ignores {k : Key} {e : Event} (h : e.key ≠ some k) (q : Bool) :
    (reapedLast k).next q e = q := by
  unfold reapedLast
  dsimp only
  split <;> simp_all [Event.key]

/-- The events since the trace had length `n`. -/
def since (n : ℕ) (s : Sys) : List Event := s.trace.drop n

theorem since_append {n : ℕ} {s t : Sys} {evs : List Event} (hn : n ≤ s.trace.length)
    (h : t.trace = s.trace ++ evs) : since n t = since n s ++ evs := by
  rw [since, h, List.drop_append_of_le_length hn]
  rfl

/-- No child of the service was reaped lately. -/
def Unreaped (n : ℕ) (s : Sys) (sd : Svdef) : Prop :=
  (reapedLast sd.key).run (since n s) = false

theorem Unreaped.stable (n : ℕ) : Stable (Unreaped n) := by
  intro s s' sd hf _ _ h
  obtain ⟨evs, he, hk, _⟩ := hf.grows
  have hd : since n s' = since n s ++ evs.drop (n - s.trace.length) := by
    rw [since, he, List.drop_append]
    rfl
  unfold Unreaped
  rw [hd, Monitor.run_append_of_ignored]
  · exact h
  · exact fun e hm => reapedLast_ignores (hk e (List.mem_of_mem_drop hm))

theorem reaped_unreaped {n : ℕ} {s : Sys} {sd : Svdef} (which : Which) (wstat : ℕ)
    (hok : SvOk s sd) (hp : 0 < (sd.sv which).pid) :
    let r := perpdReaped (s.waited (sd.sv which).pid) sd which wstat
    r.2 = false → perpdSvdefCullok r.1.2 = true → Unreaped n r.1.1 r.1.2 := by
  intro r hflag hc
  obtain ⟨x, v, hf, hk, _, hr, _⟩ := reaped_failed which wstat hok hp hflag hc
  obtain ⟨now, towait, ht⟩ := hf.trace
  have hkr : r.1.2.key = x.key := by
    rw [hr, hk, Svdef.setSv_key]
  unfold Unreaped
  by_cases hn : n ≤ ((s.waited (sd.sv which).pid).emitSv sd (.reap which wstat)).trace.length
  · rw [since_append hn ht, Monitor.run_concat, hkr]
    simp [reapedLast]
  · rw [since, ht, List.drop_eq_nil_of_le]
    · rfl
    · rw [List.length_append, List.length_singleton]
      omega

/-- Every removal so far is followed by a scan, or `Q` holds. -/
def Pending (n : ℕ) (s : Sys) (Q : Prop) : Prop :=
  ∀ pre sd post, since n s = pre ++ .sv sd .cull :: post → sd.has .cycle = true →
    (reapedLast sd.key).run pre = true → .scanned ∈ post ∨ Q

theorem Pending.mono {n : ℕ} {s : Sys} {Q R : Prop} (h : Pending n s Q) (hq : Q → R) :
    Pending n s R :=
  fun pre sd post he hc hr => (h pre sd post he hc hr).imp_right hq

/-- Is no entry removed by this event? -/
def Spares : Event → Prop
  | .sv _ .cull => False
  | _ => True

theorem Spares.of_inner {e : Event} (h : Inner e) : Spares e := by
  unfold Spares
  split
  · exact h
  · trivial

theorem Pending.append {n : ℕ} {s s' : Sys} {Q : Prop} {evs : List Event} (h : Pending n s Q)
    (hn : n ≤ s.trace.length) (ht : s'.trace = s.trace ++ evs) (he : ∀ e ∈ evs, Spares e) :
    Pending n s' Q := by
  intro pre sd post hs hc hr
  rw [since_append hn ht] at hs
  rcases split_append hs with ⟨as, _, h2⟩ | ⟨mid, h1, rfl⟩
  · exact (he (.sv sd .cull) (by simp [h2])).elim
  · exact (h pre sd mid h1 hc hr).imp_left (List.mem_append_left _)

theorem Pending.scanned {n : ℕ} {s : Sys} (hn : n ≤ s.trace.length) (Q : Prop) :
    Pending n (s.emit .scanned) Q := by
  intro pre sd post hs _ _
  rw [since_append (t := s.emit .scanned) hn rfl] at hs
  rcases split_append hs with ⟨as, _, h2⟩ | ⟨mid, _, rfl⟩
  · cases as <;> simp at h2
  · simp

theorem Pending.fresh {n : ℕ} {s : Sys} (h : ∀ e ∈ since n s, Spares e) (Q : Prop) :
    Pending n s Q := by
  intro pre sd post hs _ _
  exact (h (.sv sd .cull) (by simp [hs])).elim

/-- The removals of `perpd_cull()`, where the entries that were finished are accounted for by `Q`. -/
theorem Pending.cull {n : ℕ} {s : Sys} {svdefs : List Svdef} {R Q : Prop} (h : Pending n s R)
    (hn : n ≤ s.trace.length)
    (hl : ∀ sd ∈ svdefs, perpdSvdefCullok sd = true → Unreaped n s sd ∨ (sd.has .cycle = true → Q)) :
    Pending n (perpdCull s svdefs).1 (R ∨ Q) := by
  obtain ⟨evs, ht, he⟩ := cullLoop_trace svdefs.length 0 s svdefs
  intro pre sd post hs hc hr
  rw [since_append (t := (perpdCull s svdefs).1) hn ht] at hs
  rcases split_append hs with ⟨as, rfl, h2⟩ | ⟨mid, h1, rfl⟩
  · rcases he (.sv sd .cull) (by simp [h2]) with ⟨x, hx, hcs, hxe⟩ | ⟨fd, o, hx⟩
    · obtain rfl : sd = x := by simpa using hxe
      -- the removals before it do not count
      rw [Monitor.run_append_of_ignored] at hr
      · rcases hl sd hx hcs with hu | hq
        · exact absurd (hr.symm.trans hu) (by simp)
        · exact Or.inr (Or.inr (hq hc))
      · intro e hm q
        rcases he e (by simp [h2, hm]) with ⟨y, _, _, rfl⟩ | ⟨fd, o, rfl⟩ <;> rfl
    · simp at hx
  · exact (h pre sd mid h1 hc hr).imp (List.mem_append_left _) Or.inl

theorem Pending.inside {n : ℕ} {s s' : Sys} {Q : Prop} (h : Pending n s Q)
    (hn : n ≤ s.trace.length) (hi : Inside s s') : Pending n s' Q := by
  obtain ⟨evs, ht, he⟩ := hi
  exact h.append hn ht fun e hm => .of_inner (he e hm)

theorem Pending.triggerScan {n : ℕ} {s : Sys} {Q : Prop} (h : Pending n s Q) :
    Pending n (perpdTriggerScan s) Q := by
  unfold Pending since at h ⊢
  rwa [perpdTriggerScan_trace]

section Iteration
variable {n : ℕ} {s : Sys} {svdefs : List Svdef} {rest : Multiset ℕ}

theorem waitup_pending (reaps : List (ℕ × ℕ)) (h : TableOk ⟨s, svdefs, rest⟩)
    (ht : s.flagTerminating = false) (hn : n ≤ s.trace.length)
    (hs : ∀ e ∈ since n s, Spares e) (hu : ∀ sd, Unreaped n s sd) :
    Pending n (perpdWaitup reaps s svdefs).1 (0 < (perpdWaitup reaps s svdefs).1.flagHup) := by
  have hc : CullAll ⟨s, svdefs, rest⟩ := fun hx => absurd (hx.symm.trans ht) (by simp)
  have hw := waitupLoop_work reaps 0 0 s svdefs h hc
  have hl := waitupLoop_left (P := fun _ _ => True) (Unreaped.stable n)
    (fun which wstat hok _ hp hflag hcs _ => reaped_unreaped which wstat hok hp hflag hcs)
    reaps 0 0 s svdefs h hc (fun sd _ _ => Or.inl (hu sd)) (fun _ _ _ _ => trivial)
  have h1 := ((Pending.fresh hs False).inside hn hw.inside)
  have hn1 := hn.trans (trace_le h hw.moves)
  have h2 := h1.cull hn1 fun sd hsd hcs => (hl sd hsd hcs).imp_right fun hx => hx.2
  have ht1 := hw.flags.terminating.trans ht
  have ht2 := (cull_stretch (perpdWaitupLoop reaps 0 0 s svdefs).1.1
    (perpdWaitupLoop reaps 0 0 s svdefs).1.2 rest).flags.terminating.trans ht1
  have hup (t : Sys) (hx : t.flagTerminating = false) : 0 < (perpdTriggerScan t).flagHup := by
    simp [perpdTriggerScan, hx, Sys.selfpipePing]
  unfold perpdWaitup
  dsimp only
  split
  · split
    · exact h2.triggerScan.mono fun _ => hup _ ht2
    · exact h1.triggerScan.mono False.elim
  · next hcy =>
    split
    · exact h2.mono fun hx => absurd (hx.resolve_left id) hcy
    · exact h1.mono False.elim

theorem waitup_unreaped (reaps : List (ℕ × ℕ)) (h : TableOk ⟨s, svdefs, rest⟩)
    (ht : s.flagTerminating = false) (hu : ∀ sd, Unreaped n s sd) :
    ∀ sd ∈ (perpdWaitup reaps s svdefs).2, perpdSvdefCullok sd = true →
      Unreaped n (perpdWaitup reaps s svdefs).1 sd :=
  waitup_left (P := fun _ _ => True) (Unreaped.stable n)
    (fun which wstat hok _ hp hflag hcs _ => reaped_unreaped which wstat hok hp hflag hcs)
    reaps s svdefs h (fun hx => absurd (hx.symm.trans ht) (by simp)) (fun sd _ _ => hu sd)
    (fun _ _ _ _ => trivial)

theorem Unreaped.marked {sd sd' : Svdef} (hm : Marked sd sd') (h : Unreaped n s sd) :
    Unreaped n s sd' := by
  unfold Unreaped at h ⊢
  rwa [hm.key]

theorem scan_pending (inp : ScanIn) (h : TableOk ⟨s, svdefs, rest⟩)
    (ht : s.flagTerminating = false) (hn : n ≤ s.trace.length) (ho : inp.opendirOk = true)
    (hu : ∀ sd ∈ svdefs, perpdSvdefCullok sd = true → Unreaped n s sd) :
    Pending n (perpdScan inp s svdefs).1 (0 < (perpdScan inp s svdefs).1.flagHup) := by
  have h0 := emit_stretch s svdefs rest .scan trivial
  have h2 := h0.trans (scan_walk s svdefs rest inp.dirents ht)
  obtain ⟨h3', hc⟩ := scan_end s svdefs rest inp.dirents ht
  have h3 := h0.trans h3'
  have hn2 := hn.trans (trace_le h h2.moves)
  have hn3 := hn.trans (trace_le h h3.moves)
  have hw (m : ℕ) := @scanCull_work rest m 0 0 _ _ hc
  have h4 (m : ℕ) := h3.trans (hw m).toStretch
  have hl4 := scan_pass_left (Unreaped.stable n) Unreaped.marked inp.dirents h ht hu
  have hp4 (m : ℕ) := (Pending.scanned hn2 False).inside hn3 (hw m).inside
  have hp5 (m : ℕ) := (hp4 m).cull (Q := False) (hn.trans (trace_le h (h4 m).moves))
    fun sd hsd hcs => (hl4 m sd hsd hcs).imp_right fun hx hcy => by simp [hx.2] at hcy
  have hup (t : Sys) (hx : t.flagTerminating = false) : 0 < (perpdTriggerScan t).flagHup := by
    simp [perpdTriggerScan, hx, Sys.selfpipePing]
  unfold perpdScan
  dsimp only
  split
  · next hno => simp [ho] at hno
  split
  · exact fun _ _ _ _ _ _ => Or.inr (hup _ (h2.flags.terminating.trans ht))
  · split <;> split
    · exact (hp5 _).triggerScan.mono fun hx => hx.elim False.elim False.elim
    · exact (hp4 _).triggerScan.mono False.elim
    · exact (hp5 _).mono fun hx => hx.elim False.elim False.elim
    · exact (hp4 _).mono False.elim

theorem frame_unreaped {s' : Sys} (hf : ∀ k, Frame k s s')
    (ht : s'.flagTerminating = s.flagTerminating) (hl : s.flagFailing ≤ s'.flagFailing)
    (hu : ∀ sd, Unreaped n s sd) : ∀ sd, Unreaped n s' sd :=
  fun sd => Unreaped.stable n (hf sd.key) ht hl (hu sd)

theorem checkstaleLoop_frame (now : Tain) (cs : List Conn) (s : Sys) (k : Key) :
    Frame k s (checkstaleLoop now cs s).1 := by
  induction cs generalizing s with
  | nil => exact .refl k s
  | cons c cs ih =>
    unfold checkstaleLoop
    dsimp only
    refine Frame.trans ?_ (ih _)
    split
    · unfold perpdConnCheckstale perpdConnClose
      split
      · split
        · exact .close _ _
        · exact .refl k s
      · exact .refl k s
    · exact .refl k s

/-- No more than `m` activations of any service. -/
def Activates (m : ℕ) (s s' : Sys) : Prop :=
  ∃ evs, s'.trace = s.trace ++ evs ∧ ∀ k, activations k evs ≤ m

theorem Activates.trans {a b : ℕ} {s t u : Sys} (h : Activates a s t) (h' : Activates b t u) :
    Activates (a + b) s u := by
  obtain ⟨x, hx, hax⟩ := h
  obtain ⟨y, hy, hay⟩ := h'
  refine ⟨x ++ y, by rw [hy, hx, List.append_assoc], fun k => ?_⟩
  have h1 := hax k
  have h2 := hay k
  rw [activations_append]
  omega

theorem Activates.inside {s s' : Sys} (h : Inside s s') : Activates 0 s s' := by
  obtain ⟨evs, ht, he⟩ := h
  exact ⟨evs, ht, fun k => (activations_eq_zero fun sd i hm => he _ hm).le⟩

theorem Activates.idle {s s' : Sys} (h : Idle s s') : Activates 0 s s' := by
  obtain ⟨evs, ht, he⟩ := h.grows
  exact ⟨evs, ht, fun k => (activations_eq_zero fun sd i hm => he _ hm).le⟩

theorem Activates.cull (s : Sys) (svdefs : List Svdef) : Activates 0 s (perpdCull s svdefs).1 := by
  obtain ⟨evs, ht, he⟩ := cullLoop_trace svdefs.length 0 s svdefs
  refine ⟨evs, ht, fun k => (activations_eq_zero fun sd i hm => ?_).le⟩
  rcases he _ hm with ⟨x, _, _, hx⟩ | ⟨fd, o, hx⟩ <;> simp at hx

theorem scanLoop_activations (dirents : List Dirent) (gotFail : ℕ) (s : Sys) (svdefs : List Svdef)
    (hn : (svdefs.map Svdef.key).Nodup) :
    Activates 1 s (perpdScanLoop dirents gotFail s svdefs).1.1 := by
  obtain ⟨hw, hn'⟩ := Walked.scanLoop dirents gotFail s svdefs hn
  obtain ⟨evs, ks, ht, hks, _, hcount⟩ := hw.grows
  rw [hks] at hn'
  refine ⟨evs, ht, fun k => ?_⟩
  rw [hcount]
  exact List.nodup_iff_count_le_one.mp hn'.of_append_right k

theorem scan_activations (inp : ScanIn) (hn : (svdefs.map Svdef.key).Nodup)
    (ht : s.flagTerminating = false) : Activates 1 s (perpdScan inp s svdefs).1 := by
  have h0 := Activates.idle (.emit s .scan trivial)
  have hc := (scan_end s svdefs 0 inp.dirents ht).2
  have hn' : ((svdefs.map (·.drop .active)).map Svdef.key).Nodup := by
    simpa [Function.comp_def] using hn
  have h5 := h0.trans (scanLoop_activations inp.dirents 0 (s.emit .scan) _ hn')
  have h6 (m : ℕ) := (h5.trans (.idle (.emit _ .scanned trivial))).trans
    (.inside (@scanCull_work 0 m 0 0 _ _ hc).inside)
  have h7 (m : ℕ) (l : List Svdef) := (h6 m).trans (.cull _ l)
  unfold perpdScan
  dsimp only
  split
  · exact h0.trans (b := 1) ⟨[], by simp [activations]⟩
  split
  · exact h5.trans (.idle (perpdTriggerScan_idle _))
  · split <;> split
    · exact (h7 _ _).trans (.idle (perpdTriggerScan_idle _))
    · exact (h6 _).trans (.idle (perpdTriggerScan_idle _))
    · exact h7 _ _
    · exact h6 _

theorem waitup_activations (reaps : List (ℕ × ℕ)) (h : TableOk ⟨s, svdefs, rest⟩)
    (hc : CullAll ⟨s, svdefs, rest⟩) : Activates 0 s (perpdWaitup reaps s svdefs).1 := by
  have h1 := Activates.inside (waitupLoop_work reaps 0 0 s svdefs h hc).inside
  have h2 := h1.trans (.cull _ (perpdWaitupLoop reaps 0 0 s svdefs).1.2)
  unfold perpdWaitup
  dsimp only
  split <;> split
  · exact h2.trans (.idle (perpdTriggerScan_idle _))
  · exact h1.trans (.idle (perpdTriggerScan_idle _))
  · exact h2
  · exact h1

end Iteration

section Loop
variable {w : Perpd}

theorem loopChld_activations (inp : IterIn) (h : LoopOk w) :
    Activates 0 w.sys (loopChld w inp).sys := by
  unfold loopChld
  split
  · exact .inside (.refl _)
  · exact waitup_activations (s := { w.sys with flagChld := 0 }) inp.reaps
      (h.ok.moves (.single (.idle (t := table w) _ (.of_silent rfl rfl rfl rfl rfl rfl rfl rfl)))) h.culled

theorem loopScan_activations (inp : IterIn) (h : LoopOk w) :
    Activates 1 w.sys (loopScan w inp).sys := by
  unfold loopScan
  split
  · exact ⟨[], by simp [activations]⟩
  next hg =>
  have ht : w.sys.flagTerminating = false := by
    by_contra hn
    have hn' : w.sys.flagTerminating = true := by simpa using hn
    exact hg ⟨(h.settled hn').2, by simp [(h.closed hn').1]⟩
  exact scan_activations (s := { w.sys with flagHup := 0 }) inp.scan h.ok.nodup ht

theorem loopFailing_activations (h : LoopOk w) : Activates 0 w.sys (loopFailing w).1.sys := by
  have h0 := (unfailing_phase w h).ok
  unfold loopFailing
  split
  · exact .inside (.refl _)
  split
  · exact .inside (.refl _)
  · exact .inside (checkfailLoop_work w.svdefs.length 0 { w.sys with flagFailing := 0 } w.svdefs
      h0.culled).inside

theorem loopTerm_activations (w : Perpd) : Activates 0 w.sys (loopTerm w).sys := by
  have h0 : Activates 0 w.sys (terminated w.sys) := by
    refine ⟨[.term, .closed w.sys.fdListen (w.sys.fds w.sys.fdListen)], ?_, ?_⟩
    · simp [terminated, Sys.close, Sys.emit]
    · intro k
      simp [activations, activates]
  have h2 := h0.trans (.inside (loopTerm_chore w).inside)
  unfold loopTerm
  dsimp only
  split
  · exact ⟨[], by simp [activations]⟩
  split
  · exact h2.trans (.cull _ _)
  · exact h2

/-- The state of the iteration when its signals have been read. -/
theorem loopPoll_still (w : Perpd) (inp : IterIn) :
    let w1 := (loopPoll (loopTop w) inp).1
    (∀ e ∈ since w.sys.trace.length w1.sys, Spares e) ∧
      (∀ sd, Unreaped w.sys.trace.length w1.sys sd) ∧ Activates 0 w.sys w1.sys := by
  intro w1
  have hi := loopPoll_idle (loopTop w) inp
  have hw := loopTop_work w
  obtain ⟨a, ha, hea⟩ := hw.inside
  obtain ⟨b, hb, heb⟩ := hi.grows
  refine ⟨?_, ?_, (Activates.inside hw.inside).trans (.idle hi)⟩
  · have hs : since w.sys.trace.length w1.sys = a ++ b := by
      change (loopTop w).sys.trace = w.sys.trace ++ a at ha
      rw [since, hb, ha]
      simp
    intro e he
    rw [hs] at he
    rcases List.mem_append.mp he with he | he
    · exact .of_inner (hea e he)
    · have := heb e he
      unfold Plain at this
      split at this <;> first | exact this.elim | trivial
  · have h0 : ∀ sd, Unreaped w.sys.trace.length w.sys sd := by
      intro sd
      unfold Unreaped since
      rw [List.drop_length]
      rfl
    have hf (k : Key) : Frame k w.sys (loopTop w).sys :=
      (Frame.tainNow w.sys).trans (checkstaleLoop_frame _ _ _ k)
    have h1 := frame_unreaped hf hw.flags.terminating hw.flags.failing h0
    exact frame_unreaped hi.frame hi.terminating (loopPoll_failing _ inp).ge h1

theorem loopChld_pending {n : ℕ} (inp : IterIn) (h : LoopOk w) (ht : w.sys.flagTerminating = false)
    (hn : n ≤ w.sys.trace.length) (hs : ∀ e ∈ since n w.sys, Spares e)
    (hu : ∀ sd, Unreaped n w.sys sd) :
    let w' := loopChld w inp
    Pending n w'.sys (0 < w'.sys.flagHup) ∧
      ∀ sd ∈ w'.svdefs, perpdSvdefCullok sd = true → Unreaped n w'.sys sd := by
  unfold loopChld
  split
  · exact ⟨.fresh hs _, fun sd _ _ => hu sd⟩
  · have h0 : TableOk ⟨{ w.sys with flagChld := 0 }, w.svdefs, connfds w.clients⟩ :=
      h.ok.moves (.single (.idle (t := table w) _ (.of_silent rfl rfl rfl rfl rfl rfl rfl rfl)))
    exact ⟨waitup_pending inp.reaps h0 ht hn hs hu, waitup_unreaped inp.reaps h0 ht hu⟩

theorem loopScan_pending {n : ℕ} (inp : IterIn) (h : LoopOk w) (ht : w.sys.flagTerminating = false)
    (hn : n ≤ w.sys.trace.length) (ho : inp.scan.opendirOk = true)
    (hp : Pending n w.sys (0 < w.sys.flagHup))
    (hu : ∀ sd ∈ w.svdefs, perpdSvdefCullok sd = true → Unreaped n w.sys sd) :
    let w' := loopScan w inp
    Pending n w'.sys (0 < w'.sys.flagHup) := by
  unfold loopScan
  split
  · exact hp
  · have h0 : TableOk ⟨{ w.sys with flagHup := 0 }, w.svdefs, connfds w.clients⟩ :=
      h.ok.moves (.single (.idle (t := table w) _ (.of_silent rfl rfl rfl rfl rfl rfl rfl rfl)))
    exact scan_pending inp.scan h0 ht hn ho hu

theorem loopFailing_pending {n : ℕ} (h : LoopOk w) (hn : n ≤ w.sys.trace.length)
    (hp : Pending n w.sys (0 < w.sys.flagHup)) :
    Pending n (loopFailing w).1.sys (0 < (loopFailing w).1.sys.flagHup) := by
  have h0 := (unfailing_phase w h).ok
  have hw := checkfailLoop_work w.svdefs.length 0 { w.sys with flagFailing := 0 } w.svdefs
    h0.culled
  unfold loopFailing
  split
  · exact hp
  split
  · exact hp
  · exact (Pending.inside (s := { w.sys with flagFailing := 0 }) hp hn hw.inside).mono
      fun hx => hx.trans_eq hw.flags.hup.symm

theorem loopClients_pending {n : ℕ} (inp : IterIn) (nready : ℕ) (h : LoopOk w)
    (hn : n ≤ w.sys.trace.length) (hp : Pending n w.sys (0 < w.sys.flagHup)) :
    let w' := loopClients w inp nready
    Pending n w'.sys (0 < w'.sys.flagHup) := by
  have hw := loopClients_work w inp nready h.culled
  exact (hp.inside hn hw.inside).mono fun hx => hx.trans_eq hw.flags.hup.symm

theorem loopBody_pending (inp : IterIn) (h : LoopOk w) (ho : inp.scan.opendirOk = true)
    (ht : (loopBody w inp).sys.flagTerminating = false) :
    Pending w.sys.trace.length (loopBody w inp).sys (0 < (loopBody w inp).sys.flagHup) := by
  have h0 := loopTop_phase w h
  have h1 := h0.trans (loopPoll_phase _ inp h0.ok)
  obtain ⟨hs, hu, _⟩ := loopPoll_still w inp
  have hn1 := trace_le h.ok h1.moves
  unfold loopBody at ht ⊢
  dsimp only at ht ⊢
  split at ht
  · next hx =>
    rw [if_pos hx]
    exact .fresh hs _
  next hx =>
  rw [if_neg hx]
  have hterm := loopTerm_phase _ h1.ok
  generalize hw1 : (loopPoll (loopTop w) inp).1 = w1 at *
  have h3 := loopChld_phase (loopTerm w1) inp hterm.ok
  have h4 := loopScan_phase _ inp h3.ok
  have h5 := loopFailing_phase _ h4.ok
  have ht5 : (loopFailing (loopScan (loopChld (loopTerm w1) inp) inp)).1.sys.flagTerminating =
      false := by
    split at ht
    · exact ht
    · exact phase_terminating h5.ok (loopClients_phase _ inp _ h5.ok) ht
  have ht4 := phase_terminating h4.ok h5 ht5
  have ht3 := phase_terminating h3.ok h4 ht4
  have ht2 := phase_terminating hterm.ok h3 ht3
  have hsame := (loopTerm_running ht2).2
  rw [hsame] at ht2 ht3 h3 h4 h5 ⊢
  obtain ⟨hp3, hu3⟩ := loopChld_pending inp h1.ok ht2 hn1 hs hu
  have hn3 := hn1.trans (trace_le h1.ok.ok h3.moves)
  have hp4 := loopScan_pending inp h3.ok ht3 hn3 ho hp3 hu3
  have hn4 := hn3.trans (trace_le h3.ok.ok h4.moves)
  have hp5 := loopFailing_pending h4.ok hn4 hp4
  have hn5 := hn4.trans (trace_le h4.ok.ok h5.moves)
  split
  · exact hp5
  · exact loopClients_pending inp _ h5.ok hn5 hp5

theorem loopBody_activations (inp : IterIn) (h : LoopOk w) :
    Activates 1 w.sys (loopBody w inp).sys := by
  have h0 := loopTop_phase w h
  have h1 := h0.trans (loopPoll_phase _ inp h0.ok)
  obtain ⟨_, _, ha1⟩ := loopPoll_still w inp
  have hup (s : Sys) : Activates 1 s s := ⟨[], by simp [activations]⟩
  unfold loopBody
  dsimp only
  split
  · exact ha1.trans (hup _)
  generalize (loopPoll (loopTop w) inp).1 = w1 at *
  have h2 := loopTerm_phase w1 h1.ok
  have h3 := loopChld_phase _ inp h2.ok
  have h4 := loopScan_phase _ inp h3.ok
  have h5 := loopFailing_phase _ h4.ok
  have ha3 := (ha1.trans (loopTerm_activations w1)).trans (loopChld_activations inp h2.ok)
  have ha4 := ha3.trans (loopScan_activations inp h3.ok)
  have ha5 := ha4.trans (loopFailing_activations h4.ok)
  split
  · exact ha5
  · exact ha5.trans (.inside (loopClients_work _ inp _ h5.ok.culled).inside)

end Loop

/-- What is removed to be cycled is looked for again, and no service is
activated twice. -/
structure Rescanned (w w' : Perpd) : Prop where
  pending : ∀ pre sd post, Removed w w' pre sd post → ScanPending w' post
  once : ∀ k, activations k (since w.sys.trace.length w'.sys) ≤ 1

/-- An entry that is to be cycled is removed when a child of it has been reaped
lately, and the base directory can be opened. -/
def RemovedReaped (inp : IterIn) (past : List Event) : Event → Prop
  | .sv sd .cull =>
    sd.has .cycle = true → (reapedLast sd.key).run past = true ∧ inp.scan.opendirOk = true
  | _ => True

/-- A service that was made sticky again while it was deactivated is found
again, unless it is removed as another one is. -/
theorem cycle_rescanned (cfg : Config) (inputs : List IterIn) (inp : IterIn)
    (hp : Along (RemovedReaped inp) (since (perpdRun cfg inputs).sys.trace.length
      (perpdIterate (perpdRun cfg inputs) inp).sys)) :
    Rescanned (perpdRun cfg inputs) (perpdIterate (perpdRun cfg inputs) inp) := by
  have h := (run_phase cfg inputs).ok
  generalize perpdRun cfg inputs = w at h hp ⊢
  have hbody : perpdIterate w inp = loopBody w inp ∨ (perpdIterate w inp).sys = w.sys := by
    unfold perpdIterate
    split
    · exact Or.inr rfl
    split
    · exact Or.inr rfl
    · exact Or.inl rfl
  constructor
  · rintro pre sd post ⟨htrace, hcy, ht⟩
    have hs : since w.sys.trace.length (perpdIterate w inp).sys = pre ++ .sv sd .cull :: post := by
      rw [since, htrace, List.drop_left]
    rcases hbody with he | he
    · obtain ⟨hr, ho⟩ : (reapedLast sd.key).run pre = true ∧ inp.scan.opendirOk = true :=
        hp pre _ post hs hcy
      rw [he] at ht hs ⊢
      exact loopBody_pending inp h ho ht pre sd post hs hcy hr
    · rw [he, since, List.drop_length] at hs
      simp at hs
  · intro k
    rcases hbody with he | he
    · obtain ⟨evs, ht, ha⟩ := loopBody_activations inp h
      rw [he, since, ht, List.drop_left]
      exact ha k
    · rw [he, since, List.drop_length]
      simp [activations]

instance (inp : IterIn) (past : List Event) : (e : Event) → Decidable (RemovedReaped inp past e)
  | .sv _ .cull => inferInstanceAs (Decidable (_ → _))
  | .sv _ (.fork _ _ _ _ _ _ _) | .sv _ (.activate _) | .sv _ (.reap _ _) | .sv _ (.kill _ _ _)
  | .sv _ (.control _ _) | .sv _ .checkfail | .sv _ .wantcull | .sv _ (.closeLog _ _)
  | .sv _ .status => isTrue trivial
  | .opened _ _ | .closed _ _ | .request _ | .sent _ _ | .term | .scan | .scanned => isTrue trivial

/-- A service is deactivated, made sticky again, and then its start ends. -/
def cycled : List IterIn :=
  [scans quiet [foo], scans quiet [], scans quiet [foo], exits quiet [(100, 15)]]

/-- Its reset ends. -/
def cycledReset : IterIn := { exits quiet [(101, 0)] with scan := ⟨true, [foo], false⟩ }

theorem cycle_rescanned_reset :
    Rescanned (perpdRun (plain [some 100, some 101, some 102]) cycled)
      (perpdIterate (perpdRun (plain [some 100, some 101, some 102]) cycled) cycledReset) :=
  cycle_rescanned (plain [some 100, some 101, some 102]) cycled cycledReset (by decide +kernel)

def bar : Dirent := service "bar" 3 ⟨some 9, false, false, none, none⟩

/-- Two services are deactivated, and one of them is made sticky again while the
other runs its reset. -/
def cycledTwo : List IterIn :=
  [scans quiet [foo, bar], scans quiet [], scans quiet [foo], exits quiet [(101, 15)]]

/-- The reset of the one cannot be forked, and the other is done. -/
def cycledBystander : IterIn := exits quiet [(100, 15), (102, 0)]

def cycleRemoved : Event → Bool
  | .sv sd .cull => sd.has .cycle
  | _ => false

theorem Rescanned.scanned {w w' : Perpd} (h : Rescanned w w')
    (hgrow : w'.sys.trace = w.sys.trace ++ since w.sys.trace.length w'.sys)
    (hrem : ∃ e ∈ since w.sys.trace.length w'.sys, cycleRemoved e = true)
    (ht : w'.sys.flagTerminating = false) (hup : w'.sys.flagHup = 0) :
    .scanned ∈ since w.sys.trace.length w'.sys := by
  obtain ⟨e, he, hc⟩ := hrem
  obtain ⟨pre, post, hs⟩ := List.append_of_mem he
  rw [hs] at hgrow ⊢
  unfold cycleRemoved at hc
  split at hc
  · next sd =>
    rcases h.pending pre sd post ⟨hgrow, hc, ht⟩ with hm | hpos
    · simp [hm]
    · omega
  · simp at hc

theorem cycle_rescanned_fails :
    ¬ Rescanned (perpdRun (plain [some 100, some 101, some 102, none]) cycledTwo)
      (perpdIterate (perpdRun (plain [some 100, some 101, some 102, none]) cycledTwo)
        cycledBystander) := by
  intro h
  have hm := h.scanned (by decide +kernel) (by decide +kernel) (by decide +kernel) (by decide +kernel)
  revert hm
  decide +kernel

end Perp.PerpdCycle
