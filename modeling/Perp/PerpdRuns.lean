import Perp.PerpdPhases

set_option autoImplicit false

/-!
# An iteration is a sequence of moves

`LoopOk` holds between any two parts of the main loop, in particular once perpd
is terminating.
-/
namespace Perp.PerpdRuns
open PerpdState PerpdSvdef PerpdConn PerpdMainloop PerpdFrame PerpdEntry PerpdEffect PerpdSlots
  PerpdActivate PerpdMoves PerpdStill PerpdPhases

/-- No signal asks a terminating perpd for anything. -/
def Settled (s : Sys) : Prop := s.flagTerminating = true → s.flagTerm = 0 ∧ s.flagHup = 0

/-- What holds between two parts of the loop. -/
structure LoopOk (w : Perpd) : Prop where
  ok : TableOk (table w)
  culled : CullAll (table w)
  settled : Settled w.sys
  closed : w.sys.flagTerminating = true → w.argAutoscan = 0 ∧ w.clients = []

/-- From one part of the loop to the next. -/
structure Phase (w w' : Perpd) : Prop where
  moves : Moves (table w) (table w')
  ok : LoopOk w'

theorem Phase.trans {w w' w'' : Perpd} (h : Phase w w') (h' : Phase w' w'') : Phase w w'' :=
  ⟨h.moves.trans h'.moves, h'.ok⟩

theorem settled_flags {s t : Sys} (h : Flags s t) (hs : Settled s) : Settled t := by
  intro ht
  rw [h.terminating] at ht
  rw [h.term, h.hup]
  exact hs ht

/-- A move that neither terminates perpd nor forgets a failure. -/
def Mild (t t' : Table) : Prop :=
  Move t t' ∧ t'.sys.flagTerminating = t.sys.flagTerminating ∧
    t.sys.flagFailing ≤ t'.sys.flagFailing

/-- A part of the loop that is made of such moves. -/
structure Part (t t' : Table) : Prop where
  steps : Relation.ReflTransGen Mild t t'
  culled : CullAll t → CullAll t'
  settled : Settled t.sys → Settled t'.sys

namespace Part
variable {t t' t'' : Table}

theorem of_stretch (h : Stretch t t') : Part t t' :=
  ⟨Relation.ReflTransGen.mono (fun _ _ hs => ⟨hs.1, hs.2.terminating, hs.2.failing⟩) t t' h.steps,
    h.culled, settled_flags h.flags⟩

theorem trans (h : Part t t') (h' : Part t' t'') : Part t t'' :=
  ⟨h.steps.trans h'.steps, fun hc => h'.culled (h.culled hc), fun hs => h'.settled (h.settled hs)⟩

theorem idle (s' : Sys) (h : Idle t.sys s') (hf : t.sys.flagFailing ≤ s'.flagFailing)
    (hs : Settled t.sys → Settled s') : Part t ⟨s', t.svdefs, t.conns⟩ where
  steps := .single ⟨.idle s' h, h.terminating, hf⟩
  culled hc ht := hc (by rwa [h.terminating] at ht)
  settled := hs

theorem moves (h : Part t t') : Moves t t' :=
  Relation.ReflTransGen.mono (fun _ _ hs => hs.1) t t' h.steps

theorem terminating (h : Part t t') : t'.sys.flagTerminating = t.sys.flagTerminating := by
  replace h := h.steps
  induction h with
  | refl => rfl
  | tail _ hs ih => exact hs.2.1.trans ih

theorem failing (h : Part t t') : t.sys.flagFailing ≤ t'.sys.flagFailing := by
  replace h := h.steps
  induction h with
  | refl => exact le_refl _
  | tail _ hs ih => exact ih.trans hs.2.2

theorem triggerScan (s : Sys) (svdefs : List Svdef) (conns : Multiset ℕ) :
    Part ⟨s, svdefs, conns⟩ ⟨perpdTriggerScan s, svdefs, conns⟩ := by
  refine idle (t := ⟨s, svdefs, conns⟩) _ (perpdTriggerScan_idle s) ?_ fun hs ht => ?_
  · unfold perpdTriggerScan
    split <;> exact le_refl _
  · rw [(perpdTriggerScan_idle s).terminating] at ht
    unfold perpdTriggerScan
    rw [if_pos ht]
    exact hs ht

theorem phase {w w' : Perpd} (h : Part (table w) (table w')) (hl : LoopOk w)
    (hc : w.sys.flagTerminating = true → w.argAutoscan = 0 → w.clients = [] →
      w'.argAutoscan = 0 ∧ w'.clients = []) : Phase w w' := by
  refine ⟨h.moves, hl.ok.moves h.moves, h.culled hl.culled, h.settled hl.settled, fun ht => ?_⟩
  have ht' : w.sys.flagTerminating = true := h.terminating ▸ ht
  exact hc ht' (hl.closed ht').1 (hl.closed ht').2

end Part

theorem sigTrap_idle (s : Sys) (sig : Signal) : Idle s (sigTrap s sig) := by
  unfold sigTrap
  cases ht : s.flagTerminating <;> cases sig <;>
    simp only [ht, Sys.selfpipePing, Bool.false_eq_true, ↓reduceIte] <;>
    exact .of_silent rfl rfl rfl rfl (by simp [ht]) rfl rfl rfl

theorem sigTrap_settled (s : Sys) (sig : Signal) : Settled (sigTrap s sig) := by
  intro ht
  have hs : s.flagTerminating = true := by rwa [(sigTrap_idle s sig).terminating] at ht
  unfold sigTrap
  cases sig <;> simp [hs, Sys.selfpipePing]

theorem signals_idle (sigs : List Signal) (s : Sys) : Idle s (sigs.foldl sigTrap s) := by
  induction sigs generalizing s with
  | nil => exact .of_silent rfl rfl rfl rfl rfl rfl rfl rfl
  | cons sig sigs ih => exact (sigTrap_idle s sig).trans (ih _)

theorem signals_failing (sigs : List Signal) (s : Sys) :
    (sigs.foldl sigTrap s).flagFailing = s.flagFailing := by
  induction sigs generalizing s with
  | nil => rfl
  | cons sig sigs ih =>
    refine (ih _).trans ?_
    unfold sigTrap
    cases sig <;> dsimp only <;> split <;> rfl

theorem signals_trace (sigs : List Signal) (s : Sys) : (sigs.foldl sigTrap s).trace = s.trace := by
  induction sigs generalizing s with
  | nil => rfl
  | cons sig sigs ih =>
    refine (ih _).trans ?_
    unfold sigTrap
    cases sig <;> dsimp only <;> split <;> rfl

theorem signals_settled (sigs : List Signal) (s : Sys) (h : Settled s) :
    Settled (sigs.foldl sigTrap s) := by
  induction sigs generalizing s with
  | nil => exact h
  | cons sig sigs ih => exact ih _ (sigTrap_settled s sig)

/-- Nothing but the clock changes. -/
structure Ticked (s s' : Sys) : Prop where
  idle : Idle s s'
  flags : Flags s s'
  failing : s'.flagFailing = s.flagFailing
  chld : s'.flagChld = s.flagChld
  selfpipe : s'.selfpipe = s.selfpipe
  trace : s'.trace = s.trace

theorem Ticked.trans {s t u : Sys} (h : Ticked s t) (h' : Ticked t u) : Ticked s u :=
  ⟨h.idle.trans h'.idle, h.flags.trans h'.flags, h'.failing.trans h.failing, h'.chld.trans h.chld,
    h'.selfpipe.trans h.selfpipe, h'.trace.trans h.trace⟩

theorem pollio_ticked (s : Sys) (msecsMax n rem : ℤ) : Ticked s (pollio s msecsMax n rem).1 := by
  have h0 : Ticked s s := ⟨.of_silent rfl rfl rfl rfl rfl rfl rfl rfl, .refl s, rfl, rfl, rfl, rfl⟩
  have htick (t : Sys) : Ticked t t.tainNow.2 :=
    ⟨tainNow_idle t, tainNow_flags t, rfl, rfl, rfl, rfl⟩
  have hif (t : Sys) (c : Prop) [Decidable c] (h : Ticked s t) :
      Ticked s (if c then t.tainNow.2 else t) := by
    split
    · exact h.trans (htick t)
    · exact h
  unfold pollio
  extract_lets m b s1 s2
  have h1 : Ticked s s1 := hif s _ h0
  have h2 : Ticked s s2 := hif s1 _ h1
  split
  · exact h2
  split
  · exact h2
  split
  · exact h2
  split
  · exact h2
  · exact h2.trans (htick s2)

theorem pollIntr_ticked (msecsMax rem : ℤ) (n : ℕ) (s : Sys) :
    Ticked s (pollIntr msecsMax rem n s) := by
  induction n generalizing s with
  | zero => exact ⟨.of_silent rfl rfl rfl rfl rfl rfl rfl rfl, .refl s, rfl, rfl, rfl, rfl⟩
  | succ n ih => exact (pollio_ticked s _ _ _).trans (ih _)

theorem loopTop_part (w : Perpd) : Part (table w) (table (loopTop w)) :=
  .of_stretch (loopTop_work w).toStretch

theorem loopTop_phase (w : Perpd) (h : LoopOk w) : Phase w (loopTop w) := by
  refine (loopTop_part w).phase h fun _ ha hc => ?_
  exact ⟨ha, by simp [loopTop, hc, checkstaleLoop, connCullLoop]⟩

theorem loopPoll_idle (w : Perpd) (inp : IterIn) : Idle w.sys (loopPoll w inp).1.sys := by
  have h1 := signals_idle inp.signals w.sys
  have h2 (m r : ℤ) (n : ℕ) (k r' : ℤ) := (pollIntr_ticked m r n (inp.signals.foldl sigTrap w.sys)).trans
    (pollio_ticked _ m k r')
  unfold loopPoll
  dsimp only
  have h3 := (h1.trans (h2 w.pollInterval w.pollRemain inp.intr
    (if inp.pollErr then -1 else
      nreadyOf { w with sys := inp.signals.foldl sigTrap w.sys } inp) w.pollRemain).idle).trans
    (signals_idle inp.late _)
  split
  · exact h3.trans (.of_silent rfl rfl rfl rfl rfl rfl rfl rfl)
  · exact h3

theorem loopPoll_svdefs (w : Perpd) (inp : IterIn) : (loopPoll w inp).1.svdefs = w.svdefs := by
  unfold loopPoll
  dsimp only
  split <;> rfl

theorem loopPoll_clients (w : Perpd) (inp : IterIn) : (loopPoll w inp).1.clients = w.clients := by
  unfold loopPoll
  dsimp only
  split <;> rfl

theorem loopPoll_argAutoscan (w : Perpd) (inp : IterIn) :
    (loopPoll w inp).1.argAutoscan = w.argAutoscan := by
  unfold loopPoll
  dsimp only
  split <;> rfl

theorem loopPoll_settled (w : Perpd) (inp : IterIn) (h : Settled w.sys) :
    Settled (loopPoll w inp).1.sys := by
  have h1 (s : Sys) (ht : Ticked (inp.signals.foldl sigTrap w.sys) s) :
      Settled (inp.late.foldl sigTrap s) :=
    signals_settled _ _ (settled_flags ht.flags (signals_settled _ _ h))
  unfold loopPoll
  dsimp only
  split
  · exact h1 _ ((pollIntr_ticked _ _ _ _).trans (pollio_ticked _ _ _ _))
  · exact h1 _ ((pollIntr_ticked _ _ _ _).trans (pollio_ticked _ _ _ _))

theorem loopPoll_failing (w : Perpd) (inp : IterIn) :
    (loopPoll w inp).1.sys.flagFailing = w.sys.flagFailing := by
  have h1 (s : Sys) (ht : Ticked (inp.signals.foldl sigTrap w.sys) s) :
      (inp.late.foldl sigTrap s).flagFailing = w.sys.flagFailing :=
    (signals_failing _ _).trans (ht.failing.trans (signals_failing _ _))
  unfold loopPoll
  dsimp only
  split
  · exact h1 _ ((pollIntr_ticked _ _ _ _).trans (pollio_ticked _ _ _ _))
  · exact h1 _ ((pollIntr_ticked _ _ _ _).trans (pollio_ticked _ _ _ _))

theorem loopPoll_trace (w : Perpd) (inp : IterIn) :
    (loopPoll w inp).1.sys.trace = w.sys.trace := by
  have h1 (s : Sys) (ht : Ticked (inp.signals.foldl sigTrap w.sys) s) :
      (inp.late.foldl sigTrap s).trace = w.sys.trace :=
    (signals_trace _ _).trans (ht.trace.trans (signals_trace _ _))
  unfold loopPoll
  dsimp only
  split
  · exact h1 _ ((pollIntr_ticked _ _ _ _).trans (pollio_ticked _ _ _ _))
  · exact h1 _ ((pollIntr_ticked _ _ _ _).trans (pollio_ticked _ _ _ _))

theorem loopPoll_part (w : Perpd) (inp : IterIn) :
    Part (table w) (table (loopPoll w inp).1) := by
  have h := Part.idle (t := table w) _ (loopPoll_idle w inp) (loopPoll_failing w inp).ge
    (loopPoll_settled w inp)
  simpa only [table, loopPoll_svdefs, loopPoll_clients] using h

theorem loopPoll_phase (w : Perpd) (inp : IterIn) (h : LoopOk w) : Phase w (loopPoll w inp).1 := by
  refine (loopPoll_part w inp).phase h fun _ ha hc => ?_
  rw [loopPoll_argAutoscan, loopPoll_clients]
  exact ⟨ha, hc⟩

theorem closeClients_work (cs : List Conn) (s : Sys) (svdefs : List Svdef) :
    Chore ⟨s, svdefs, connfds cs⟩ ⟨closeClients cs s, svdefs, 0⟩ := by
  induction cs generalizing s with
  | nil => exact .refl _
  | cons c cs ih =>
    unfold closeClients
    cases hc : c.connfd with
    | none =>
      simp only [connfds_cons, connfd, hc, Option.elim_none, zero_add]
      exact ih s
    | some fd =>
      have hfd : connfds (c :: cs) = fd ::ₘ connfds cs := by
        simp [connfd, hc, Multiset.singleton_add]
      exact (Chore.drop (t := ⟨s, svdefs, connfds (c :: cs)⟩) fd _ hfd).trans (ih _)

theorem wantcullLoop_all (left i gotCull : ℕ) (s : Sys) (svdefs : List Svdef)
    (hlen : i + left = svdefs.length)
    (hdone : ∀ j sd, j < i → svdefs[j]? = some sd → sd.has .cull = true) :
    ∀ sd ∈ (perpdWantcullLoop left i gotCull s svdefs).1.2, sd.has .cull = true := by
  induction left generalizing i gotCull s svdefs with
  | zero =>
    intro sd hsd
    obtain ⟨j, hj⟩ := List.getElem?_of_mem hsd
    have hlt := (List.getElem?_eq_some_iff.mp hj).1
    simp only [perpdWantcullLoop] at hj hlt
    exact hdone j sd (by omega) hj
  | succ left ih =>
    unfold perpdWantcullLoop
    split
    · next hi =>
      rw [List.getElem?_eq_none_iff] at hi
      omega
    · next sd hi =>
      refine ih _ _ _ _ (by simp; omega) fun j x hj hx => ?_
      by_cases hji : j = i
      · subst hji
        rw [List.getElem?_set_self (by omega)] at hx
        obtain rfl := Option.some.inj hx
        simp
      · rw [List.getElem?_set_ne (Ne.symm hji)] at hx
        exact hdone j x (by omega) hx

theorem cull_stretch (s : Sys) (svdefs : List Svdef) (rest : Multiset ℕ) :
    Stretch ⟨s, svdefs, rest⟩ ⟨(perpdCull s svdefs).1, (perpdCull s svdefs).2, rest⟩ :=
  cullLoop_stretch _ _ _ _

/-- Termination, from where it is recorded: the clients are closed, and every
entry is told to go. -/
theorem loopTerm_chore (w : Perpd) :
    let r := perpdWantcullLoop w.svdefs.length 0 0 (closeClients w.clients (terminated w.sys))
      w.svdefs
    Chore ⟨terminated w.sys, w.svdefs, connfds w.clients⟩ ⟨r.1.1, r.1.2, 0⟩ :=
  (closeClients_work w.clients (terminated w.sys) w.svdefs).trans
    (@wantcullLoop_work 0 w.svdefs.length 0 0 _ _)

theorem loopTerm_phase (w : Perpd) (h : LoopOk w) : Phase w (loopTerm w) := by
  unfold loopTerm
  dsimp only
  split
  · exact ⟨.refl, h⟩
  next hterm =>
  have ht : w.sys.flagTerminating = false := by
    by_contra hc
    exact hterm (h.settled (by simpa using hc)).1
  have h0 : Moves (table w) ⟨terminated w.sys, w.svdefs, connfds w.clients⟩ :=
    .single (.term (t := table w) ht)
  have hs : Settled (terminated w.sys) := fun _ => ⟨rfl, rfl⟩
  have hall := wantcullLoop_all w.svdefs.length 0 0
    (closeClients w.clients (terminated w.sys)) w.svdefs (by simp) (by simp)
  have h1 := (loopTerm_chore w).toStretch
  split
  · have h2 := h1.trans (cull_stretch _ _ 0)
    exact ⟨h0.trans h2.moves, h.ok.moves (h0.trans h2.moves), (cull_stretch _ _ 0).culled fun _ => hall,
      settled_flags h2.flags hs, fun _ => ⟨rfl, rfl⟩⟩
  · exact ⟨h0.trans h1.moves, h.ok.moves (h0.trans h1.moves), fun _ => hall,
      settled_flags h1.flags hs, fun _ => ⟨rfl, rfl⟩⟩

theorem loopTerm_terminating (w : Perpd) (ht : w.sys.flagTerm ≠ 0) :
    (loopTerm w).sys.flagTerminating = true := by
  have hwant := loopTerm_chore w
  have hcull := hwant.toStretch.trans (cull_stretch _ _ 0)
  unfold loopTerm
  rw [if_neg ht]
  dsimp only
  split
  · exact hcull.flags.terminating
  · exact hwant.flags.terminating

theorem loopTerm_running {w : Perpd} (ht : (loopTerm w).sys.flagTerminating = false) :
    w.sys.flagTerm = 0 ∧ loopTerm w = w := by
  by_cases h : w.sys.flagTerm = 0
  · exact ⟨h, by simp [loopTerm, h]⟩
  · exact absurd ((loopTerm_terminating w h).symm.trans ht) (by simp)

theorem waitup_part (reaps : List (ℕ × ℕ)) (s : Sys) (svdefs : List Svdef) (rest : Multiset ℕ)
    (h : TableOk ⟨s, svdefs, rest⟩) (hc : CullAll ⟨s, svdefs, rest⟩) :
    Part ⟨s, svdefs, rest⟩
      ⟨(perpdWaitup reaps s svdefs).1, (perpdWaitup reaps s svdefs).2, rest⟩ := by
  have h1 := Part.of_stretch (waitupLoop_work reaps 0 0 s svdefs h hc).toStretch
  have h2 := h1.trans (.of_stretch (cull_stretch _ _ rest))
  unfold perpdWaitup
  dsimp only
  split <;> split
  · exact h2.trans (.triggerScan _ _ _)
  · exact h1.trans (.triggerScan _ _ _)
  · exact h2
  · exact h1

theorem loopChld_part (w : Perpd) (inp : IterIn) (h : LoopOk w) :
    Part (table w) (table (loopChld w inp)) := by
  unfold loopChld
  split
  · exact .of_stretch (.refl _)
  have h0 := Part.idle (t := table w) { w.sys with flagChld := 0 }
    (.of_silent rfl rfl rfl rfl rfl rfl rfl rfl) (le_refl _) id
  exact h0.trans (waitup_part inp.reaps _ w.svdefs _ (h.ok.moves h0.moves) (h0.culled h.culled))

theorem loopChld_phase (w : Perpd) (inp : IterIn) (h : LoopOk w) : Phase w (loopChld w inp) := by
  refine (loopChld_part w inp h).phase h fun _ ha hc => ?_
  unfold loopChld
  split <;> exact ⟨ha, hc⟩

section Scan
variable (s : Sys) (svdefs : List Svdef) (rest : Multiset ℕ)

/-- A scan in its parts, from where the call is recorded: no entry is marked
active, the walk over the directory, and its end. -/
theorem scan_drop (ht : s.flagTerminating = false) :
    Stretch ⟨s.emit .scan, svdefs, rest⟩ ⟨s.emit .scan, svdefs.map (·.drop .active), rest⟩ := by
  have hc : CullAll ⟨s.emit .scan, svdefs, rest⟩ := fun hx => absurd (hx.symm.trans ht) (by simp)
  exact (map_work (·.drop .active) (fun sd => drop_marked sd .active (Or.inl rfl))
    (s.emit .scan) [] svdefs hc).toStretch

theorem scan_culled (ht : s.flagTerminating = false) :
    CullAll ⟨s.emit .scan, svdefs.map (·.drop .active), rest⟩ :=
  fun hx => absurd (hx.symm.trans ht) (by simp)

theorem scan_walk (dirents : List Dirent) (ht : s.flagTerminating = false) :
    let r := perpdScanLoop dirents 0 (s.emit .scan) (svdefs.map (·.drop .active))
    Stretch ⟨s.emit .scan, svdefs, rest⟩ ⟨r.1.1, r.1.2, rest⟩ :=
  (scan_drop s svdefs rest ht).trans
    (scanLoop_stretch dirents 0 _ _ (scan_culled s svdefs rest ht) ht)

theorem scan_end (dirents : List Dirent) (ht : s.flagTerminating = false) :
    let r := perpdScanLoop dirents 0 (s.emit .scan) (svdefs.map (·.drop .active))
    Stretch ⟨s.emit .scan, svdefs, rest⟩ ⟨r.1.1.emit .scanned, r.1.2, rest⟩ ∧
      CullAll ⟨r.1.1.emit .scanned, r.1.2, rest⟩ := by
  have hc : CullAll ⟨s.emit .scan, svdefs, rest⟩ := fun hx => absurd (hx.symm.trans ht) (by simp)
  have h := (scan_walk s svdefs rest dirents ht).trans (emit_stretch _ _ rest .scanned trivial)
  exact ⟨h, h.culled hc⟩

end Scan

theorem scan_rest (inp : ScanIn) (s : Sys) (svdefs : List Svdef) (rest : Multiset ℕ)
    (ht : s.flagTerminating = false) : Part ⟨s.emit .scan, svdefs, rest⟩
      ⟨(perpdScan inp s svdefs).1, (perpdScan inp s svdefs).2, rest⟩ := by
  have h2 := scan_walk s svdefs rest inp.dirents ht
  obtain ⟨h3, hc⟩ := scan_end s svdefs rest inp.dirents ht
  have h4 (n : ℕ) := h3.trans (scanCull_work n 0 0 _ _ hc).toStretch
  have h5 (n : ℕ) := (h4 n).trans (cull_stretch _ _ rest)
  unfold perpdScan
  dsimp only
  split
  · exact .of_stretch (.refl _)
  split
  · exact (Part.of_stretch h2).trans (.triggerScan _ _ _)
  split <;> split
  · exact (Part.of_stretch (h5 _)).trans (.triggerScan _ _ _)
  · exact (Part.of_stretch (h4 _)).trans (.triggerScan _ _ _)
  · exact .of_stretch (h5 _)
  · exact .of_stretch (h4 _)

theorem scan_part (inp : ScanIn) (s : Sys) (svdefs : List Svdef) (rest : Multiset ℕ)
    (ht : s.flagTerminating = false) :
    Part ⟨s, svdefs, rest⟩ ⟨(perpdScan inp s svdefs).1, (perpdScan inp s svdefs).2, rest⟩ :=
  (Part.of_stretch (emit_stretch s svdefs rest .scan trivial)).trans (scan_rest inp s svdefs rest ht)

theorem loopScan_part (w : Perpd) (inp : IterIn) (h : LoopOk w) :
    Part (table w) (table (loopScan w inp)) := by
  unfold loopScan
  split
  · exact .of_stretch (.refl _)
  next hg =>
  have ht : w.sys.flagTerminating = false := by
    by_contra hn
    have hn' : w.sys.flagTerminating = true := by simpa using hn
    exact hg ⟨(h.settled hn').2, by simp [(h.closed hn').1]⟩
  have h0 := Part.idle (t := table w) { w.sys with flagHup := 0 }
    (.of_silent rfl rfl rfl rfl rfl rfl rfl rfl) (le_refl _) fun hs hx => ⟨(hs hx).1, rfl⟩
  exact h0.trans (scan_part inp.scan _ w.svdefs _ ht)

theorem loopScan_phase (w : Perpd) (inp : IterIn) (h : LoopOk w) : Phase w (loopScan w inp) := by
  refine (loopScan_part w inp h).phase h fun _ ha hc => ?_
  unfold loopScan
  split <;> exact ⟨ha, hc⟩

theorem unfailing_phase (w : Perpd) (h : LoopOk w) :
    Phase w { w with sys := { w.sys with flagFailing := 0 } } := by
  have hi : Idle w.sys { w.sys with flagFailing := 0 } := .of_silent rfl rfl rfl rfl rfl rfl rfl rfl
  have hm : Moves (table w) _ := .single (.idle (t := table w) _ hi)
  exact ⟨hm, h.ok.moves hm, h.culled, h.settled, h.closed⟩

theorem loopFailing_phase (w : Perpd) (h : LoopOk w) : Phase w (loopFailing w).1 := by
  unfold loopFailing
  split
  · exact ⟨.refl, h⟩
  split
  · exact ⟨.refl, h.ok, h.culled, h.settled, h.closed⟩
  have h0 := unfailing_phase w h
  refine h0.trans (Part.phase (.of_stretch ?_) h0.ok fun _ ha hc => ⟨ha, hc⟩)
  exact (checkfailLoop_work _ 0 _ w.svdefs h0.ok.culled).toStretch

theorem loopAccept_work (w : Perpd) (inp : AcceptIn) :
    Work (table w) (table (loopAccept w inp)) := by
  unfold loopAccept
  dsimp only
  generalize (if w.sys.fds w.sys.fdListen = some .listen then inp.ret else none) = ret
  rcases openFd_cases w.sys ret .client with h | ⟨fd, hfd, h⟩
  · simp only [h]
    exact .refl _
  simp only [h]
  have h1 := Work.accept (t := table w) fd hfd
  have h2 : Work (table w) ⟨(opened w.sys fd .client).close fd, w.svdefs, connfds w.clients⟩ :=
    h1.trans (.drop (t := ⟨_, w.svdefs, fd ::ₘ connfds w.clients⟩) fd _ rfl)
  split
  · exact h2
  split
  · exact h2
  · have h3 := h1.trans (tainNow_work _ _ _).toWork
    have hfds : connfds w.clients + {fd} = fd ::ₘ connfds w.clients := by
      rw [add_comm, Multiset.singleton_add]
    simpa [table, perpdConnStart, connfd, hfds] using h3

theorem loopAccept_terminating (w : Perpd) (inp : AcceptIn) (ht : TableOk (table w))
    (hx : w.sys.flagTerminating = true) : loopAccept w inp = w := by
  have hl : w.sys.fds w.sys.fdListen ≠ some .listen := by
    intro hl
    have := (ht.listen _ hl).2
    exact absurd (hx.symm.trans this) (by simp)
  simp only [loopAccept, hl, ↓reduceIte, Sys.openFd]

theorem loopClients_work (w : Perpd) (inp : IterIn) (nready : ℕ) (h : CullAll (table w)) :
    Work (table w) (table (loopClients w inp nready)) := by
  have hc : CullAll ⟨w.sys, w.svdefs, connfds w.clients + 0⟩ := h
  have h1 := clientLoop_work w.clients inp.clients nready w.sys w.svdefs 0 hc
  simp only [add_zero] at h1
  rcases loopClients_cases w inp nready with he | he | he <;> rw [he]
  · exact .refl _
  · exact h1
  · let r := clientLoop w.clients inp.clients nready w.sys w.svdefs
    have h2 := loopAccept_work { w with sys := r.1.1, svdefs := r.1.2, clients := r.2.1 } inp.accept
    exact h1.trans h2

/-- A terminating perpd has nobody to serve. -/
theorem loopClients_terminating (w : Perpd) (inp : IterIn) (nready : ℕ) (h : TableOk (table w))
    (ht : w.sys.flagTerminating = true) (hc : w.clients = []) : loopClients w inp nready = w := by
  have hsame : { w with sys := w.sys, svdefs := w.svdefs, clients := [] } = w := by
    rw [← hc]
  have he := loopClients_cases w inp nready
  simp only [hc, clientLoop, hsame] at he
  rcases he with he | he | he
  · exact he
  · exact he
  · rw [he, loopAccept_terminating w inp.accept h ht]

theorem loopClients_phase (w : Perpd) (inp : IterIn) (nready : ℕ) (h : LoopOk w) :
    Phase w (loopClients w inp nready) := by
  refine Part.phase (.of_stretch (loopClients_work w inp nready h.culled).toStretch) h fun ht ha hc => ?_
  rw [loopClients_terminating w inp nready h.ok ht hc]
  exact ⟨ha, hc⟩

theorem loopBody_phase (w : Perpd) (inp : IterIn) (h : LoopOk w) : Phase w (loopBody w inp) := by
  have h0 := loopTop_phase w h
  have h1 := h0.trans (loopPoll_phase _ inp h0.ok)
  unfold loopBody
  dsimp only
  split
  · exact h1
  have h2 := h1.trans (loopTerm_phase _ h1.ok)
  have h3 := h2.trans (loopChld_phase _ inp h2.ok)
  have h4 := h3.trans (loopScan_phase _ inp h3.ok)
  have h5 := h4.trans (loopFailing_phase _ h4.ok)
  split
  · exact h5
  · exact h5.trans (loopClients_phase _ inp _ h5.ok)

/-- Each iteration is a sequence of moves. -/
theorem iterate_phase (w : Perpd) (inp : IterIn) (h : LoopOk w) : Phase w (perpdIterate w inp) := by
  unfold perpdIterate
  split
  · exact ⟨.refl, h⟩
  split
  · exact ⟨.refl, h.ok, h.culled, h.settled, h.closed⟩
  · exact loopBody_phase w inp h

theorem perpdStart_tableOk (cfg : Config) : TableOk (table (perpdStart cfg)) where
  nodup := .nil
  size := by simp [table, perpdStart]
  ok := by simp [table, perpdStart]
  orphans k _ p w := by simp [table, perpdStart, perpdTriggerScan, Sys.selfpipePing]
  term := by simp [table, perpdStart, perpdTriggerScan, Sys.selfpipePing]
  listen fd hfd := by
    rcases cfg.fds_base fd .listen hfd with h | ⟨h, _⟩
    · simp at h
    · exact ⟨h, rfl⟩

theorem perpdStart_loopOk (cfg : Config) : LoopOk (perpdStart cfg) := by
  refine ⟨perpdStart_tableOk cfg, ?_, ?_, ?_⟩ <;>
    intro ht <;> simp [table, perpdStart, perpdTriggerScan, Sys.selfpipePing] at ht

/-- Every run is a sequence of moves, and the invariants hold at the end of each iteration. -/
theorem run_phase (cfg : Config) (inputs : List IterIn) :
    Phase (perpdStart cfg) (perpdRun cfg inputs) := by
  induction inputs using List.reverseRecOn with
  | nil => exact ⟨.refl, perpdStart_loopOk cfg⟩
  | append_singleton inputs inp ih =>
    rw [perpdRun, List.foldl_append]
    exact ih.trans (iterate_phase _ inp ih.ok)

/-- A run goes on from where it is. -/
theorem run_phase_append (cfg : Config) (inputs more : List IterIn) :
    Phase (perpdRun cfg inputs) (perpdRun cfg (inputs ++ more)) := by
  induction more using List.reverseRecOn with
  | nil =>
    rw [List.append_nil]
    exact ⟨.refl, (run_phase cfg inputs).ok⟩
  | append_singleton more inp ih =>
    have hlast : perpdRun cfg (inputs ++ (more ++ [inp])) =
        perpdIterate (perpdRun cfg (inputs ++ more)) inp := by
      rw [← List.append_assoc]
      exact List.foldl_append ..
    rw [hlast]
    exact ih.trans (iterate_phase _ inp ih.ok)

end Perp.PerpdRuns
