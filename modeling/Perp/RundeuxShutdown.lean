import Perp.PerpbootSupervise

set_option autoImplicit false

/-!
# The end of rundeux

`main_loop()` of `rundeux.c`, which leaves the loop as soon as it finds `flag_term` set.
-/
namespace Perp.RundeuxShutdown
open Deux DeuxMoves DeuxRecords PerpbootSupervise TraceLaw

/-- Signals are passed on to the program, as SIGTERM once the end is flagged; and nothing is
waited for before the log pipe is closed. -/
def rundeux : Tool := ⟨fun flagTerm s => if flagTerm then .sigterm else s, false⟩

/-! ## The children in the trace -/

/-- The process of a kind that has been started and not yet waited for -/
def child (i : Which) : Monitor Event (Option ℕ) where
  init := none
  next c e :=
    match e with
    | .started j pid => if j = i then some pid else c
    | .reaped pid => if c = some pid then none else c
    | _ => c

/-- The program has been waited for when the log pipe is closed, and the logger after that. -/
def Ended (t : List Event) : Prop :=
  ∃ a b, t = a ++ .closed :: b ∧ (child .program).run a = none ∧ (child .logger).run a ≠ none ∧
    ∀ i, (child i).run t = none

/-- What rundeux is to do with its children -/
structure Shutdown (w : World) : Prop where
  single : ∀ i, ∀ k ∈ w.kids, ∀ x ∈ w.kids, k.which = some i → x.which = some i → k = x
  final : ∀ a b i p s, w.trace = a ++ .started i p :: b → s.ends = true → .caught s ∉ a
  ended : w.pc = .returned → Ended w.trace

variable {T : Tool} {w w' : World}

/-- The monitors and the kernel's table of children agree. -/
def Tracked (w : World) : Prop :=
  ∀ i p, (child i).run w.trace = some p ↔ ∃ k ∈ w.kids, k.which = some i ∧ k.pid = p

/-- An event that neither starts nor ends a record -/
def silent : Event → Bool
  | .started _ _ | .reaped _ => false
  | _ => true

theorem child_silent (i : Which) (t : List Event) {evs : List Event}
    (h : ∀ e ∈ evs, silent e = true) : (child i).run (t ++ evs) = (child i).run t := by
  apply Monitor.run_append_of_ignored
  intro e he c
  have hsilent := h e he
  cases e with
  | started j p => cases hsilent
  | reaped p => cases hsilent
  | _ => rfl

theorem silent_of_kill {e : Event} (h : Event.isKill e = true) : silent e = true := by
  cases e with
  | kill p s => rfl
  | _ => cases h

namespace Tracked

theorem silent (h : Tracked w) (evs : List Event) (ht : w'.trace = w.trace ++ evs)
    (hs : ∀ e ∈ evs, RundeuxShutdown.silent e = true)
    (hk : ∀ i p, (∃ k ∈ w'.kids, k.which = some i ∧ k.pid = p) ↔
      ∃ k ∈ w.kids, k.which = some i ∧ k.pid = p) : Tracked w' := by
  intro i p
  rw [ht, child_silent i w.trace hs, h i p, hk i p]

theorem none_iff (h : Tracked w) (i : Which) :
    (child i).run w.trace = none ↔ ∀ k ∈ w.kids, k.which ≠ some i := by
  constructor
  · intro hnone k hk hw
    have hsome := (h i k.pid).mpr ⟨k, hk, hw, rfl⟩
    rw [hnone] at hsome
    cases hsome
  · intro hall
    cases hc : (child i).run w.trace with
    | none => rfl
    | some p =>
      obtain ⟨k, hk, hw, -⟩ := (h i p).mp hc
      exact absurd hw (hall k hk)

theorem bury {pid : ℕ} (h : Tracked w) (hrec : Recorded T w) (ht : w'.trace = w.trace ++ [.reaped pid])
    (hk : w'.kids = w.kids.filter (·.pid ≠ pid)) : Tracked w' := by
  have hmem : ∀ k, k ∈ w'.kids ↔ k ∈ w.kids ∧ k.pid ≠ pid := by
    intro k
    rw [hk, List.mem_filter, decide_eq_true_eq]
  intro i p
  rw [ht, Monitor.run_concat]
  change (if (child i).run w.trace = some pid then none else (child i).run w.trace) = some p ↔ _
  by_cases hpid : (child i).run w.trace = some pid
  · rw [if_pos hpid]
    apply iff_of_false (by simp)
    rintro ⟨k, hkid, hw, -⟩
    obtain ⟨x, hx, hxw, hxp⟩ := (h i pid).mp hpid
    have hold := (hmem k).mp hkid
    apply hold.2
    rw [← hrec.recorded k hold.1 i hw, hrec.recorded x hx i hxw, hxp]
  · rw [if_neg hpid, h i p]
    constructor
    · rintro ⟨k, hkid, hw, rfl⟩
      refine ⟨k, (hmem k).mpr ⟨hkid, ?_⟩, hw, rfl⟩
      rintro rfl
      exact hpid ((h i k.pid).mpr ⟨k, hkid, hw, rfl⟩)
    · rintro ⟨k, hkid, hw, hp⟩
      exact ⟨k, ((hmem k).mp hkid).1, hw, hp⟩

theorem fork {i : Which} {pid : ℕ} {now : Tain} (h : Tracked w) (hrec : Recorded T w)
    (h0 : w.pid i = 0) : Tracked (w.fork i pid now) := by
  have hfree : ∀ k ∈ w.kids, k.which ≠ some i := by
    intro k hk hw
    have hpos := hrec.positive k hk
    rw [← hrec.recorded k hk i hw, h0] at hpos
    exact Nat.lt_irrefl 0 hpos
  intro j p
  have htr : (w.fork i pid now).trace = w.trace ++ [.started i pid] := rfl
  have hkids : (w.fork i pid now).kids = ⟨pid, some i, false⟩ :: w.kids := rfl
  rw [htr, Monitor.run_concat, hkids, List.exists_mem_cons_iff]
  change (if i = j then some pid else (child j).run w.trace) = some p ↔ _
  by_cases hij : i = j
  · subst hij
    rw [if_pos rfl, Option.some.injEq]
    constructor
    · exact fun hp => .inl ⟨rfl, hp⟩
    · rintro (hnew | ⟨k, hk, hw, -⟩)
      · exact hnew.2
      · exact absurd hw (hfree k hk)
  · rw [if_neg hij, h j p, Option.some.injEq]
    exact (or_iff_right fun hnew => hij hnew.1).symm

theorem advance (h : Tracked w) (i : Which) : Tracked (w.advance i) := by
  cases i with
  | logger => exact h
  | program => exact h.silent [.polls] rfl (by simp [RundeuxShutdown.silent]) fun _ _ => Iff.rfl

theorem exit {k : Kid} (h : Tracked w) : Tracked (w.exit k) := by
  apply h.silent [.exited k.which] rfl
  · simp [RundeuxShutdown.silent]
  · intro i p
    constructor
    · rintro ⟨x, hx, hw, hp⟩
      obtain ⟨y, hy, rfl⟩ := List.mem_map.mp hx
      refine ⟨y, hy, ?_⟩
      by_cases hyk : y = k
      · subst hyk
        rw [if_pos rfl] at hw hp
        exact ⟨hw, hp⟩
      · rw [if_neg hyk] at hw hp
        exact ⟨hw, hp⟩
    · rintro ⟨x, hx, hw, hp⟩
      refine ⟨_, List.mem_map.mpr ⟨x, hx, rfl⟩, ?_⟩
      by_cases hxk : x = k
      · subst hxk
        rw [if_pos rfl]
        exact ⟨hw, hp⟩
      · rw [if_neg hxk]
        exact ⟨hw, hp⟩

theorem move (h : Tracked w) (hrec : Recorded T w) (hst : Staged w) (hm : Move T w w') :
    Tracked w' := by
  cases hm with
  | exits k hk hd => exact h.exit
  | raise s => exact h
  | goes pc hg => exact h
  | drain hpc => exact h
  | advance i hpc h0 => exact h.advance i
  | fork i pid now hpc h0 hnew => exact (h.fork hrec (hst.vacant i (.inr (.inl hpc)))).advance i
  | handler s full hpc hs =>
    have hq := sigtrap_quiet
      ({ w with pending := Function.update w.pending s false }.emit (.caught s)) T s full
    obtain ⟨evs, htr, hkill⟩ := hq.kills
    apply h.silent (.caught s :: evs)
    · rw [htr, emit_trace, List.append_assoc]
      rfl
    · intro e he
      rcases List.mem_cons.mp he with rfl | he
      · rfl
      · exact silent_of_kill (hkill e he)
    · intro i p
      rw [hq.kids, emit_kids]
  | reap pid hpc hz =>
    have hchild := hrec.childWait_eq hpc (hrec.zombie_pos hz)
    exact h.bury hrec (by rw [hchild]; rfl) (by rw [hchild]; rfl)
  | waited hpc hall => exact h.silent [.waited] rfl (by simp [RundeuxShutdown.silent]) fun _ _ => Iff.rfl
  | harvest hT hpc hz => exact h.bury hrec rfl rfl
  | close hpc h0 =>
    have hq := Quiet.doKill (w.emit .closed) .logger .sigcont
    obtain ⟨evs, htr, hkill⟩ := hq.kills
    apply h.silent (.closed :: evs)
    · change ((w.emit .closed).doKill .logger .sigcont).trace = _
      rw [htr, emit_trace, List.append_assoc]
      rfl
    · intro e he
      rcases List.mem_cons.mp he with rfl | he
      · rfl
      · exact silent_of_kill (hkill e he)
    · intro i p
      change (∃ k ∈ ((w.emit .closed).doKill .logger .sigcont).kids, _) ↔ _
      rw [hq.kids, emit_kids]
  | harvestLog hpc hz => exact h.bury hrec rfl rfl

end Tracked

/-! ## The step that leaves the loop -/

/-- The program has been waited for, and the logger has not. -/
def Kept (w : World) : Prop := w.pid .program = 0 ∧ w.pid .logger ≠ 0

/-- So it is where `main_loop()` finds `flag_term` set. -/
def Ready (w : World) : Prop := w.pc = .top → w.flagTerm = true → Kept w

/-- So it is in every state of a run. -/
def AllReady (T : Tool) : World → List Act → Prop
  | w, [] => Ready w
  | w, a :: acts => Ready w ∧ ∀ w', step T w a = some w' → AllReady T w' acts

/-- The loop has been left, or is about to be. -/
def Leaving (w : World) : Prop :=
  w.pc = .top ∧ w.flagTerm = true ∨ w.pc = .harvest ∨ w.pc = .closing ∨ w.pc = .harvestLog ∨
    w.pc = .returned

theorem not_leaving {pc : Pc} (hpc : w.pc = pc)
    (h : pc ≠ .top ∧ pc ≠ .harvest ∧ pc ≠ .closing ∧ pc ≠ .harvestLog ∧ pc ≠ .returned) :
    ¬ Leaving w := by
  rintro (⟨htop, -⟩ | h1 | h1 | h1 | h1)
  · exact h.1 (hpc.symm.trans htop)
  · exact h.2.1 (hpc.symm.trans h1)
  · exact h.2.2.1 (hpc.symm.trans h1)
  · exact h.2.2.2.1 (hpc.symm.trans h1)
  · exact h.2.2.2.2 (hpc.symm.trans h1)

theorem advance_moving (w : World) (i : Which) : (w.advance i).pc ≠ .top ∧
    (w.advance i).pc ≠ .harvest ∧ (w.advance i).pc ≠ .closing ∧ (w.advance i).pc ≠ .harvestLog ∧
    (w.advance i).pc ≠ .returned := by
  cases i <;> simp [World.advance]

theorem Leaving.move (h : Leaving w) (hm : Move T w w') : Leaving w' ∧ w'.pid = w.pid := by
  cases hm with
  | exits k hk hd => exact ⟨h, rfl⟩
  | raise s => exact ⟨h, rfl⟩
  | goes pc hg =>
    refine ⟨?_, rfl⟩
    cases hg with
    | harvest hpc ht => exact .inr (.inl rfl)
    | close hpc hno => exact .inr (.inr (.inl rfl))
    | leave hpc h0 => exact .inr (.inr (.inr (.inr rfl)))
    | begin hpc ht =>
      rcases h with ⟨-, hf⟩ | h1 | h1 | h1 | h1
      · rw [ht] at hf
        cases hf
      all_goals
        rw [hpc] at h1
        cases h1
    | pause i hpc h0 => exact absurd h (not_leaving hpc (by simp))
    | fork i hf =>
      rcases hf with ⟨hpc, -⟩ | hpc | hpc
      all_goals exact absurd h (not_leaving hpc (by simp))
    | fail i hpc => exact absurd h (not_leaving hpc (by simp))
    | consume hpc hp => exact absurd h (not_leaving hpc (by simp))
    | reap hpc hp => exact absurd h (not_leaving hpc (by simp))
  | drain hpc => exact absurd h (not_leaving hpc (by simp))
  | advance i hpc h0 => exact absurd h (not_leaving hpc (by simp))
  | fork i pid now hpc h0 hnew => exact absurd h (not_leaving hpc (by simp))
  | handler s full hpc hs => exact absurd h (not_leaving hpc (by simp))
  | reap pid hpc hz => exact absurd h (not_leaving hpc (by simp))
  | waited hpc hall => exact absurd h (not_leaving hpc (by simp))
  | harvest hT hpc hz => exact ⟨.inr (.inr (.inl rfl)), rfl⟩
  | close hpc h0 => exact ⟨.inr (.inr (.inr (.inl rfl))), (Quiet.doKill (w.emit .closed) _ _).pid⟩
  | harvestLog hpc hz => exact ⟨.inr (.inr (.inr (.inr rfl))), rfl⟩

theorem Leaving.enter (h : ¬ Leaving w) (h' : Leaving w') (hm : Move T w w') :
    w'.pc = .top ∧ w'.flagTerm = true := by
  have hpc' : ∀ pc, w'.pc = pc →
      pc ≠ .top ∧ pc ≠ .harvest ∧ pc ≠ .closing ∧ pc ≠ .harvestLog ∧ pc ≠ .returned → False :=
    fun pc hpc hne => not_leaving hpc hne h'
  cases hm with
  | exits k hk hd => exact absurd h' h
  | raise s => exact absurd h' h
  | goes pc hg =>
    cases hg with
    | harvest hpc ht => exact absurd (.inl ⟨hpc, ht⟩) h
    | close hpc hno => exact absurd (.inr (.inl hpc)) h
    | leave hpc h0 => exact absurd (.inr (.inr (.inl hpc))) h
    | begin hpc ht => exact (hpc' _ rfl (by simp)).elim
    | pause i hpc h0 => exact (hpc' _ rfl (by simp)).elim
    | fork i hf => exact (hpc' _ rfl (by simp)).elim
    | fail i hpc => exact (hpc' _ rfl (by simp)).elim
    | consume hpc hp => exact (hpc' _ rfl (by simp)).elim
    | reap hpc hp => exact (hpc' _ rfl (by simp)).elim
  | drain hpc => exact (hpc' _ hpc (by simp)).elim
  | advance i hpc h0 => exact (hpc' _ rfl (advance_moving w i)).elim
  | fork i pid now hpc h0 hnew => exact (hpc' _ rfl (advance_moving _ i)).elim
  | handler s full hpc hs =>
    exact (hpc' _ ((sigtrap_quiet _ T s full).pc.trans hpc) (by simp)).elim
  | reap pid hpc hz => exact (hpc' _ ((childWait_pc (w.bury pid) pid).trans hpc) (by simp)).elim
  | waited hpc hall =>
    rcases h' with h1 | h1 | h1 | h1 | h1
    · exact h1
    all_goals cases h1
  | harvest hT hpc hz => exact absurd (.inr (.inl hpc)) h
  | close hpc h0 => exact absurd (.inr (.inr (.inl hpc))) h
  | harvestLog hpc hz => exact absurd (.inr (.inr (.inr (.inl hpc)))) h

/-- What has been found where the loop was left -/
def Good (w : World) : Prop := Leaving w → Kept w

theorem Good.ready (h : Good w) : Ready w := fun hpc ht => h (.inl ⟨hpc, ht⟩)

theorem good_move (hm : Move T w w') : Good w' ↔ Good w ∧ Ready w' := by
  by_cases hl : Leaving w
  · obtain ⟨hl', hpid⟩ := hl.move hm
    have hkept : Kept w' ↔ Kept w := by rw [Kept, Kept, hpid]
    constructor
    · exact fun h => ⟨fun _ => hkept.mp (h hl'), h.ready⟩
    · exact fun h _ => hkept.mpr (h.1 hl)
  · constructor
    · exact fun h => ⟨fun hno => absurd hno hl, h.ready⟩
    · intro h hl'
      obtain ⟨hpc, ht⟩ := Leaving.enter hl hl' hm
      exact h.2 hpc ht

theorem run_good {acts : List Act} (h : run T w acts = some w') :
    Good w' ↔ Good w ∧ AllReady T w acts := by
  induction acts generalizing w with
  | nil =>
    obtain rfl := Option.some.inj h
    exact (and_iff_left_of_imp Good.ready).symm
  | cons a acts ih =>
    obtain ⟨w1, h1, h2⟩ := Option.bind_eq_some_iff.mp h
    have hall : (∀ w', step T w a = some w' → AllReady T w' acts) ↔ AllReady T w1 acts := by
      constructor
      · exact fun hnext => hnext w1 h1
      · intro hnext w2 h3
        rw [h1] at h3
        exact Option.some.inj h3 ▸ hnext
    have hfirst : AllReady T w1 acts → Ready w1 := by
      intro hnext
      cases acts with
      | nil => exact hnext
      | cons b acts => exact hnext.1
    rw [ih h2, good_move (step_move T h1), AllReady, hall]
    constructor
    · exact fun hg => ⟨hg.1.1, hg.1.1.ready, hg.2⟩
    · exact fun hg => ⟨⟨hg.1, hfirst hg.2.2⟩, hg.2.2⟩

/-! ## The end -/

/-- How the children stood when the log pipe was closed -/
structure AtClose (w : World) : Prop where
  logger : w.pid .logger ≠ 0
  split : ∃ a b, w.trace = a ++ .closed :: b ∧ (child .logger).run a ≠ none ∧
    (w.pid .program = 0 → (child .program).run a = none)

theorem AtClose.extend (h : AtClose w) (evs : List Event) (ht : w'.trace = w.trace ++ evs)
    (hp : w'.pid = w.pid) : AtClose w' := by
  obtain ⟨a, b, hsplit, hlogger, hprogram⟩ := h.split
  constructor
  · rw [hp]
    exact h.logger
  · rw [hp]
    refine ⟨a, b ++ evs, ?_, hlogger, hprogram⟩
    rw [ht, hsplit, List.append_assoc, List.cons_append]

theorem no_child (hrec : Recorded T w) (htr : Tracked w) {i : Which} (h0 : w.pid i = 0) :
    (child i).run w.trace = none := by
  rw [htr.none_iff]
  intro k hk hw
  have hpos := hrec.positive k hk
  rw [← hrec.recorded k hk i hw, h0] at hpos
  exact Nat.lt_irrefl 0 hpos

/-- The log pipe is closed when there is a logger to be waited for, and else not. -/
structure Closing (w : World) : Prop where
  waiting : w.pc = .harvestLog → AtClose w
  returned : w.pc = .returned → AtClose w ∨ w.pid .logger = 0 ∧ .closed ∉ w.trace

theorem Closing.elsewhere (h1 : w.pc ≠ .harvestLog) (h2 : w.pc ≠ .returned) : Closing w :=
  ⟨fun h => absurd h h1, fun h => absurd h h2⟩

theorem Closing.outside (h : Closing w) (evs : List Event) (hpc : w'.pc = w.pc)
    (hp : w'.pid = w.pid) (ht : w'.trace = w.trace ++ evs) (hev : .closed ∉ evs) : Closing w' := by
  constructor
  · intro hwait
    exact (h.waiting (hpc ▸ hwait)).extend evs ht hp
  · intro hret
    refine (h.returned (hpc ▸ hret)).imp (fun hc => hc.extend evs ht hp) ?_
    rintro ⟨h0, hno⟩
    rw [hp, ht, List.mem_append, not_or]
    exact ⟨h0, hno, hev⟩

theorem Closing.move (h : Closing w) (hi : Inv T w) (htr : Tracked w) (hm : Move T w w') :
    Closing w' := by
  cases hm with
  | exits k hk hd => exact h.outside [.exited k.which] rfl rfl rfl (by simp)
  | raise s => exact h.outside [] rfl rfl (List.append_nil _).symm List.not_mem_nil
  | goes pc hg =>
    cases hg with
    | leave hpc h0 =>
      refine ⟨fun hno => (by cases hno), fun _ => .inr ⟨h0, fun hmem => ?_⟩⟩
      rcases hi.closed hmem with hlate | hlate
      · rw [hpc] at hlate
        cases hlate
      · rw [hpc] at hlate
        cases hlate
    | _ => exact .elsewhere (by simp) (by simp)
  | drain hpc => exact .elsewhere (by simp [hpc]) (by simp [hpc])
  | advance i hpc h0 =>
    exact .elsewhere (advance_moving w i).2.2.2.1 (advance_moving w i).2.2.2.2
  | fork i pid now hpc h0 hnew =>
    exact .elsewhere (advance_moving _ i).2.2.2.1 (advance_moving _ i).2.2.2.2
  | handler s full hpc hs =>
    have hpc' := (sigtrap_quiet ({ w with pending := Function.update w.pending s false }.emit
      (.caught s)) T s full).pc.trans hpc
    exact .elsewhere (by simp [hpc']) (by simp [hpc'])
  | reap pid hpc hz =>
    have hpc' := (childWait_pc (w.bury pid) pid).trans hpc
    exact .elsewhere (by simp [hpc']) (by simp [hpc'])
  | waited hpc hall => exact .elsewhere (by simp) (by simp)
  | harvest hT hpc hz => exact .elsewhere (by simp) (by simp)
  | close hpc h0 =>
    refine ⟨fun _ => ?_, fun hno => (by cases hno)⟩
    have hq := Quiet.doKill (w.emit .closed) .logger .sigcont
    obtain ⟨evs, htrace, -⟩ := hq.kills
    have hclosed : AtClose (w.emit .closed) := by
      have hnot : ¬ Harvested T w.pc .logger := by simp [Harvested, hpc]
      obtain ⟨k, hk, hp, hw⟩ := hi.recorded.present .logger h0 hnot
      refine ⟨h0, w.trace, [], rfl, ?_, fun hzero => no_child hi.recorded htr hzero⟩
      rw [ne_eq, htr.none_iff]
      exact fun hall => hall k hk hw
    exact hclosed.extend evs htrace hq.pid
  | harvestLog hpc hz =>
    refine ⟨fun hno => (by cases hno), fun _ => .inl ?_⟩
    exact (h.waiting hpc).extend [.reaped (w.pid .logger)] rfl rfl

/-- All that is kept by the moves -/
structure Known (T : Tool) (w : World) : Prop where
  inv : Inv T w
  tracked : Tracked w
  closing : Closing w

theorem Known.move (w w' : World) (h : Known T w) (hm : Move T w w') : Known T w' where
  inv := h.inv.move w w' hm
  tracked := h.tracked.move h.inv.recorded h.inv.staged hm
  closing := h.closing.move h.inv h.tracked hm

theorem known_start (c : Start) : Known T (start c) where
  inv := inv_start c
  tracked := by
    intro i p
    apply iff_of_false (by simp [start, child])
    rintro ⟨k, hk, hw, -⟩
    rw [c.foreign k hk] at hw
    cases hw
  closing := .elsewhere (by simp [start]) (by simp [start])

/-- What is found at the end tells what was found where the loop was left. -/
theorem ended_iff (h : Known rundeux w) (hpc : w.pc = .returned) : Ended w.trace ↔ Kept w := by
  have hprogram : ¬ Harvested rundeux w.pc .program := fun hh => by cases hh.1
  constructor
  · rintro ⟨a, b, ht, -, -, hnone⟩
    constructor
    · by_contra h0
      obtain ⟨k, hk, hp, hw⟩ := h.inv.recorded.present .program h0 hprogram
      exact (h.tracked.none_iff .program).mp (hnone .program) k hk hw
    · rcases h.closing.returned hpc with hclose | ⟨-, hno⟩
      · exact hclose.logger
      · exact absurd (ht ▸ List.mem_append_right a List.mem_cons_self) hno
  · rintro ⟨h0, hlogger⟩
    have hclose := (h.closing.returned hpc).resolve_right fun hno => hlogger hno.1
    obtain ⟨a, b, ht, hup, hdown⟩ := hclose.split
    refine ⟨a, b, ht, hdown h0, hup, fun i => ?_⟩
    cases i with
    | program => exact no_child h.inv.recorded h.tracked h0
    | logger => exact (h.tracked.none_iff .logger).mpr (h.inv.recorded.gone .logger hpc)

/-- A run of rundeux -/
structure Run where
  c : Start
  acts : List Act
  w : World
  run : Deux.run rundeux (start c) acts = some w

/-- rundeux ends as it is to, if the loop was left with the program waited for and the logger
not. All else holds in every run. -/
theorem rundeux_shutdown_iff (r : Run) :
    Shutdown r.w ↔ (r.w.pc = .returned → AllReady rundeux (start r.c) r.acts) := by
  have h : Known rundeux r.w := run_invariant rundeux Known.move (known_start r.c) r.run
  have hgood : Good r.w ↔ AllReady rundeux (start r.c) r.acts := by
    rw [run_good r.run, and_iff_right]
    rintro (⟨-, hf⟩ | hpc | hpc | hpc | hpc)
    · cases hf
    all_goals cases hpc
  have hend : r.w.pc = .returned → (Ended r.w.trace ↔ AllReady rundeux (start r.c) r.acts) := by
    intro hpc
    rw [ended_iff h hpc, ← hgood, Good]
    exact ⟨fun hkept _ => hkept, fun hall => hall (.inr (.inr (.inr (.inr hpc))))⟩
  constructor
  · exact fun hs hpc => (hend hpc).mp (hs.ended hpc)
  · intro hall
    refine ⟨?_, ?_, fun hpc => (hend hpc).mpr (hall hpc)⟩
    · intro i k hk x hx hw hxw
      have hrec := h.inv.recorded
      have hpid : k.pid = x.pid := (hrec.recorded k hk i hw).symm.trans (hrec.recorded x hx i hxw)
      exact List.inj_on_of_nodup_map hrec.nodup hk hx hpid
    · exact fun a b i p s ht hs => (h.inv.lives.orderly a (.started i p) b ht).2 s hs

/-- SIGTERM is caught while the program, which goes on running, and the logger are up. -/
def termAlive : List Act :=
  [.go, .clock (.load 5 0), .forked 10 (.load 5 0), .clock (.load 5 0), .forked 11 (.load 5 0),
    .raise .sigterm, .handler .sigterm false, .go, .go, .go, .noChild, .go, .go, .go,
    .exits ⟨10, some .logger, false⟩, .waitpid 10]

theorem rundeux_leaves_program : ¬ ∀ r : Run, Shutdown r.w := by
  intro h
  have hrun : (Deux.run rundeux (start alone) termAlive).map (fun w => (w.pc, w.pid .program)) =
      some (.returned, 11) := by
    decide
  obtain ⟨w, hr, hw⟩ := Option.map_eq_some_iff.mp hrun
  have hpc : w.pc = .returned := congrArg Prod.fst hw
  have hpid : w.pid .program = 11 := congrArg Prod.snd hw
  have hknown : Known rundeux w := run_invariant rundeux Known.move (known_start alone) hr
  have hkept := (ended_iff hknown hpc).mp ((h ⟨alone, termAlive, w, hr⟩).ended hpc)
  rw [hkept.1] at hpid
  cases hpid

end Perp.RundeuxShutdown
