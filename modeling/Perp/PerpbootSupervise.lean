import Perp.DeuxRecords

set_option autoImplicit false

/-!
# Supervision by perpboot

`perpboot.c`: one logger and one perpd at a time, a new one for each that died,
none after SIGTERM or SIGINT, and an end that waits for both.
-/
namespace Perp.PerpbootSupervise
open Deux DeuxMoves DeuxRecords TraceLaw

variable {T : Tool} {w w' : World}

/-- A child that died has left a trace for `poll()`, and so has the signal that
ends the loop. -/
structure Woken (w : World) : Prop where
  dead : w.pc ≠ .consuming → w.pc ≠ .reaping → (∃ k ∈ w.kids, k.which ≠ none ∧ k.dead = true) →
    w.pending .sigchld = true ∨ 0 < w.pipe
  term : w.pc = .polling → w.flagTerm = true → 0 < w.pipe

namespace Woken

/-- A step outside the two loops that answer to `poll()`. -/
theorem keep (h : Woken w) (hc : w.pc ≠ .consuming) (hr : w.pc ≠ .reaping)
    (hk : ∀ k ∈ w'.kids, k.dead = true → k ∈ w.kids) (hs : w'.pending = w.pending)
    (hp : w'.pipe = w.pipe) (ht : w'.pc = .polling → w'.flagTerm = false) : Woken w' where
  dead _ _ hd := by
    obtain ⟨k, hm, hw, hd⟩ := hd
    rw [hs, hp]
    exact h.dead hc hr ⟨k, hk k hm hd, hw, hd⟩
  term hpc hf := by simp [ht hpc] at hf

theorem goes {pc : Pc} (h : Woken w) (hg : Goes T w pc) : Woken { w with pc } := by
  have hgo (hc : w.pc ≠ .consuming) (hr : w.pc ≠ .reaping) (hp : pc ≠ .polling) :
      Woken { w with pc } := h.keep hc hr (fun _ hm _ => hm) rfl rfl fun he => absurd he hp
  cases hg with
  | consume hpc hp => exact ⟨fun hc => absurd rfl hc, by simp⟩
  | reap hpc hp => exact ⟨fun _ hr => absurd rfl hr, by simp⟩
  | fork i hf => rcases hf with ⟨hf, _⟩ | hf | hf <;> exact hgo (by simp [hf]) (by simp [hf]) (by simp)
  | pause i hpc h0 => exact hgo (by simp [hpc]) (by simp [hpc]) (by simp)
  | fail i hpc => exact hgo (by simp [hpc]) (by simp [hpc]) (by simp)
  | _ hpc => exact hgo (by simp [hpc]) (by simp [hpc]) (by simp)

theorem move (h : Woken w) (hst : Staged w) (hm : Move T w w') : Woken w' := by
  cases hm with
  | exits k hk hd => exact ⟨fun _ _ _ => .inl (by simp [World.exit]), h.term⟩
  | raise s =>
    refine ⟨fun hc hr hd => ?_, h.term⟩
    by_cases hs : s = .sigchld
    · exact .inl (by simp [hs])
    · simpa [Function.update_of_ne (Ne.symm hs)] using h.dead hc hr hd
  | goes pc hg => exact h.goes hg
  | drain hpc => exact ⟨fun hc => absurd hpc hc, fun hp => by simp [hpc] at hp⟩
  | advance i hpc h0 =>
    have hf := hst.running i (by simp [hpc, Pc.element])
    exact h.keep (by simp [hpc]) (by simp [hpc]) (fun k hk _ => by simpa using hk) (by simp)
      (by simp) fun _ => by simp [hf]
  | fork i pid now hpc h0 hnew =>
    have hf := hst.running i (by simp [hpc, Pc.element])
    refine h.keep (by simp [hpc]) (by simp [hpc]) ?_ (by simp [World.fork]) (by simp [World.fork])
      fun _ => by simp [World.fork, hf]
    intro k hk hd
    rcases List.mem_cons.mp (by simpa [World.fork] using hk) with rfl | hk
    · simp at hd
    · exact hk
  | handler s full hpc hs =>
    exact ⟨fun _ _ _ => .inr (sigtrap_pipe _ T s full), fun _ _ => sigtrap_pipe _ T s full⟩
  | reap pid hpc hz =>
    have hpc' := (childWait_pc (w.bury pid) pid).trans hpc
    exact ⟨fun _ hr => absurd hpc' hr, fun hp => by simp [hpc'] at hp⟩
  | waited hpc hall =>
    refine ⟨fun _ _ hd => ?_, fun hp => by simp at hp⟩
    obtain ⟨k, hk, _, hd⟩ := hd
    simp [hall k hk] at hd
  | harvest hT hpc hz =>
    exact h.keep (by simp [hpc]) (by simp [hpc]) (fun k hk _ => (List.mem_filter.mp hk).1) rfl rfl
      fun hp => by simp at hp
  | close hpc h0 =>
    have hq := Quiet.doKill (w.emit .closed) .logger .sigcont
    exact h.keep (by simp [hpc]) (by simp [hpc]) (fun k hk _ => hq.kids ▸ hk) hq.pending
      (doKill_pipe _ _ _) fun hp => by simp at hp
  | harvestLog hpc hz =>
    exact h.keep (by simp [hpc]) (by simp [hpc]) (fun k hk _ => (List.mem_filter.mp hk).1) rfl rfl
      fun hp => by simp at hp

end Woken

/-- A child as the trace tells it. -/
inductive Life where
  | up
  /-- it died in this round of the loop -/
  | dead
  /-- it died in a round that is over -/
  | due
  deriving DecidableEq

def life (i : Which) : Monitor Event Life where
  init := .up
  next l e :=
    match e with
    | .exited which => if which = some i ∧ l = .up then .dead else l
    | .waited => if l = .dead then .due else l
    | .started j _ => if j = i then .up else l
    | _ => l

/-- No round polls with a child due, and no child starts before the round of
its predecessor's death is over or after SIGTERM or SIGINT. -/
def Orderly (past : List Event) : Event → Prop
  | .exited which => ∀ i, which = some i → (life i).run past ≠ .due
  | .polls => ∀ i, (life i).run past ≠ .due
  | .started i _ => (life i).run past ≠ .dead ∧ ∀ s, s.ends = true → .caught s ∉ past
  | _ => True

/-- The death of a child is still to be seen by the end of the round. -/
def Fallen (w : World) (i : Which) : Prop :=
  (∃ k ∈ w.kids, k.which = some i ∧ k.dead = true) ∨ w.pid i = 0 ∧ w.pc = .reaping

/-- The trace and the records agree. -/
structure Lives (T : Tool) (w : World) : Prop where
  due : ∀ i, (life i).run w.trace = .due → w.pid i = 0
  dead : ∀ i, (life i).run w.trace = .dead → ¬ Harvested T w.pc i → Fallen w i
  caught : ∀ s, s.ends = true → .caught s ∈ w.trace → w.flagTerm = true
  orderly : Along Orderly w.trace

/-- An event that says nothing of the rounds. -/
def mute : Event → Bool
  | .kill _ _ | .reaped _ | .closed | .caught _ => true
  | _ => false

theorem mute_of_kill {e : Event} (h : Event.isKill e = true) : mute e = true := by
  cases e <;> first | rfl | cases h

namespace Lives

theorem quiet (evs : List Event) (h : Lives T w) (ht : w'.trace = w.trace ++ evs)
    (hev : ∀ e ∈ evs, mute e = true) (hp : ∀ i, w.pid i = 0 → w'.pid i = 0)
    (hn : ∀ i, ¬ Harvested T w'.pc i → ¬ Harvested T w.pc i)
    (hfall : ∀ i, ¬ Harvested T w'.pc i → Fallen w i → Fallen w' i)
    (hf : w.flagTerm = true → w'.flagTerm = true)
    (hc : ∀ s, s.ends = true → .caught s ∈ evs → w'.flagTerm = true) : Lives T w' := by
  have hlife (i : Which) : (life i).run w'.trace = (life i).run w.trace := by
    rw [ht]
    refine Monitor.run_append_of_ignored _ _ _ fun e he l => ?_
    have := hev e he
    cases e <;> first | rfl | cases this
  refine ⟨fun i hi => hp i (h.due i (hlife i ▸ hi)),
    fun i hi hni => hfall i hni (h.dead i (hlife i ▸ hi) (hn i hni)), fun s hs hm => ?_, ?_⟩
  · rw [ht] at hm
    rcases List.mem_append.mp hm with hm | hm
    · exact hf (h.caught s hs hm)
    · exact hc s hs hm
  · rw [ht]
    refine h.orderly.append_free fun e he past => ?_
    have := hev e he
    cases e <;> trivial

/-- A step of the loop that neither starts nor waits. -/
theorem goto {pc : Pc} (h : Lives T w) (hr : w.pc ≠ .reaping)
    (hn : ∀ i, ¬ Harvested T pc i → ¬ Harvested T w.pc i) : Lives T { w with pc } :=
  h.quiet [] (by simp) (by simp) (fun _ => id) hn
    (fun _ _ hf => hf.imp id fun hf => absurd hf.2 hr) id (by simp)

theorem polls (h : Lives T w) (h0 : ∀ i, w.pid i ≠ 0) (hr : w.pc ≠ .reaping)
    (hn : ∀ i, ¬ Harvested T w.pc i) : Lives T ({ w with pc := .polling }.emit .polls) := by
  have hlife (i : Which) : (life i).run ({ w with pc := .polling }.emit .polls).trace =
      (life i).run w.trace := by
    simp [life]
  refine ⟨fun i hi => h.due i (hlife i ▸ hi), fun i hi _ => ?_, fun s hs hm => ?_, ?_⟩
  · exact (h.dead i (hlife i ▸ hi) (hn i)).imp id fun hf => absurd hf.2 hr
  · exact h.caught s hs (by simpa using hm)
  · rw [emit_trace, along_concat]
    exact ⟨h.orderly, fun i hi => h0 i (h.due i hi)⟩

theorem advance {i : Which} (h : Lives T w) (hpc : Pc.element w.pc = some i)
    (hl : i = .program → w.pid .logger ≠ 0) (h0 : w.pid i ≠ 0) : Lives T (w.advance i) := by
  have hr : w.pc ≠ .reaping := fun he => by simp [he, Pc.element] at hpc
  have hn (j : Which) : ¬ Harvested T w.pc j := by
    cases hw : w.pc <;> simp [hw, Pc.element] at hpc <;> cases j <;> simp [Harvested]
  cases i with
  | logger => exact h.goto hr fun j _ => hn j
  | program =>
    refine h.polls (fun j => ?_) hr hn
    cases j with
    | logger => exact hl rfl
    | program => exact h0

theorem fork {i : Which} {pid : ℕ} {now : Tain} (h : Lives T w) (hrec : Recorded T w)
    (hpc : w.pc = .forking i) (h0 : w.pid i = 0) (hf : w.flagTerm = false) :
    Lives T (w.fork i pid now) := by
  have hn (j : Which) : ¬ Harvested T w.pc j := by cases j <;> simp [Harvested, hpc]
  have htr : (w.fork i pid now).trace = w.trace ++ [.started i pid] := rfl
  have hlife (j : Which) : (life j).run (w.fork i pid now).trace =
      if i = j then .up else (life j).run w.trace := by
    rw [htr, Monitor.run_concat]
    rfl
  refine ⟨fun j hj => ?_, fun j hj _ => ?_, fun s hs hm => ?_, ?_⟩
  · rw [hlife] at hj
    split at hj
    · cases hj
    · next hne => simpa [World.fork, Function.update_of_ne (Ne.symm hne)] using h.due j hj
  · rw [hlife] at hj
    split at hj
    · cases hj
    · rcases h.dead j hj (hn j) with ⟨k, hk, hw, hd⟩ | ⟨_, hr⟩
      · exact .inl ⟨k, List.mem_cons_of_mem _ hk, hw, hd⟩
      · simp [hpc] at hr
  · rw [htr] at hm
    exact h.caught s hs (by simpa using hm)
  · rw [htr, along_concat]
    refine ⟨h.orderly, fun hdead => ?_, fun s hs hm => ?_⟩
    · rcases h.dead i hdead (hn i) with ⟨k, hk, hw, _⟩ | ⟨_, hr⟩
      · have hpos := hrec.positive k hk
        rw [← hrec.recorded k hk i hw, h0] at hpos
        exact Nat.lt_irrefl 0 hpos
      · simp [hpc] at hr
    · simp [h.caught s hs hm] at hf

theorem exit {k : Kid} (h : Lives T w) (hrec : Recorded T w) (hk : k ∈ w.kids) :
    Lives T (w.exit k) := by
  have htr : (w.exit k).trace = w.trace ++ [.exited k.which] := rfl
  have hlife (j : Which) : (life j).run (w.exit k).trace =
      if k.which = some j ∧ (life j).run w.trace = .up then .dead else (life j).run w.trace := by
    rw [htr, Monitor.run_concat]
    rfl
  have hmem {x : Kid} (hx : x ∈ w.kids) (hd : x.dead = true) : x ∈ (w.exit k).kids := by
    refine List.mem_map.mpr ⟨x, hx, ?_⟩
    split
    · next he => subst he; cases x; simp_all
    · rfl
  refine ⟨fun j hj => ?_, fun j hj hn => ?_, fun s hs hm => ?_, ?_⟩
  · rw [hlife] at hj
    split at hj
    · cases hj
    · exact h.due j hj
  · rw [hlife] at hj
    split at hj
    · next hw =>
      refine .inl ⟨{ k with dead := true }, List.mem_map.mpr ⟨k, hk, if_pos rfl⟩, hw.1, rfl⟩
    · rcases h.dead j hj hn with ⟨x, hx, hw, hd⟩ | hr
      · exact .inl ⟨x, hmem hx hd, hw, hd⟩
      · exact .inr hr
  · rw [htr] at hm
    exact h.caught s hs (by simpa using hm)
  · rw [htr, along_concat]
    refine ⟨h.orderly, fun i hw hdue => ?_⟩
    have hpos := hrec.positive k hk
    rw [← hrec.recorded k hk i hw, h.due i hdue] at hpos
    exact Nat.lt_irrefl 0 hpos

theorem reap {pid : ℕ} (h : Lives T w) (hrec : Recorded T w) (hpc : w.pc = .reaping)
    (hz : w.Zombie pid) : Lives T ((w.bury pid).childWait pid) := by
  have h0 := hrec.zombie_pos hz
  rw [hrec.childWait_eq hpc h0]
  refine h.quiet [.reaped pid] rfl (by simp [mute]) (fun i hi => ?_) (fun _ => id)
    (fun i _ hfall => ?_) id (by simp)
  · simp [hi]
  · rcases hfall with ⟨k, hk, hw, hd⟩ | ⟨hi, hr⟩
    · by_cases hkp : k.pid = pid
      · exact .inr ⟨if_pos ((hrec.recorded k hk i hw).trans hkp), hpc⟩
      · exact .inl ⟨k, List.mem_filter.mpr ⟨hk, by simpa using hkp⟩, hw, hd⟩
    · exact .inr ⟨by simp [hi], hr⟩

theorem waited (h : Lives T w) (hpc : w.pc = .reaping) (hall : ∀ k ∈ w.kids, k.dead = false) :
    Lives T ({ w with pc := .top }.emit .waited) := by
  have hn (j : Which) : ¬ Harvested T w.pc j := by cases j <;> simp [Harvested, hpc]
  have hlife (j : Which) : (life j).run ({ w with pc := .top }.emit .waited).trace =
      if (life j).run w.trace = .dead then .due else (life j).run w.trace := by
    rw [emit_trace, Monitor.run_concat]
    rfl
  refine ⟨fun j hj => ?_, fun j hj _ => ?_, fun s hs hm => ?_, ?_⟩
  · rw [hlife] at hj
    split at hj
    · next hd =>
      -- every dead child has been waited for
      rcases h.dead j hd (hn j) with ⟨k, hk, _, hd⟩ | ⟨h0, _⟩
      · simp [hall k hk] at hd
      · exact h0
    · exact h.due j hj
  · rw [hlife] at hj
    split at hj
    · cases hj
    · next hd => exact absurd hj hd
  · exact h.caught s hs (by simpa using hm)
  · rw [emit_trace, along_concat]
    exact ⟨h.orderly, trivial⟩

/-- A child is waited for at the end. -/
theorem bury {pid : ℕ} {pc : Pc} (h : Lives T w) (hrec : Recorded T w) (hr : w.pc ≠ .reaping)
    (hn : ∀ i, ¬ Harvested T pc i → ¬ Harvested T w.pc i ∧ w.pid i ≠ pid) :
    Lives T { w.bury pid with pc } := by
  refine h.quiet [.reaped pid] rfl (by simp [mute]) (fun _ => id) (fun i hi => (hn i hi).1)
    (fun i hi hfall => ?_) id (by simp)
  rcases hfall with ⟨k, hk, hw, hd⟩ | ⟨_, hp⟩
  · refine .inl ⟨k, List.mem_filter.mpr ⟨hk, ?_⟩, hw, hd⟩
    rw [← hrec.recorded k hk i hw]
    simpa using (hn i hi).2
  · exact absurd hp hr

theorem goes {pc : Pc} (h : Lives T w) (hg : Goes T w pc) : Lives T { w with pc } := by
  have hr : w.pc ≠ .reaping := by
    cases hg with
    | fork i hf => rcases hf with ⟨hf, _⟩ | hf | hf <;> simp [hf]
    | pause i hpc h0 => simp [hpc]
    | fail i hpc => simp [hpc]
    | _ hpc => simp [hpc]
  refine h.goto hr fun i hi hw => hi ?_
  cases hg with
  | fork j hf => rcases hf with ⟨hf, _⟩ | hf | hf <;> cases i <;> simp_all [Harvested]
  | _ => cases i <;> simp_all [Harvested]

theorem handler {s : Signal} {full : Bool} (h : Lives T w) (hpc : w.pc = .polling) :
    Lives T (sigtrap T ({ w with pending := Function.update w.pending s false }.emit (.caught s))
      s full) := by
  generalize hw1 : ({ w with pending := Function.update w.pending s false }.emit (.caught s)) = w1
  have hq := sigtrap_quiet w1 T s full
  have hf := sigtrap_flagTerm w1 T s full
  obtain ⟨evs, htr, hk⟩ := hq.kills
  subst hw1
  refine h.quiet (.caught s :: evs) (by simp [htr]) (fun e he => ?_) (fun i hi => ?_)
    (fun i hi => ?_) (fun i _ hfall => ?_) (fun ht => ?_) fun s' hs' hm => ?_
  · rcases List.mem_cons.mp he with rfl | he
    · rfl
    · exact mute_of_kill (hk e he)
  · rw [hq.pid]
    exact hi
  · rwa [hq.pc] at hi
  · rcases hfall with ⟨k, hk', hw, hd⟩ | ⟨_, hr⟩
    · exact .inl ⟨k, by rw [hq.kids]; exact hk', hw, hd⟩
    · simp [hpc] at hr
  · rw [hf, emit_flagTerm, ht, Bool.true_or]
  · rcases List.mem_cons.mp hm with he | hm
    · obtain rfl := Event.caught.inj he
      simp [hf, hs']
    · cases hk _ hm

theorem close (h : Lives T w) (hpc : w.pc = .closing) :
    Lives T { (w.emit .closed).doKill .logger .sigcont with pc := .harvestLog } := by
  have hq := Quiet.doKill (w.emit .closed) .logger .sigcont
  obtain ⟨evs, htr, hk⟩ := hq.kills
  refine h.quiet (.closed :: evs) (by simp [htr]) (fun e he => ?_) (fun i hi => ?_)
    (fun i hi => ?_) (fun i _ hfall => ?_) (fun ht => by simpa using ht) fun s' hs' hm => ?_
  · rcases List.mem_cons.mp he with rfl | he
    · rfl
    · exact mute_of_kill (hk e he)
  · exact (congrFun hq.pid i).trans hi
  · cases i <;> simp_all [Harvested]
  · rcases hfall with ⟨k, hk', hw, hd⟩ | ⟨_, hr⟩
    · exact .inl ⟨k, hq.kids ▸ hk', hw, hd⟩
    · simp [hpc] at hr
  · rcases List.mem_cons.mp hm with he | hm
    · cases he
    · cases hk _ hm

theorem move (h : Lives T w) (hrec : Recorded T w) (hst : Staged w) (hm : Move T w w') :
    Lives T w' := by
  cases hm with
  | exits k hk hd => exact h.exit hrec hk
  | raise s =>
    exact h.quiet [] (by simp) (by simp) (fun _ => id) (fun _ => id) (fun _ _ => id) id
      (by simp)
  | goes pc hg => exact h.goes hg
  | drain hpc =>
    exact h.quiet [] (by simp) (by simp) (fun _ => id) (fun _ => id) (fun _ _ => id) id
      (by simp)
  | advance i hpc h0 =>
    have hel : Pc.element w.pc = some i := by simp [hpc, Pc.element]
    exact h.advance hel (fun hi => hst.second (hi ▸ hel)) h0
  | fork i pid now hpc h0 hnew =>
    have hel : Pc.element w.pc = some i := by simp [hpc, Pc.element]
    have h1 : Lives T (w.fork i pid now) := h.fork hrec hpc (hst.vacant i (.inr (.inl hpc)))
      (hst.running i hel)
    refine h1.advance hel (fun hi => ?_) (by simp [World.fork, Nat.ne_of_gt h0])
    subst hi
    simpa [World.fork] using hst.second hel
  | handler s full hpc hs => exact h.handler hpc
  | reap pid hpc hz => exact h.reap hrec hpc hz
  | waited hpc hall => exact h.waited hpc hall
  | harvest hT hpc hz =>
    refine h.bury hrec (by simp [hpc]) fun i hi => ⟨by cases i <;> simp [Harvested, hpc], ?_⟩
    have hn (j : Which) : ¬ Harvested T w.pc j := by cases j <;> simp [Harvested, hpc]
    cases i with
    | logger => exact (hrec.pid_ne (by decide) (hrec.zombie_pos hz) (hn _) (hn _)).symm
    | program => simp [Harvested, hT] at hi
  | close hpc h0 => exact h.close hpc
  | harvestLog hpc hz =>
    have hl : ¬ Harvested T w.pc .logger := by simp [Harvested, hpc]
    refine h.bury hrec (by simp [hpc]) fun i hi => ?_
    cases i with
    | logger => simp [Harvested] at hi
    | program =>
      have hn : ¬ Harvested T w.pc .program := fun hw => hi ⟨hw.1, .inr (.inr rfl)⟩
      exact ⟨hn, (hrec.pid_ne (by decide) (hrec.zombie_pos hz) hl hn).symm⟩

end Lives

/-- The log pipe is closed late in `main_loop()`. -/
def ClosedLate (w : World) : Prop := .closed ∈ w.trace → w.pc = .harvestLog ∨ w.pc = .returned

theorem ClosedLate.move (h : ClosedLate w) (hm : Move T w w') : ClosedLate w' := by
  have hearly (evs : List Event) (htr : w'.trace = w.trace ++ evs) (hc : .closed ∉ evs)
      (hpc : w.pc ≠ .harvestLog ∧ w.pc ≠ .returned) : ClosedLate w' := by
    intro hmem
    rw [htr] at hmem
    rcases h ((List.mem_append.mp hmem).resolve_right hc) with he | he
    · exact absurd he hpc.1
    · exact absurd he hpc.2
  cases hm with
  | exits k hk hd => exact fun hmem => h (by simpa [World.exit] using hmem)
  | raise s => exact h
  | goes pc hg =>
    refine hearly [] (by simp) (by simp) ?_
    cases hg with
    | fork i hf => rcases hf with ⟨hf, _⟩ | hf | hf <;> simp [hf]
    | pause i hpc h0 => simp [hpc]
    | fail i hpc => simp [hpc]
    | _ hpc => simp [hpc]
  | drain hpc => exact hearly [] (by simp) (by simp) (by simp [hpc])
  | advance i hpc h0 =>
    cases i with
    | logger => exact hearly [] (by simp [World.advance]) (by simp) (by simp [hpc])
    | program => exact hearly [.polls] rfl (by simp) (by simp [hpc])
  | fork i pid now hpc h0 hnew =>
    cases i with
    | logger => exact hearly [.started .logger pid] rfl (by simp) (by simp [hpc])
    | program =>
      refine hearly [.started .program pid, .polls] ?_ (by simp) (by simp [hpc])
      simp [World.advance, World.fork]
  | handler s full hpc hs =>
    obtain ⟨evs, htr, hk⟩ := (sigtrap_quiet ({ w with
      pending := Function.update w.pending s false }.emit (.caught s)) T s full).kills
    refine hearly (.caught s :: evs) (by simp [htr]) ?_ (by simp [hpc])
    simp only [List.mem_cons, not_or]
    exact ⟨by simp, fun hm => by cases hk _ hm⟩
  | reap pid hpc hz =>
    refine hearly [.reaped pid] ?_ (by simp) (by simp [hpc])
    unfold World.childWait
    split
    · rfl
    · split <;> rfl
  | waited hpc hall => exact hearly [.waited] rfl (by simp) (by simp [hpc])
  | harvest hT hpc hz => exact hearly [.reaped (w.pid .program)] rfl (by simp) (by simp [hpc])
  | close hpc h0 => exact fun _ => .inl rfl
  | harvestLog hpc hz => exact fun _ => .inr rfl

structure Inv (T : Tool) (w : World) : Prop where
  recorded : Recorded T w
  staged : Staged w
  woken : Woken w
  lives : Lives T w
  closed : ClosedLate w

theorem Inv.move (w w' : World) (h : Inv T w) (hm : Move T w w') : Inv T w' where
  recorded := h.recorded.move (fun i hi => h.staged.vacant i (.inr (.inl hi))) hm
  staged := h.staged.move hm
  woken := h.woken.move h.staged hm
  lives := h.lives.move h.recorded h.staged hm
  closed := h.closed.move hm

theorem inv_start (c : Start) : Inv T (start c) where
  recorded := by
    refine ⟨c.nodup, c.positive, fun k hk i hi => ?_, fun i hi => absurd rfl hi, fun i hi => ?_⟩
    · simp [c.foreign k hk] at hi
    · cases i <;> simp [Harvested, start] at hi
  staged := .outside rfl
  woken := by
    refine ⟨fun _ _ hd => ?_, fun hp => by simp [start] at hp⟩
    obtain ⟨k, hk, hw, _⟩ := hd
    exact absurd (c.foreign k hk) hw
  lives := ⟨fun _ _ => rfl, fun _ h => (by simp [start, life] at h), fun _ _ h => (by simp [start] at h),
    along_nil⟩
  closed h := by simp [start] at h

/-- A child stays dead until the end of the round. -/
theorem life_dead {i : Which} {past u : List Event} (h : Along Orderly (past ++ u))
    (hd : (life i).run past = .dead) (hw : .waited ∉ u) : (life i).run (past ++ u) = .dead := by
  induction u using List.reverseRecOn with
  | nil => simpa using hd
  | append_singleton u e ih =>
    rw [← List.append_assoc, along_concat] at h
    have hu := ih h.1 fun hm => hw (by simp [hm])
    rw [← List.append_assoc, Monitor.run_concat, hu]
    cases e with
    | waited => simp at hw
    | started j p =>
      by_cases hj : j = i
      · subst hj
        exact absurd hu h.2.1
      · simp [life, hj]
    | _ => simp [life]

/-- A child that is due stays due until it is started. -/
theorem life_due {i : Which} {past u : List Event} (hd : (life i).run past = .due)
    (hs : ∀ p, .started i p ∉ u) : (life i).run (past ++ u) = .due := by
  induction u using List.reverseRecOn with
  | nil => simpa using hd
  | append_singleton u e ih =>
    have hu := ih fun p hm => hs p (by simp [hm])
    rw [← List.append_assoc, Monitor.run_concat, hu]
    cases e with
    | started j p =>
      have hj : j ≠ i := by
        rintro rfl
        exact hs p (by simp)
      simp [life, hj]
    | _ => simp [life]

/-- A child that died in one round of the loop is started in the next, before
the next round polls. -/
def Restarted (t : List Event) : Prop :=
  ∀ i a b1 b2 c, t = a ++ .exited (some i) :: b1 ++ .waited :: b2 ++ .polls :: c →
    .waited ∉ b1 → ∃ p, .started i p ∈ b2

/-- What perpboot does for the logger and perpd. -/
structure Supervised (w : World) : Prop where
  single : ∀ i, ∀ k ∈ w.kids, ∀ x ∈ w.kids, k.which = some i → x.which = some i → k = x
  restarted : Restarted w.trace
  /-- the death of a child ends `poll()` -/
  woken : w.pc = .polling → (∃ k ∈ w.kids, k.which ≠ none ∧ k.dead = true) →
    w.pending .sigchld = true ∨ 0 < w.pipe
  final : ∀ a b i p s, w.trace = a ++ .started i p :: b → s.ends = true → .caught s ∉ a
  harvested : w.pc = .returned → ∀ k ∈ w.kids, k.which = none
  order : .closed ∈ w.trace → ∀ k ∈ w.kids, k.which ≠ some .program

theorem restarted_of_orderly {t : List Event} (h : Along Orderly t) : Restarted t := by
  intro i a b1 b2 c ht hw
  by_contra hs
  have hs' (p : ℕ) : .started i p ∉ b2 := fun hm => hs ⟨p, hm⟩
  have hdead : (life i).run (a ++ [.exited (some i)]) = .dead := by
    have hexit := h a (.exited (some i)) (b1 ++ .waited :: b2 ++ .polls :: c) (by simp [ht]) i rfl
    rw [Monitor.run_concat]
    cases hl : (life i).run a with
    | due => exact absurd hl hexit
    | _ => simp [life]
  have hround : (life i).run (a ++ [.exited (some i)] ++ b1) = .dead :=
    life_dead (Along.of_append (u := .waited :: b2 ++ .polls :: c) (by simpa [ht] using h)) hdead hw
  have hdue : (life i).run (a ++ [.exited (some i)] ++ b1 ++ [.waited] ++ b2) = .due := by
    refine life_due ?_ hs'
    rw [Monitor.run_concat, hround]
    rfl
  refine h (a ++ .exited (some i) :: b1 ++ .waited :: b2) .polls c ht i ?_
  simpa using hdue

/-- In supervisor mode, perpboot keeps one logger and one perpd alive until
SIGTERM or SIGINT, and then waits for perpd and for the logger. -/
theorem perpboot_supervises (c : Start) (acts : List Act) (w : World)
    (h : run perpboot (start c) acts = some w) : Supervised w := by
  have hi : Inv perpboot w := run_invariant perpboot Inv.move (inv_start c) h
  have hprogram (hpc : w.pc = .harvestLog ∨ w.pc = .returned) : ∀ k ∈ w.kids, k.which ≠ some .program :=
    hi.recorded.gone .program ⟨rfl, .inr hpc⟩
  constructor
  · intro i k hk x hx hw hxw
    have hpid : k.pid = x.pid :=
      (hi.recorded.recorded k hk i hw).symm.trans (hi.recorded.recorded x hx i hxw)
    exact List.inj_on_of_nodup_map hi.recorded.nodup hk hx hpid
  · exact restarted_of_orderly hi.lives.orderly
  · exact fun hpc => hi.woken.dead (by simp [hpc]) (by simp [hpc])
  · exact fun a b i p s ht hs => (hi.lives.orderly a (.started i p) b ht).2 s hs
  · intro hpc k hk
    cases hw : k.which with
    | none => rfl
    | some i =>
      cases i with
      | logger => exact absurd hw (hi.recorded.gone .logger hpc k hk)
      | program => exact absurd hw (hprogram (.inr hpc) k hk)
  · exact fun hc => hprogram (hi.closed hc)

/-- No children and no signals. -/
def alone : Start := ⟨[], fun _ => false, by simp, by simp, by simp⟩

/-- perpd dies and is started again after a pause, then SIGTERM ends both. -/
def diesThenTerm : List Act :=
  [.go, .clock (.load 5 0), .forked 10 (.load 5 0), .clock (.load 5 0), .forkFails, .go,
    .forked 11 (.load 7 0), .exits ⟨11, some .program, false⟩, .handler .sigchld false, .go, .go, .go,
    .waitpid 11, .noChild, .go, .go, .clock (.load 7 5), .go, .forked 12 (.load 8 0),
    .raise .sigterm, .handler .sigterm false, .go, .go, .go, .noChild, .go,
    .exits ⟨12, some .program, false⟩, .waitpid 12, .go, .exits ⟨10, some .logger, false⟩,
    .waitpid 10]

theorem perpboot_supervises_term : ∃ w, run perpboot (start alone) diesThenTerm = some w ∧
    w.pc = .returned ∧ Supervised w := by
  have hrun : (run perpboot (start alone) diesThenTerm).map World.pc = some .returned := by decide
  obtain ⟨w, hr, hpc⟩ := Option.map_eq_some_iff.mp hrun
  exact ⟨w, hr, hpc, perpboot_supervises alone diesThenTerm w hr⟩

end Perp.PerpbootSupervise
