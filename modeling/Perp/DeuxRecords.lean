import Mathlib.Data.List.Nodup
import Perp.DeuxMoves

set_option autoImplicit false

/-!
# The records of two supervised children

`deux[]` agrees with the kernel's table of children, and the loop over it has a
record to fill wherever it is about to fork.
-/
namespace Perp.DeuxRecords
open Deux DeuxMoves

section Effects
variable (w : World)

@[simp] theorem emit_pid (e : Event) : (w.emit e).pid = w.pid := rfl
@[simp] theorem emit_kids (e : Event) : (w.emit e).kids = w.kids := rfl
@[simp] theorem emit_pc (e : Event) : (w.emit e).pc = w.pc := rfl
@[simp] theorem emit_flagTerm (e : Event) : (w.emit e).flagTerm = w.flagTerm := rfl
@[simp] theorem emit_pending (e : Event) : (w.emit e).pending = w.pending := rfl
@[simp] theorem emit_pipe (e : Event) : (w.emit e).pipe = w.pipe := rfl
@[simp] theorem emit_trace (e : Event) : (w.emit e).trace = w.trace ++ [e] := rfl

@[simp] theorem advance_pid (i : Which) : (w.advance i).pid = w.pid := by cases i <;> rfl
@[simp] theorem advance_kids (i : Which) : (w.advance i).kids = w.kids := by cases i <;> rfl
@[simp] theorem advance_flagTerm (i : Which) : (w.advance i).flagTerm = w.flagTerm := by
  cases i <;> rfl
@[simp] theorem advance_pending (i : Which) : (w.advance i).pending = w.pending := by cases i <;> rfl
@[simp] theorem advance_pipe (i : Which) : (w.advance i).pipe = w.pipe := by cases i <;> rfl

/-- The events that only tell of a signal passed on. -/
def Event.isKill : Event → Bool
  | .kill _ _ => true
  | _ => false

/-- What `kill()` and the selfpipe leave as it is. -/
structure Quiet (w w' : World) : Prop where
  pid : w'.pid = w.pid
  pc : w'.pc = w.pc
  kids : w'.kids = w.kids
  pending : w'.pending = w.pending
  kills : ∃ evs, w'.trace = w.trace ++ evs ∧ ∀ e ∈ evs, Event.isKill e = true

theorem Quiet.refl : Quiet w w := ⟨rfl, rfl, rfl, rfl, [], by simp, by simp⟩

variable {w} in
theorem Quiet.trans {w' w'' : World} (h : Quiet w w') (h' : Quiet w' w'') : Quiet w w'' := by
  obtain ⟨a, ha, hka⟩ := h.kills
  obtain ⟨b, hb, hkb⟩ := h'.kills
  refine ⟨h'.pid.trans h.pid, h'.pc.trans h.pc, h'.kids.trans h.kids, h'.pending.trans h.pending,
    a ++ b, by simp [hb, ha], fun e he => ?_⟩
  exact (List.mem_append.mp he).elim (hka e) (hkb e)

theorem Quiet.doKill (i : Which) (s : Signal) : Quiet w (w.doKill i s) := by
  unfold World.doKill
  split
  · exact ⟨rfl, rfl, rfl, rfl, [_], rfl, by simp [Event.isKill]⟩
  · exact .refl w

theorem Quiet.sigpipePing (full : Bool) : Quiet w (w.sigpipePing full) := by
  unfold World.sigpipePing
  split
  · exact .refl w
  · exact ⟨rfl, rfl, rfl, rfl, [], by simp, by simp⟩

@[simp] theorem doKill_flagTerm (i : Which) (s : Signal) :
    (w.doKill i s).flagTerm = w.flagTerm := by
  unfold World.doKill
  split <;> rfl

theorem doKill_pipe (i : Which) (s : Signal) : (w.doKill i s).pipe = w.pipe := by
  unfold World.doKill
  split <;> rfl

theorem childWait_pc (pid : ℕ) : (w.childWait pid).pc = w.pc := by
  unfold World.childWait
  split
  · rfl
  · split <;> rfl

@[simp] theorem sigpipePing_flagTerm (full : Bool) :
    (w.sigpipePing full).flagTerm = w.flagTerm := by
  unfold World.sigpipePing
  split <;> rfl

theorem sigpipePing_pipe (full : Bool) : 0 < (w.sigpipePing full).pipe := by
  unfold World.sigpipePing
  split
  · next h => exact h.2
  · exact Nat.succ_pos _

variable (T : Tool)

theorem sigtrap_quiet (s : Signal) (full : Bool) : Quiet w (sigtrap T w s full) := by
  unfold sigtrap
  split
  · exact .sigpipePing w full
  split
  · have hset : Quiet w { w with flagTerm := true } := ⟨rfl, rfl, rfl, rfl, [], by simp, by simp⟩
    exact ((hset.trans (.doKill _ _ _)).trans (.doKill _ _ _)).trans (.sigpipePing _ full)
  · exact (Quiet.doKill w _ _).trans (.sigpipePing _ full)

theorem sigtrap_flagTerm (s : Signal) (full : Bool) :
    (sigtrap T w s full).flagTerm = (w.flagTerm || s.ends) := by
  unfold sigtrap
  split
  · next h => simp [h, Signal.ends]
  split
  · next h => simp [h]
  · next h => simp [h]

theorem sigtrap_pipe (s : Signal) (full : Bool) : 0 < (sigtrap T w s full).pipe := by
  unfold sigtrap
  split
  · exact sigpipePing_pipe w full
  split <;> exact sigpipePing_pipe _ full

end Effects

/-- The child has been waited for at the end of `main_loop()`. -/
def Harvested (T : Tool) (pc : Pc) : Which → Prop
  | .logger => pc = .returned
  | .program => T.harvests = true ∧ (pc = .closing ∨ pc = .harvestLog ∨ pc = .returned)

/-- The records of `deux[]` and the kernel's table of children agree. -/
structure Recorded (T : Tool) (w : World) : Prop where
  nodup : (w.kids.map Kid.pid).Nodup
  positive : ∀ k ∈ w.kids, 0 < k.pid
  recorded : ∀ k ∈ w.kids, ∀ i, k.which = some i → w.pid i = k.pid
  present : ∀ i, w.pid i ≠ 0 → ¬ Harvested T w.pc i → ∃ k ∈ w.kids, k.pid = w.pid i ∧ k.which = some i
  gone : ∀ i, Harvested T w.pc i → ∀ k ∈ w.kids, k.which ≠ some i

namespace Recorded
variable {T : Tool} {w w' : World}

theorem goto {pc : Pc} (h : Recorded T w) (hold : ∀ i, Harvested T w.pc i → Harvested T pc i)
    (hnew : ∀ i, Harvested T pc i → Harvested T w.pc i ∨ w.pid i = 0) :
    Recorded T { w with pc } where
  nodup := h.nodup
  positive := h.positive
  recorded := h.recorded
  present i hi hn := h.present i hi fun hw => hn (hold i hw)
  gone i hi k hk hwhich := by
    rcases hnew i hi with hw | h0
    · exact h.gone i hw k hk hwhich
    · have hpos := h.positive k hk
      rw [← h.recorded k hk i hwhich, h0] at hpos
      exact absurd hpos (Nat.lt_irrefl 0)

theorem congr (h : Recorded T w) (hp : w'.pid = w.pid) (hk : w'.kids = w.kids)
    (hh : ∀ i, Harvested T w'.pc i ↔ Harvested T w.pc i) : Recorded T w' where
  nodup := hk ▸ h.nodup
  positive := hk ▸ h.positive
  recorded := by rw [hp, hk]; exact h.recorded
  present i hi hn := by
    rw [hp, hk]
    exact h.present i (hp ▸ hi) fun hw => hn ((hh i).mpr hw)
  gone i hi := by
    rw [hk]
    exact h.gone i ((hh i).mp hi)

/-- Two children on record have different numbers. -/
theorem pid_ne (h : Recorded T w) {i j : Which} (hij : i ≠ j) (hi : w.pid i ≠ 0)
    (hni : ¬ Harvested T w.pc i) (hnj : ¬ Harvested T w.pc j) : w.pid i ≠ w.pid j := by
  intro he
  obtain ⟨k, hk, hkp, hkw⟩ := h.present i hi hni
  obtain ⟨x, hx, hxp, hxw⟩ := h.present j (he ▸ hi) hnj
  have hkx : k = x := List.inj_on_of_nodup_map h.nodup hk hx (by rw [hkp, hxp, he])
  subst hkx
  exact hij (Option.some.inj (hkw.symm.trans hxw))

theorem zombie_pos {pid : ℕ} (h : Recorded T w) (hz : w.Zombie pid) : pid ≠ 0 := by
  obtain ⟨k, hk, rfl, _⟩ := hz
  exact Nat.ne_of_gt (h.positive k hk)

theorem exit (h : Recorded T w) (k : Kid) (hk : k ∈ w.kids) : Recorded T (w.exit k) := by
  have hmem {x : Kid} (hx : x ∈ (w.exit k).kids) : ∃ y ∈ w.kids, x.pid = y.pid ∧ x.which = y.which := by
    obtain ⟨y, hy, rfl⟩ := List.mem_map.mp hx
    refine ⟨y, hy, ?_⟩
    split <;> simp_all
  have hpids : (w.exit k).kids.map Kid.pid = w.kids.map Kid.pid := by
    simp only [World.exit, emit_kids, List.map_map]
    refine List.map_congr_left fun x _ => ?_
    by_cases hx : x = k <;> simp [hx]
  constructor
  · exact hpids ▸ h.nodup
  · intro x hx
    obtain ⟨y, hy, hp, _⟩ := hmem hx
    exact hp ▸ h.positive y hy
  · intro x hx i hi
    obtain ⟨y, hy, hp, hw⟩ := hmem hx
    rw [hp]
    exact h.recorded y hy i (hw ▸ hi)
  · intro i hi hn
    obtain ⟨y, hy, hp, hw⟩ := h.present i hi hn
    refine ⟨_, List.mem_map_of_mem hy, ?_⟩
    split
    · next he => subst he; exact ⟨hp, hw⟩
    · exact ⟨hp, hw⟩
  · intro i hi x hx
    obtain ⟨y, hy, _, hw⟩ := hmem hx
    exact hw ▸ h.gone i hi y hy

theorem fork (h : Recorded T w) {i : Which} {pid : ℕ} {now : Tain} (h0 : 0 < pid)
    (hnew : pid ∉ w.kids.map Kid.pid) (hi : w.pid i = 0) (hn : ¬ Harvested T w.pc i) :
    Recorded T (w.fork i pid now) := by
  constructor
  · exact List.nodup_cons.mpr ⟨hnew, h.nodup⟩
  · intro k hk
    rcases List.mem_cons.mp hk with rfl | hk
    · exact h0
    · exact h.positive k hk
  · intro k hk j hj
    rcases List.mem_cons.mp hk with rfl | hold
    · obtain rfl := Option.some.inj hj
      simp [World.fork]
    · have hrec := h.recorded k hold j hj
      have hne : j ≠ i := by
        rintro rfl
        have hpos := h.positive k hold
        omega
      simpa [World.fork, Function.update_of_ne hne] using hrec
  · intro j hj hnj
    by_cases hji : j = i
    · subst hji
      exact ⟨_, List.mem_cons_self, by simp [World.fork], rfl⟩
    · simp only [World.fork, emit_pid, Function.update_of_ne hji] at hj ⊢
      obtain ⟨k, hk, hkj⟩ := h.present j hj hnj
      exact ⟨k, List.mem_cons_of_mem _ hk, hkj⟩
  · intro j hj k hk
    rcases List.mem_cons.mp hk with rfl | hk
    · intro he
      obtain rfl := Option.some.inj he
      exact hn hj
    · exact h.gone j hj k hk

/-- The child `i` is waited for, and its record is cleared or no longer used. -/
theorem bury {pid : ℕ} {pc : Pc} {p : Which → ℕ} (h : Recorded T w)
    (hpid : ∀ i, p i = w.pid i ∨ p i = 0 ∧ w.pid i = pid)
    (hlast : ∀ i, w.pid i = pid → ¬ Harvested T w.pc i → p i = 0 ∨ Harvested T pc i)
    (hold : ∀ i, Harvested T w.pc i → Harvested T pc i)
    (hnew : ∀ i, Harvested T pc i → Harvested T w.pc i ∨ w.pid i = pid) :
    Recorded T { w.bury pid with pid := p, pc } := by
  have hmem {k : Kid} : k ∈ (w.bury pid).kids ↔ k ∈ w.kids ∧ k.pid ≠ pid := by
    simp [World.bury]
  constructor
  · exact (List.filter_sublist.map _).nodup h.nodup
  · exact fun k hk => h.positive k (hmem.mp hk).1
  · intro k hk i hi
    obtain ⟨hk, hne⟩ := hmem.mp hk
    have hrec := h.recorded k hk i hi
    exact ((hpid i).resolve_right fun hp => hne (hrec.symm.trans hp.2)).trans hrec
  · intro i hi hn
    have hp : p i = w.pid i := (hpid i).resolve_right fun hp => hi hp.1
    have hnw : ¬ Harvested T w.pc i := fun hw => hn (hold i hw)
    obtain ⟨k, hk, hkp, hkw⟩ := h.present i (hp ▸ hi) hnw
    refine ⟨k, hmem.mpr ⟨hk, fun he => ?_⟩, hkp.trans hp.symm, hkw⟩
    exact (hlast i (hkp.symm.trans he) hnw).elim hi hn
  · intro i hi k hk hwhich
    obtain ⟨hk, hne⟩ := hmem.mp hk
    rcases hnew i hi with hw | hw
    · exact h.gone i hw k hk hwhich
    · exact hne ((h.recorded k hk i hwhich).symm.trans hw)

theorem goes {pc : Pc} (h : Recorded T w) (hg : Goes T w pc) : Recorded T { w with pc } := by
  refine h.goto (fun i hi => ?_) fun i hi => ?_
  · cases hg with
    | fork j hf => rcases hf with ⟨hf, _⟩ | hf | hf <;> cases i <;> simp_all [Harvested]
    | _ => cases i <;> simp_all [Harvested]
  · cases hg <;> cases i <;> simp_all [Harvested]

theorem advance {i : Which} (h : Recorded T w) (hh : ∀ j, ¬ Harvested T w.pc j) :
    Recorded T (w.advance i) := by
  refine h.congr (advance_pid w i) (advance_kids w i) fun j => iff_of_false ?_ (hh j)
  cases i <;> cases j <;> simp [World.advance, Harvested]

theorem quiet (h : Recorded T w) (hq : Quiet w w') : Recorded T w' :=
  h.congr hq.pid hq.kids fun i => by rw [hq.pc]

/-- `child_wait()` clears the record of the child. -/
theorem childWait_eq {pid : ℕ} (h : Recorded T w) (hpc : w.pc = .reaping) (hpos : pid ≠ 0) :
    (w.bury pid).childWait pid =
      { w.bury pid with pid := fun i => if w.pid i = pid then 0 else w.pid i } := by
  have hh (j : Which) : ¬ Harvested T w.pc j := by cases j <;> simp [Harvested, hpc]
  have hpid : (w.bury pid).pid = w.pid := rfl
  unfold World.childWait
  rw [hpid]
  split
  · next hl =>
    congr 1
    funext i
    cases i
    · simp [hl]
    · have hne := h.pid_ne (i := .logger) (j := .program) (by decide) (hl ▸ hpos) (hh _) (hh _)
      simp [hl, Ne.symm hne]
  · next hl =>
    split
    · next hp =>
      congr 1
      funext i
      cases i
      · simp [Ne.symm hl]
      · simp [hp]
    · next hp =>
      have hkeep : (fun i => if w.pid i = pid then 0 else w.pid i) = w.pid := by
        funext i
        cases i
        · simp [Ne.symm hl]
        · simp [Ne.symm hp]
      rw [hkeep]
      rfl

theorem reap {pid : ℕ} (h : Recorded T w) (hpc : w.pc = .reaping) (hpos : pid ≠ 0) :
    Recorded T ((w.bury pid).childWait pid) := by
  rw [h.childWait_eq hpc hpos]
  refine h.bury (fun i => ?_) (fun i hi _ => .inl (if_pos hi)) (fun _ => id) fun _ => .inl
  by_cases hi : w.pid i = pid
  · exact .inr ⟨if_pos hi, hi⟩
  · exact .inl (if_neg hi)

theorem move (h : Recorded T w) (hidle : ∀ i, w.pc = .forking i → w.pid i = 0)
    (hm : Move T w w') : Recorded T w' := by
  have hh {pc : Pc} (hpc : w.pc = pc) (hpc' : ∀ j, ¬ Harvested T pc j) (j : Which) :
      ¬ Harvested T w.pc j := hpc ▸ hpc' j
  cases hm with
  | exits k hk hd => exact h.exit k hk
  | raise s => exact h.congr rfl rfl fun _ => Iff.rfl
  | goes pc hg => exact h.goes hg
  | drain hpc => exact h.congr rfl rfl fun _ => Iff.rfl
  | advance i hpc h0 => exact h.advance (hh hpc fun j => by cases j <;> simp [Harvested])
  | fork i pid now hpc h0 hnew =>
    have hn := hh hpc fun j => by cases j <;> simp [Harvested]
    exact (h.fork h0 hnew (hidle i hpc) (hn i)).advance hn
  | handler s full hpc hs =>
    have hset : Recorded T ({ w with pending := Function.update w.pending s false }.emit (.caught s)) :=
      h.congr rfl rfl fun _ => Iff.rfl
    exact hset.quiet (sigtrap_quiet _ _ _ _)
  | reap pid hpc hz => exact h.reap hpc (h.zombie_pos hz)
  | waited hpc hall =>
    refine h.congr rfl rfl fun i => ?_
    cases i <;> simp [Harvested, hpc]
  | harvest hT hpc hz =>
    have hn := hh hpc fun j => by cases j <;> simp [Harvested]
    refine h.bury (fun _ => .inl rfl) (fun i hi _ => .inr ?_) (fun i hi => absurd hi (hn i))
      fun i hi => ?_
    · cases i
      · exact absurd hi.symm (h.pid_ne (by decide) (h.zombie_pos hz) (hn _) (hn _))
      · exact ⟨hT, .inl rfl⟩
    · cases i
      · simp [Harvested] at hi
      · exact .inr rfl
  | close hpc h0 =>
    have hq := Quiet.doKill (w.emit .closed) .logger .sigcont
    refine h.congr hq.pid hq.kids fun i => ?_
    cases i <;> simp [Harvested, hpc]
  | harvestLog hpc hz =>
    have hl : ¬ Harvested T w.pc .logger := by simp [Harvested, hpc]
    refine h.bury (fun _ => .inl rfl) (fun i hi hn => .inr ?_) (fun i hi => ?_) fun i hi => ?_
    · cases i
      · rfl
      · exact absurd hi.symm (h.pid_ne (by decide) (h.zombie_pos hz) hl hn)
    · cases i
      · exact absurd hi hl
      · exact ⟨hi.1, .inr (.inr rfl)⟩
    · cases i
      · exact .inr rfl
      · exact .inl ⟨hi.1, .inr (.inl hpc)⟩

end Recorded

/-- The element of `deux[]` that the loop is at. -/
def Pc.element : Pc → Option Which
  | .start i | .pausing i | .forking i | .failing i => some i
  | _ => none

/-- What the loop over `deux[]` has seen. -/
structure Staged (w : World) : Prop where
  vacant : ∀ i, w.pc = .pausing i ∨ w.pc = .forking i ∨ w.pc = .failing i → w.pid i = 0
  second : Pc.element w.pc = some .program → w.pid .logger ≠ 0
  running : ∀ i, Pc.element w.pc = some i → w.flagTerm = false

namespace Staged
variable {T : Tool} {w w' : World}

theorem outside (h : Pc.element w'.pc = none) : Staged w' := by
  refine ⟨fun i hi => ?_, fun hi => ?_, fun i hi => ?_⟩
  · rcases hi with hi | hi | hi <;> simp [hi, Pc.element] at h
  · simp [h] at hi
  · simp [h] at hi

theorem congr (h : Staged w) (hpc : w'.pc = w.pc) (hp : w'.pid = w.pid)
    (hf : w'.flagTerm = w.flagTerm) : Staged w' := by
  constructor <;> rw [hpc] <;> simp only [hp, hf]
  · exact h.vacant
  · exact h.second
  · exact h.running

theorem goes {pc : Pc} (h : Staged w) (hg : Goes T w pc) : Staged { w with pc } := by
  cases hg with
  | begin hpc ht => exact ⟨by simp, by simp [Pc.element], fun _ _ => ht⟩
  | pause i hpc h0 =>
    refine ⟨?_, ?_, fun _ _ => h.running i (by simp [hpc, Pc.element])⟩
    · rintro j (hj | hj | hj) <;> cases hj
      exact h0
    · intro hj
      exact h.second (by simpa [hpc, Pc.element] using hj)
  | fork i hf =>
    have hel : Pc.element w.pc = some i := by rcases hf with ⟨hf, _⟩ | hf | hf <;> simp [hf, Pc.element]
    refine ⟨?_, ?_, fun _ _ => h.running i hel⟩
    · rintro j (hj | hj | hj) <;> cases hj
      rcases hf with ⟨_, h0⟩ | hf | hf
      · exact h0
      · exact h.vacant _ (.inl hf)
      · exact h.vacant _ (.inr (.inr hf))
    · intro hj
      exact h.second (hel.trans hj)
  | fail i hpc =>
    have hel : Pc.element w.pc = some i := by simp [hpc, Pc.element]
    refine ⟨?_, fun hj => h.second (hel.trans hj), fun _ _ => h.running i hel⟩
    rintro j (hj | hj | hj) <;> cases hj
    exact h.vacant _ (.inr (.inl hpc))
  | _ => exact outside rfl

theorem advance {i : Which} (hf : w.flagTerm = false) (h0 : w.pid i ≠ 0) :
    Staged (w.advance i) := by
  cases i with
  | logger => exact ⟨by simp [World.advance], fun _ => h0, fun _ _ => hf⟩
  | program => exact outside rfl

theorem move (h : Staged w) (hm : Move T w w') : Staged w' := by
  cases hm with
  | exits k hk hd => exact h.congr rfl rfl rfl
  | raise s => exact h.congr rfl rfl rfl
  | goes pc hg => exact h.goes hg
  | drain hpc => exact h.congr rfl rfl rfl
  | advance i hpc h0 => exact advance (h.running i (by simp [hpc, Pc.element])) h0
  | fork i pid now hpc h0 hnew =>
    refine advance (h.running i (by simp [hpc, Pc.element])) ?_
    simp [World.fork, Nat.ne_of_gt h0]
  | handler s full hpc hs =>
    have hq := sigtrap_quiet ({ w with pending := Function.update w.pending s false }.emit (.caught s)) T s full
    exact outside (by rw [hq.pc]; simp [hpc, Pc.element])
  | reap pid hpc hz =>
    have hpc' := (childWait_pc (w.bury pid) pid).trans hpc
    exact outside (by simp [hpc', Pc.element])
  | waited hpc hall => exact outside rfl
  | harvest hT hpc hz => exact outside rfl
  | close hpc h0 => exact outside rfl
  | harvestLog hpc hz => exact outside rfl

end Staged

end Perp.DeuxRecords
