import Perp.Deux

set_option autoImplicit false

/-!
# The moves of two supervised children

What one step of `main_loop()`, or of the world around it, does.
-/
namespace Perp.DeuxMoves
open Deux

variable (T : Tool)

/-- The steps of `main_loop()` that do nothing else. -/
inductive Goes (w : World) : Pc → Prop
  | harvest (hpc : w.pc = .top) (ht : w.flagTerm = true) : Goes w .harvest
  | begin (hpc : w.pc = .top) (ht : w.flagTerm = false) : Goes w (.start .logger)
  | pause (i : Which) (hpc : w.pc = .start i) (h0 : w.pid i = 0) : Goes w (.pausing i)
  | fork (i : Which) (h : w.pc = .start i ∧ w.pid i = 0 ∨ w.pc = .pausing i ∨ w.pc = .failing i) :
      Goes w (.forking i)
  | fail (i : Which) (hpc : w.pc = .forking i) : Goes w (.failing i)
  | consume (hpc : w.pc = .polling) (hp : 0 < w.pipe) : Goes w .consuming
  | reap (hpc : w.pc = .consuming) (hp : w.pipe = 0) : Goes w .reaping
  | close (hpc : w.pc = .harvest) (h : ¬ (T.harvests = true ∧ w.pid .program ≠ 0)) : Goes w .closing
  | leave (hpc : w.pc = .closing) (h0 : w.pid .logger = 0) : Goes w .returned

inductive Move (w : World) : World → Prop
  | exits (k : Kid) (hk : k ∈ w.kids) (hd : k.dead = false) : Move w (w.exit k)
  | raise (s : Signal) : Move w { w with pending := Function.update w.pending s true }
  | goes (pc : Pc) (h : Goes T w pc) : Move w { w with pc }
  | drain (hpc : w.pc = .consuming) : Move w { w with pipe := w.pipe - 1 }
  | advance (i : Which) (hpc : w.pc = .start i) (h0 : w.pid i ≠ 0) : Move w (w.advance i)
  | fork (i : Which) (pid : ℕ) (now : Tain) (hpc : w.pc = .forking i) (h0 : 0 < pid)
      (hnew : pid ∉ w.kids.map Kid.pid) : Move w ((w.fork i pid now).advance i)
  | handler (s : Signal) (full : Bool) (hpc : w.pc = .polling) (hs : w.pending s = true) :
      Move w (sigtrap T ({ w with pending := Function.update w.pending s false }.emit (.caught s))
        s full)
  | reap (pid : ℕ) (hpc : w.pc = .reaping) (hz : w.Zombie pid) :
      Move w ((w.bury pid).childWait pid)
  | waited (hpc : w.pc = .reaping) (h : ∀ k ∈ w.kids, k.dead = false) :
      Move w ({ w with pc := .top }.emit .waited)
  | harvest (hT : T.harvests = true) (hpc : w.pc = .harvest) (hz : w.Zombie (w.pid .program)) :
      Move w { w.bury (w.pid .program) with pc := .closing }
  | close (hpc : w.pc = .closing) (h0 : w.pid .logger ≠ 0) :
      Move w { (w.emit .closed).doKill .logger .sigcont with pc := .harvestLog }
  | harvestLog (hpc : w.pc = .harvestLog) (hz : w.Zombie (w.pid .logger)) :
      Move w { w.bury (w.pid .logger) with pc := .returned }

theorem stepGo_move {w w' : World} (h : stepGo T w = some w') : Move T w w' := by
  unfold stepGo at h
  split at h
  · next hpc =>
    obtain rfl := Option.some.inj h
    split
    · next ht => exact .goes _ (.harvest hpc ht)
    · next ht => exact .goes _ (.begin hpc (by simpa using ht))
  · next i hpc =>
    split at h
    · simp at h
    · next h0 =>
      obtain rfl := Option.some.inj h
      exact .advance i hpc h0
  · next i hpc =>
    obtain rfl := Option.some.inj h
    exact .goes _ (.fork i (.inr (.inl hpc)))
  · next i hpc =>
    obtain rfl := Option.some.inj h
    exact .goes _ (.fork i (.inr (.inr hpc)))
  · next hpc =>
    split at h
    · next hp =>
      obtain rfl := Option.some.inj h
      exact .goes _ (.consume hpc hp)
    · simp at h
  · next hpc =>
    obtain rfl := Option.some.inj h
    split
    · exact .drain hpc
    · exact .goes _ (.reap hpc (by omega))
  · next hpc =>
    split at h
    · simp at h
    · next h0 =>
      obtain rfl := Option.some.inj h
      exact .goes _ (.close hpc h0)
  · next hpc =>
    split at h <;> obtain rfl := Option.some.inj h
    · next h0 => exact .close hpc h0
    · next h0 => exact .goes _ (.leave hpc (by simpa using h0))
  · simp at h

theorem waitpid_move {w w' : World} {pid : ℕ} (h : step T w (.waitpid pid) = some w') :
    Move T w w' := by
  simp only [step] at h
  split at h
  · next hz =>
    split at h
    · next hpc =>
      obtain rfl := Option.some.inj h
      exact .reap pid hpc hz
    · next hpc =>
      split at h
      · next hp =>
        obtain rfl := Option.some.inj h
        obtain ⟨hT, rfl⟩ := hp
        exact .harvest hT hpc hz
      · simp at h
    · next hpc =>
      split at h
      · next hp =>
        obtain rfl := Option.some.inj h
        subst hp
        exact .harvestLog hpc hz
      · simp at h
    · simp at h
  · simp at h

theorem step_move {w w' : World} {a : Act} (h : step T w a = some w') : Move T w w' := by
  cases a with
  | exits k =>
    simp only [step] at h
    split at h
    · next hk =>
      obtain rfl := Option.some.inj h
      exact .exits k hk.1 hk.2
    · simp at h
  | raise s =>
    obtain rfl := Option.some.inj h
    exact .raise s
  | go => exact stepGo_move T h
  | clock now =>
    simp only [step] at h
    split at h
    · next i hpc =>
      split at h
      · next h0 =>
        obtain rfl := Option.some.inj h
        split
        · exact .goes _ (.pause i hpc h0)
        · exact .goes _ (.fork i (.inl ⟨hpc, h0⟩))
      · simp at h
    · simp at h
  | forkFails =>
    simp only [step] at h
    split at h
    · next i hpc =>
      obtain rfl := Option.some.inj h
      exact .goes _ (.fail i hpc)
    · simp at h
  | forked pid now =>
    simp only [step] at h
    split at h
    · next i hpc =>
      split at h
      · next hp =>
        obtain rfl := Option.some.inj h
        exact .fork i pid now hpc hp.1 hp.2
      · simp at h
    · simp at h
  | handler s full =>
    simp only [step] at h
    split at h
    · next hp =>
      obtain rfl := Option.some.inj h
      exact .handler s full hp.1 hp.2
    · simp at h
  | waitpid pid => exact waitpid_move T h
  | noChild =>
    simp only [step] at h
    split at h
    · next hp =>
      obtain rfl := Option.some.inj h
      exact .waited hp.1 hp.2
    · simp at h

/-- What holds at the start and is kept by every move holds after every run. -/
theorem run_invariant {I : World → Prop} (hmove : ∀ w w', I w → Move T w w' → I w')
    {w w' : World} {acts : List Act} (h : I w) (hr : run T w acts = some w') : I w' := by
  induction acts generalizing w with
  | nil =>
    obtain rfl := Option.some.inj hr
    exact h
  | cons a acts ih =>
    obtain ⟨w1, h1, h2⟩ := Option.bind_eq_some_iff.mp hr
    exact ih (hmove w w1 h (step_move T h1)) h2

end Perp.DeuxMoves
