import Perp.PerpdClient
import Perp.PerpdLife

set_option autoImplicit false

/-!
# A subservice that is told to run once

The mark that 'o' leaves on a subservice is read by the next exit, whichever
target it was that exited.
-/
namespace Perp.PerpdOnce
open PerpdState PerpdSvdef PerpdMainloop PerpdClient PerpdEntry PerpdEffect PerpdActivate
  PerpdService PerpdLife TraceLaw

/-- What the processes of a subservice do. -/
inductive Act where
  | start | reset | exit
  deriving DecidableEq, Repr

def Act.of : Event → Option Act
  | .sv _ (.fork _ .start _ _ _ _ (some _)) => some .start
  | .sv _ (.fork _ .reset _ _ _ _ (some _)) => some .reset
  | .sv _ (.reap _ _) => some .exit
  | _ => none

def acts (t : List Event) : List Act := t.filterMap Act.of

/-- A subservice that has been told to run once is left to itself: it is given no
other command, its service is not deactivated, and its forks succeed. -/
def LeftAlone : Event → Prop
  | .sv _ (.control _ _) | .sv _ .wantcull | .sv _ (.fork _ _ _ _ _ _ none) => False
  | _ => True

instance : (e : Event) → Decidable (LeftAlone e)
  | .sv _ (.control _ _) | .sv _ .wantcull | .sv _ (.fork _ _ _ _ _ _ none) => isFalse id
  | .sv _ (.fork _ _ _ _ _ _ (some _)) | .sv _ (.activate _) | .sv _ (.reap _ _)
  | .sv _ (.kill _ _ _) | .sv _ .checkfail | .sv _ (.closeLog _ _) | .sv _ .cull | .sv _ .status =>
    isTrue trivial
  | .opened _ _ | .closed _ _ | .request _ | .sent _ _ | .term | .scan | .scanned => isTrue trivial

/-- One start, and when it has ended and its reset is complete nothing more. -/
def StartedOnce (post : List Event) : Prop :=
  (acts post).count .start = 1 ∧ [.start, .exit, .reset, .exit] <:+ acts post

instance (post : List Event) : Decidable (StartedOnce post) :=
  inferInstanceAs (Decidable (_ ∧ _))

/-- How far the subservice `v` has come since the command, when `down` says
whether it had no process then. -/
inductive Stage : Bool → List Act → Subsv → Prop where
  | starting (v : Subsv) (hp : 0 < v.pid) (hr : v.has .isreset = false) (ho : v.has .isonce = true) :
      Stage true [.start] v
  | resetting (v : Subsv) (hp : 0 < v.pid) (hr : v.has .isreset = true)
      (hw : v.has .wantdown = true) : Stage true [.start, .exit, .reset] v
  | done (v : Subsv) (hp : v.pid = 0) (hf : v.has .failing = false) :
      Stage true [.start, .exit, .reset, .exit] v
  | pending (v : Subsv) (hp : 0 < v.pid) (hr : v.has .isreset = true) (ho : v.has .isonce = true) :
      Stage false [] v
  | missed (v : Subsv) (hp : v.pid = 0) (hf : v.has .failing = false) : Stage false [.exit] v

section Step
variable {sig : ℕ → Option (List Char)} {k : Key} {w : Which}

theorem acts_append (t u : List Event) : acts (t ++ u) = acts t ++ acts u :=
  List.filterMap_append

theorem acts_fork {sd : Svdef} {u : Subsv} {target : Target} {pid : ℕ} {e : Event}
    (he : ForkEvent sig sd w u target (some pid) e) :
    acts [e] = [if target = .start then .start else .reset] := by
  obtain ⟨_, x, now, towait, io, rfl, _⟩ := he
  cases target <;> rfl

theorem fork_leftAlone {sd : Svdef} {u : Subsv} {target : Target} {ret : Option ℕ} {e : Event}
    (he : ForkEvent sig sd w u target ret e) (hl : LeftAlone e) : ∃ pid, ret = some pid ∧ 0 < pid := by
  obtain ⟨hpos, x, now, towait, io, rfl, _⟩ := he
  cases ret with
  | none => exact hl.elim
  | some pid => exact ⟨pid, rfl, hpos pid rfl⟩

theorem Stage.congr {down : Bool} {l : List Act} {u v : Subsv} (h : Stage down l u)
    (hp : v.pid = u.pid) (hf : ∀ f, f ≠ .ispaused → v.has f = u.has f) : Stage down l v := by
  have hr := hf .isreset (by simp)
  have ho := hf .isonce (by simp)
  have hw := hf .wantdown (by simp)
  have hfail := hf .failing (by simp)
  cases h with
  | starting _ h1 h2 h3 => exact .starting v (by omega) (hr.trans h2) (ho.trans h3)
  | resetting _ h1 h2 h3 => exact .resetting v (by omega) (hr.trans h2) (hw.trans h3)
  | done _ h1 h2 => exact .done v (by omega) (hfail.trans h2)
  | pending _ h1 h2 h3 => exact .pending v (by omega) (hr.trans h2) (ho.trans h3)
  | missed _ h1 h2 => exact .missed v (by omega) (hfail.trans h2)

theorem subStep_stage {down : Bool} {post evs : List Event} {sd sd' : Svdef}
    (hfail : (sd.sv w).has .failing = true → (sd.sv w).pid = 0)
    (hs : SubStep sig sd w evs (sd'.sv w)) (hl : ∀ e ∈ evs, LeftAlone e)
    (h : Stage down (acts post) (sd.sv w)) : Stage down (acts (post ++ evs)) (sd'.sv w) := by
  rw [acts_append]
  generalize sd'.sv w = v at hs ⊢
  generalize acts post = l at h ⊢
  cases hs with
  | idle _ hp hf => exact (List.append_nil l).symm ▸ h.congr hp hf
  | signalled cmd => exact (hl (.sv sd (.control w cmd)) (by simp)).elim
  | downed => exact (hl (.sv sd (.control w .down)) (by simp)).elim
  | flagged cmd => exact (hl (.sv sd (.control w cmd)) (by simp)).elim
  | commanded cmd => exact (hl (.sv sd (.control w cmd)) (by simp)).elim
  | wantculled => exact (hl (.sv sd .wantcull) (by simp)).elim
  | checked => exact (List.append_nil l).symm ▸ h
  | retried target ret e _ _ _ hf hp0 =>
    -- nothing fails while the subservice is left alone
    cases h <;> simp_all
  | reset wstat ret e _ _ hp _ hir he hv =>
    obtain ⟨pid, rfl, hpos⟩ := fork_leftAlone he (hl e (by simp))
    have ha : acts [.sv sd (.reap w wstat), e] = [.exit, .reset] := by
      rw [← List.singleton_append, acts_append, acts_fork he]
      rfl
    rw [ha]
    cases h with
    | starting _ _ _ ho =>
      refine .resetting v (by rw [hv.pid]; exact hpos) (by simp [hv.isreset]) ?_
      rw [hv.other _ (by simp) (by simp)]
      simp [ho]
    | resetting _ _ hr => simp [hir] at hr
    | done _ hp0 => omega
    | pending _ _ hr => simp [hir] at hr
    | missed _ hp0 => omega
  | restarted wstat ret e _ _ hp hir hd =>
    cases h with
    | starting _ _ hr => simp [hir] at hr
    | resetting _ _ _ hw => simp [hw] at hd
    | done _ hp0 => omega
    | pending _ _ _ ho => simp [ho] at hd
    | missed _ hp0 => omega
  | finished wstat _ hp hir hd =>
    have ha : acts [.sv sd (.reap w wstat)] = [.exit] := rfl
    have hnf : (reapedSv (sd.sv w) wstat).has .failing = false := by
      by_contra hn
      have := hfail (by simpa using hn)
      omega
    rw [ha]
    cases h with
    | starting _ _ hr => simp [hir] at hr
    | resetting => exact .done _ (by simp) hnf
    | done _ hp0 => omega
    | pending => exact .missed _ (by simp) hnf
    | missed _ hp0 => omega

theorem subStep_first {evs post : List Event} {as : List Event} {sd sd' x : Svdef}
    (hs : SubStep sig sd w evs (sd'.sv w))
    (he : evs = as ++ .sv x (.control w .once) :: post) (hl : ∀ e ∈ post, LeftAlone e)
    (hx : Present x w) (hn : (x.sv w).pid = 0 ∨ (x.sv w).has .isreset = true) :
    sd = x ∧ Stage (decide ((x.sv w).pid = 0)) (acts post) (sd'.sv w) := by
  -- the command comes first in its step
  have hone (p : Event) (hp : [p] = as ++ .sv x (.control w .once) :: post) :
      p = .sv x (.control w .once) ∧ post = [] := by
    cases as <;> simp_all
  have htwo (p e : Event) (hne : e ≠ .sv x (.control w .once))
      (hp : [p, e] = as ++ .sv x (.control w .once) :: post) :
      p = .sv x (.control w .once) ∧ post = [e] := by
    rcases as with _ | ⟨a, _ | ⟨b, as⟩⟩ <;> simp_all
  have hfork {y : Svdef} {u : Subsv} {target : Target} {ret : Option ℕ} {e : Event}
      (hf : ForkEvent sig y w u target ret e) : e ≠ .sv x (.control w .once) := by
    obtain ⟨_, z, now, towait, io, rfl, _⟩ := hf
    simp
  generalize sd'.sv w = v at hs ⊢
  cases hs with
  | idle => simp at he
  | signalled cmd _ hc => exact absurd (hone _ he).1 (by simp [hc.2.1])
  | downed => exact absurd (hone _ he).1 (by simp)
  | wantculled => exact absurd (hone _ he).1 (by simp)
  | checked => exact absurd (hone _ he).1 (by simp)
  | finished => exact absurd (hone _ he).1 (by simp)
  | retried _ _ _ _ _ _ _ _ _ hf => exact absurd (htwo _ _ (hfork hf) he).1 (by simp)
  | reset _ _ _ _ _ _ _ _ hf => exact absurd (htwo _ _ (hfork hf) he).1 (by simp)
  | restarted _ _ _ _ _ _ _ _ hf => exact absurd (htwo _ _ (hfork hf) he).1 (by simp)
  | flagged cmd hc hp =>
    obtain ⟨h1, rfl⟩ := hone _ he
    obtain ⟨rfl, _, rfl⟩ : sd = x ∧ True ∧ cmd = .once := by simpa using h1
    have hpos : 0 < (sd.sv w).pid := hp.resolve_right fun h => h hx
    have hr := hn.resolve_left (by omega)
    rw [decide_eq_false (by omega)]
    exact ⟨rfl, .pending _ (by simpa using hpos) (by simpa using hr) (by simp)⟩
  | commanded cmd ret e _ _ _ _ hp hf hv =>
    obtain ⟨h1, rfl⟩ := htwo _ _ (hfork hf) he
    obtain ⟨rfl, _, rfl⟩ : sd = x ∧ True ∧ cmd = .once := by simpa using h1
    obtain ⟨pid, rfl, hpos⟩ := fork_leftAlone hf (hl e (by simp))
    rw [acts_fork hf, decide_eq_true hp]
    refine ⟨rfl, .starting v (by rw [hv.pid]; exact hpos) (by simp [hv.isreset]) ?_⟩
    rw [hv.other _ (by simp) (by simp)]
    simp

/-- Since each 'o' after which it was left alone, the subservice has come so far. -/
def Staged (w : Which) (h : List Event) (e : Option Svdef) : Prop :=
  ∀ pre x post, h = pre ++ .sv x (.control w .once) :: post → Present x w → x.has .cull = false →
    ((x.sv w).pid = 0 ∨ (x.sv w).has .isreset = true) → (∀ e ∈ post, LeftAlone e) →
      ∃ sd, e = some sd ∧ sd.has .cull = false ∧
        Stage (decide ((x.sv w).pid = 0)) (acts post) (sd.sv w)

theorem life_staged : LifeInv sig k w (fun _ _ => True) (fun h e => Staged w h e) where
  start := fun pre x post he => by simp at he
  step := by
    rintro h h' e e' hs _ hi pre x post he hx hc hn hl
    cases hs with
    | stay => exact hi pre x post he hx hc hn hl
    | @entry evs sd sd' _ _ _ hfail hs _ hset =>
      have hcull (hnc : sd.has .cull = false) (hm : evs ≠ [.sv sd .wantcull]) :
          sd'.has .cull = false := by
        by_contra hc
        exact hm (hset hnc (by simpa using hc))
      rcases split_append he with ⟨as, _, hevs⟩ | ⟨mid, hmid, rfl⟩
      · obtain ⟨rfl, hstage⟩ := subStep_first hs hevs hl hx hn
        refine ⟨sd', rfl, hcull hc ?_, hstage⟩
        rintro rfl
        cases as <;> simp at hevs
      · obtain ⟨_, ⟨⟩, hnc, hstage⟩ := hi pre x mid hmid hx hc hn fun e he => hl e (by simp [he])
        have hl' : ∀ e ∈ evs, LeftAlone e := fun e he => hl e (by simp [he])
        refine ⟨sd', rfl, hcull hnc ?_, subStep_stage hfail hs hl' hstage⟩
        rintro rfl
        exact hl' (.sv sd .wantcull) (by simp)
    | activate n _ hs _ _ =>
      rcases split_append he with ⟨as, _, hevs⟩ | ⟨mid, hmid, rfl⟩
      · -- an activation is no command
        have hm : Event.sv x (.control w .once) ∈ as ++ .sv x (.control w .once) :: post := by simp
        rw [← hevs] at hm
        cases hs with
        | down => simp at hm
        | start _ _ _ _ _ _ hf =>
          obtain ⟨_, z, now, towait, io, rfl, _⟩ := hf
          simp at hm
      · obtain ⟨_, h1, _⟩ := hi pre x mid hmid hx hc hn fun e he => hl e (by simp [he])
        simp at h1
    | cull _ hok =>
      rcases split_append he with ⟨as, _, hevs⟩ | ⟨mid, hmid, rfl⟩
      · have hm : Event.sv x (.control w .once) ∈ as ++ .sv x (.control w .once) :: post := by simp
        rw [← hevs] at hm
        simp at hm
      · obtain ⟨_, ⟨⟩, hnc, _⟩ := hi pre x mid hmid hx hc hn fun e he => hl e (by simp [he])
        simp [perpdSvdefCullok, hnc] at hok

end Step

/-- The continuations of an accepted 'o' in which the subservice is left alone
and its processes have exited. -/
structure Continued (k : Key) (w : Which) (p : Perpd) (pre : List Event) (x : Svdef)
    (post : List Event) : Prop where
  split : history k w p.sys.trace = pre ++ .sv x (.control w .once) :: post
  present : Present x w
  cull : x.has .cull = false
  idle : (x.sv w).pid = 0 ∨ (x.sv w).has .isreset = true
  alone : ∀ e ∈ post, LeftAlone e
  exited : ∀ sd ∈ entryOf k p.svdefs, (sd.sv w).pid = 0

/-- An 'o' to a subservice that is not running its start is honoured, with one
start and no other, if and only if the subservice has no process when it comes. -/
theorem once_started_once (cfg : Config) (inputs : List IterIn) (k : Key) (w : Which)
    (pre : List Event) (x : Svdef) (post : List Event)
    (h : Continued k w (perpdRun cfg inputs) pre x post) :
    StartedOnce post ↔ (x.sv w).pid = 0 := by
  obtain ⟨sd, hsd, _, hs⟩ := life_staged.run cfg inputs (fun _ _ _ _ => trivial) pre x post h.split
    h.present h.cull h.idle h.alone
  have h0 := h.exited sd hsd
  generalize hl : acts post = l at hs
  generalize hd : decide ((x.sv w).pid = 0) = down at hs
  unfold StartedOnce
  rw [hl]
  cases hs with
  | starting _ hp => omega
  | resetting _ hp => omega
  | pending _ hp => omega
  | done =>
    have hx : (x.sv w).pid = 0 := by simpa using hd
    simp [hx]
  | missed =>
    have hx : (x.sv w).pid ≠ 0 := by simpa using hd
    simp [hx]

/-- A service that is down is told to run once, and does. -/
def onceDown : List IterIn :=
  [connects (scans quiet [service "foo" 2 ⟨some 8, true, false, none, none⟩]) 9,
    { quiet with clients := [sends (ctlRequest (1, 2) 'o' 0)] },
    exits quiet [(100, 0)], exits quiet [(101, 0)]]

/-- The service when the command comes. -/
def downFoo : Svdef :=
  ⟨1, 2, 8, "foo".toList, ⟨1, 0⟩, 0x11, 0, 0, ⟨0, 0x10, .zero, .zero, 0⟩, .clear⟩

theorem once_started_once_down :
    StartedOnce ((history (1, 2) .main
      (perpdRun (plain [some 100, some 101]) onceDown).sys.trace).drop 2) ↔ downFoo.svMain.pid = 0 :=
  once_started_once (plain [some 100, some 101]) onceDown (1, 2) .main
    ((history (1, 2) .main (perpdRun (plain [some 100, some 101]) onceDown).sys.trace).take 1)
    downFoo _
    ⟨by decide +kernel, by decide, by decide, by decide, by decide +kernel, by decide +kernel⟩

/-- A service is told to run once while it runs its reset, and does not. -/
def onceReset : List IterIn :=
  [connects (scans quiet [service "foo" 2 ⟨some 8, false, false, none, none⟩]) 9,
    exits quiet [(100, 0)],
    { quiet with clients := [sends (ctlRequest (1, 2) 'o' 0)] }, exits quiet [(101, 0)]]

/-- The service when the command comes. -/
def resetFoo : Svdef :=
  ⟨1, 2, 8, "foo".toList, ⟨1, 0⟩, 0x01, 0, 0, ⟨101, 0x02, ⟨5, 0⟩, ⟨3, 0⟩, 0⟩, .clear⟩

theorem once_started_once_fails : ¬ ∀ (k : Key) (w : Which) (pre : List Event) (x : Svdef)
    (post : List Event),
    Continued k w (perpdRun (plain [some 100, some 101]) onceReset) pre x post →
      StartedOnce post := by
  intro h
  let t := history (1, 2) .main (perpdRun (plain [some 100, some 101]) onceReset).sys.trace
  have hs : StartedOnce (t.drop 5) := h (1, 2) .main (t.take 4) resetFoo (t.drop 5)
    ⟨by decide +kernel, by decide, by decide, by decide, by decide +kernel, by decide +kernel⟩
  exact absurd hs (by decide +kernel)

end Perp.PerpdOnce
