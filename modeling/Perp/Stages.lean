import Mathlib.Data.List.Forall2
import Perp.Items

set_option autoImplicit false

/-!
# Programs in stages

The stages of a program follow each other, and the first that fails ends it. What a stage does
when it succeeds is said by a relation; one that fails has done some things of its own.
-/
namespace Perp.Stages
open Items (Run)

variable {σ ω ε : Type}

/-- What the stages do if all of them succeed -/
def Done (did : σ → List ω → Prop) (stages : List σ) (ds : List ω) : Prop :=
  ∃ parts, List.Forall₂ did stages parts ∧ ds = parts.flatten

/-- The stages before `s` have been done, some things of `s`, and nothing of those behind it. -/
structure CutAt (did : σ → List ω → Prop) (own : σ → ω → Prop) (stages : List σ) (s : σ)
    (ds : List ω) : Prop where
  split : ∃ before after, stages = before ++ s :: after ∧
    ∃ first part, Done did before first ∧ (∀ d ∈ part, own s d) ∧ ds = first ++ part

/-- A stage with what has been done before it -/
def Meets (did : σ → List ω → Prop) (own : σ → ω → Prop) (lost : σ → Prop) (s : σ)
    (step : List ω → Run ω ε) : Prop :=
  ∀ done, (∃ ds, step done = .on (done ++ ds) ∧ did s ds) ∨
    (∃ ds e, step done = .ended (done ++ ds) e ∧ ∀ d ∈ ds, own s d) ∨
      step done = .outside ∧ lost s

/-- The stages one after the other -/
def runAll (step : σ → List ω → Run ω ε) : List σ → List ω → Run ω ε
  | [], done => .on done
  | s :: stages, done => (step s done).andThen (runAll step stages)

/-- How the program has ended -/
def Ends (did : σ → List ω → Prop) (own : σ → ω → Prop) (lost : σ → Prop) (stages : List σ)
    (done : List ω) (r : Run ω ε) : Prop :=
  (∃ ds, r = .on (done ++ ds) ∧ Done did stages ds) ∨
    (∃ s ds e, r = .ended (done ++ ds) e ∧ CutAt did own stages s ds) ∨
      r = .outside ∧ ∃ s ∈ stages, lost s

variable {did : σ → List ω → Prop} {own : σ → ω → Prop} {lost : σ → Prop} {s : σ} {stages : List σ}
  {ds ds' : List ω}

theorem done_nil : Done did [] [] := ⟨[], .nil, rfl⟩

theorem Done.cons (h : did s ds) (h' : Done did stages ds') :
    Done did (s :: stages) (ds ++ ds') := by
  obtain ⟨parts, hparts, rfl⟩ := h'
  exact ⟨ds :: parts, .cons h hparts, rfl⟩

theorem CutAt.cons {t : σ} (h : did s ds) (h' : CutAt did own stages t ds') :
    CutAt did own (s :: stages) t (ds ++ ds') := by
  obtain ⟨before, after, rfl, first, part, hfirst, hpart, rfl⟩ := h'.split
  exact ⟨s :: before, after, rfl, ds ++ first, part, hfirst.cons h, hpart,
    (List.append_assoc ds first part).symm⟩

/-- The rule for a program in stages -/
theorem runAll_ends {step : σ → List ω → Run ω ε}
    (hstep : ∀ s ∈ stages, Meets did own lost s (step s)) (done : List ω) :
    Ends did own lost stages done (runAll step stages done) := by
  induction stages generalizing done with
  | nil => exact .inl ⟨[], by rw [runAll, List.append_nil], done_nil⟩
  | cons s stages ih =>
    have hrest := ih fun t ht => hstep t (List.mem_cons_of_mem s ht)
    rw [runAll]
    rcases hstep s List.mem_cons_self done with ⟨ds, hds, hdid⟩ | ⟨ds, e, hds, hown⟩ | ⟨hout, hlost⟩
    · rw [hds, Run.andThen]
      rcases hrest (done ++ ds) with
        ⟨ds', hds', hdone⟩ | ⟨t, ds', e, hds', hcut⟩ | ⟨hout, t, ht, hlost⟩
      · exact .inl ⟨ds ++ ds', by rw [hds', List.append_assoc], hdone.cons hdid⟩
      · exact .inr (.inl ⟨t, ds ++ ds', e, by rw [hds', List.append_assoc], hcut.cons hdid⟩)
      · exact .inr (.inr ⟨hout, t, List.mem_cons_of_mem s ht, hlost⟩)
    · rw [hds, Run.andThen]
      exact .inr (.inl ⟨s, ds, e, rfl, [], stages, rfl, [], ds, done_nil, hown, rfl⟩)
    · rw [hout, Run.andThen]
      exact .inr (.inr ⟨rfl, s, List.mem_cons_self, hlost⟩)

end Perp.Stages
