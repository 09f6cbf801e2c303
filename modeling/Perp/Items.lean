import Mathlib.Data.List.Basic
import Mathlib.Tactic.Common

set_option autoImplicit false

/-!
# Items joined by a separator

A string of items is read and performed item by item. What is done goes into a list; an
error ends the run.
-/
namespace Perp.Items

/-- Where a run stands with what it has done: it goes on; it has ended with an error; or it has
touched memory that is not its own. -/
inductive Run (ω ε : Type) where
  | on (done : List ω)
  | ended (done : List ω) (error : ε)
  | outside
  deriving DecidableEq, Repr

variable {α ω ε κ ι : Type}

def Run.andThen : Run ω ε → (List ω → Run ω ε) → Run ω ε
  | .on done, next => next done
  | .ended done error, _ => .ended done error
  | .outside, _ => .outside

/-- A value that is read, if it is there to be read -/
def Run.reading {β : Type} (x : Option β) (next : β → Run ω ε) : Run ω ε := x.elim .outside next

/-- The run as far as the kind of its error shows it -/
def Run.seen (kind : ε → κ) : Run ω ε → Run ω κ
  | .on done => .on done
  | .ended done error => .ended done (kind error)
  | .outside => .outside

theorem Run.seen_andThen (kind : ε → κ) (run : Run ω ε) (next : List ω → Run ω ε) :
    (run.andThen next).seen kind = (run.seen kind).andThen fun done => (next done).seen kind := by
  cases run <;> rfl

theorem Run.andThen_assoc (run : Run ω ε) (next last : List ω → Run ω ε) :
    (run.andThen next).andThen last = run.andThen fun done => (next done).andThen last := by
  cases run <;> rfl

theorem Run.andThen_on (run : Run ω ε) : run.andThen .on = run := by
  cases run <;> rfl

/-! ## What a string asks for -/

/-- Each item is performed, up to one that says nothing. -/
def wanted (parse : List α → Option ι) (exec : ι → List ω → Run ω κ) (bad : κ) :
    List (List α) → List ω → Run ω κ
  | [], done => .on done
  | item :: items, done =>
    (parse item).elim (.ended done bad) fun i => (exec i done).andThen (wanted parse exec bad items)

/-- The string is of items that say something, up to its end or a rest that is refused. -/
inductive Fits (sep : α) (parse : List α → Option ι) (Refused : List α → Prop) : List α → Prop where
  | last {item : List α} (hsep : sep ∉ item) (hitem : parse item ≠ none) :
      Fits sep parse Refused item
  | more {item rest : List α} (hsep : sep ∉ item) (hitem : parse item ≠ none)
      (hrest : Fits sep parse Refused rest) : Fits sep parse Refused (item ++ sep :: rest)
  | refused {rest : List α} (hrest : Refused rest) : Fits sep parse Refused rest

/-- A reader performs the items that say something, and refuses the rest at once where it is
to be refused. -/
structure Reads [BEq α] (sep : α) (parse : List α → Option ι) (exec : ι → List ω → Run ω κ) (bad : κ)
    (Refused : List α → Prop) (treat : List α → List ω → Run ω κ) : Prop where
  last : ∀ {item : List α} {i : ι}, sep ∉ item → parse item = some i → treat item = exec i
  more : ∀ {item : List α} {i : ι} (rest : List α), sep ∉ item → parse item = some i →
    ∀ done, treat (item ++ sep :: rest) done = (exec i done).andThen (treat rest)
  refused : ∀ {rest : List α}, Refused rest → ∀ done, treat rest done = .ended done bad ∧
    wanted parse exec bad (rest.splitOn sep) done = .ended done bad

theorem exists_item (sep : α) (s : List α) :
    ∃ item, sep ∉ item ∧ (s = item ∨ ∃ rest, s = item ++ sep :: rest) := by
  induction s with
  | nil => exact ⟨[], List.not_mem_nil, .inl rfl⟩
  | cons c s ih =>
    by_cases hc : c = sep
    · exact ⟨[], List.not_mem_nil, .inr ⟨s, by rw [hc]; rfl⟩⟩
    · obtain ⟨item, hsep, hs⟩ := ih
      have hnot : sep ∉ c :: item := by
        rw [List.mem_cons, not_or]
        exact ⟨fun h => hc h.symm, hsep⟩
      refine ⟨c :: item, hnot, ?_⟩
      rcases hs with rfl | ⟨rest, rfl⟩
      · exact .inl rfl
      · exact .inr ⟨rest, rfl⟩

section
variable [BEq α] [LawfulBEq α] {sep : α} {parse : List α → Option ι} {exec : ι → List ω → Run ω κ}
  {bad : κ} {Refused : List α → Prop} {treat : List α → List ω → Run ω κ} {item s : List α} {i : ι}

theorem wanted_last (h : sep ∉ item) (done : List ω) :
    wanted parse exec bad (item.splitOn sep) done =
      (parse item).elim (.ended done bad) fun i => exec i done := by
  rw [List.splitOn_eq_singleton h, wanted]
  cases parse item with
  | none => rfl
  | some i => exact Run.andThen_on (exec i done)

theorem wanted_more (h : sep ∉ item) (rest : List α) (done : List ω) :
    wanted parse exec bad ((item ++ sep :: rest).splitOn sep) done =
      (parse item).elim (.ended done bad) fun i =>
        (exec i done).andThen (wanted parse exec bad (rest.splitOn sep)) := by
  rw [List.splitOn_append_cons_self_of_not_mem h, wanted]

theorem wanted_bad (hsep : sep ∉ item) (hs : s = item ∨ ∃ rest, s = item ++ sep :: rest)
    (hitem : parse item = none) (done : List ω) :
    wanted parse exec bad (s.splitOn sep) done = .ended done bad := by
  rcases hs with rfl | ⟨rest, rfl⟩
  · rw [wanted_last hsep, hitem]
    rfl
  · rw [wanted_more hsep, hitem]
    rfl

/-- A string that fits is treated as it asks for. -/
theorem Reads.treat_eq (hreads : Reads sep parse exec bad Refused treat)
    (h : Fits sep parse Refused s) (done : List ω) :
    treat s done = wanted parse exec bad (s.splitOn sep) done := by
  induction h generalizing done with
  | @last item hsep hitem =>
    obtain ⟨i, hi⟩ := Option.ne_none_iff_exists'.mp hitem
    rw [hreads.last hsep hi, wanted_last hsep, hi]
    rfl
  | @more item rest hsep hitem _ ih =>
    obtain ⟨i, hi⟩ := Option.ne_none_iff_exists'.mp hitem
    rw [hreads.more rest hsep hi, wanted_more hsep, hi, Option.elim_some, funext ih]
  | refused hrest =>
    obtain ⟨htreat, hwanted⟩ := hreads.refused hrest done
    rw [htreat, hwanted]

/-- Where every item that says something can be performed, only a string that fits is treated
as it asks for, if an item that says nothing is passed over or refused. -/
theorem Reads.fits (hreads : Reads sep parse exec bad Refused treat)
    (hexec : ∀ i done, ∃ done', exec i done = .on done')
    (hbad : ∀ {item rest : List α}, sep ∉ item → parse item = none →
      rest = item ∨ (∃ tail, rest = item ++ sep :: tail) → ∀ done, treat rest done = .ended done bad →
      Refused rest)
    (done : List ω) (h : treat s done = wanted parse exec bad (s.splitOn sep) done) :
    Fits sep parse Refused s := by
  induction hlen : s.length using Nat.strongRecOn generalizing s done with
  | ind n ih =>
    obtain ⟨item, hsep, hs⟩ := exists_item sep s
    cases hitem : parse item with
    | none =>
      apply Fits.refused
      apply hbad hsep hitem hs done
      rw [h, wanted_bad hsep hs hitem]
    | some i =>
      have hne : parse item ≠ none := by
        rw [hitem]
        exact Option.some_ne_none i
      rcases hs with rfl | ⟨rest, rfl⟩
      · exact .last hsep hne
      · obtain ⟨done', hdone⟩ := hexec i done
        rw [hreads.more rest hsep hitem, wanted_more hsep, hitem, Option.elim_some, hdone] at h
        apply Fits.more hsep hne
        apply ih rest.length _ done' h rfl
        rw [← hlen, List.length_append, List.length_cons]
        omega

end

end Perp.Items
