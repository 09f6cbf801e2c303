import Mathlib.Algebra.Order.Ring.Nat
import Perp.Cstr
import Perp.Glob

set_option autoImplicit false

/-!
# Matching names

`cstr_match()` and `cstr_matchi()`: a pattern with stars is matched without recursion,
from marks in the pattern and in the string.
-/
namespace Perp.CstrMatch
open Cstr Glob

/-! ## The matcher -/

/-- `CHAR_CMP(*pattern, *string) || (*pattern == '?')`. A pattern that has come to its end
stands at its NUL. -/
def accepts (cmp : UInt8 → UInt8 → Bool) (pattern : List UInt8) (c : UInt8) : Bool :=
  cmp (pattern.headD 0) c || pattern.headD 0 == 63

/-- What comes before the first asterisk; none is a mismatch. -/
def spinOff (cmp : UInt8 → UInt8 → Bool) : List UInt8 → List UInt8 → Option (List UInt8 × List UInt8)
  | pattern, [] => some (pattern, [])
  | pattern, c :: string =>
    if pattern.headD 0 = 42 then some (pattern, c :: string)
    else if accepts cmp pattern c then spinOff cmp pattern.tail string
    else none

/-- The asterisks that the pattern begins with are passed. -/
def skipStars (pattern : List UInt8) : List UInt8 := pattern.dropWhile (· == 42)

/-- The scan through the string, with the marks `p` and `s`: the return of the matcher -/
def scan (cmp : UInt8 → UInt8 → Bool) : ℕ → List UInt8 → List UInt8 → List UInt8 → List UInt8 →
    Option ℤ
  | 0, _, _, _, _ => none
  | _ + 1, pattern, [], _, _ => some (if skipStars pattern = [] then 1 else 0)
  | fuel + 1, pattern, c :: string, p, s =>
    if pattern.headD 0 = 42 then
      let pattern := skipStars pattern
      if pattern = [] then some 1 else scan cmp fuel pattern (c :: string) pattern string
    else if accepts cmp pattern c then scan cmp fuel pattern.tail string p s
    else if string = [] then some 0
    else scan cmp fuel p s p s.tail

/-- The passes of the scan are bounded by the places of the marks. -/
def passes (pattern string : List UInt8) : ℕ :=
  (string.length + 1) * (pattern.length + string.length + 1) + 1

def matchWith (cmp : UInt8 → UInt8 → Bool) (pattern string : List UInt8) : Option ℤ :=
  match spinOff cmp pattern string with
  | none => some 0
  | some (pattern, string) => scan cmp (passes pattern string) pattern string [] []

def cstrMatch (pattern string : List UInt8) : Option ℤ := matchWith (· == ·) pattern string

/-- `tolower()` of the C locale -/
def tolower (c : UInt8) : UInt8 := if 65 ≤ c ∧ c ≤ 90 then c + 32 else c

def cstrMatchi (pattern string : List UInt8) : Option ℤ :=
  matchWith (tolower · == tolower ·) pattern string

/-! ## What a pattern says -/

def sign (c : UInt8) : Sign UInt8 := if c = 42 then .many else if c = 63 then .one else .letter c

/-- The whole string is in the language of the pattern. -/
def InLanguage (cmp : UInt8 → UInt8 → Bool) (pattern string : List UInt8) : Prop :=
  Matches (fun a b => cmp a b = true) (pattern.map sign) string

/-- What the matcher decides: the string is in the language, and a pattern that does not
end in a star would not have matched the string without its last letter. -/
def Right {α β : Type} (R : α → β → Prop) (p : List (Sign α)) (s : List β) : Prop :=
  Matches R p s ∧ (s = [] ∨ p.getLast? = some .many ∨ ¬ Matches R p s.dropLast)

/-- The return says whether `P` holds. -/
def Answers (r : Option ℤ) (P : Prop) : Prop := r = some 1 ∧ P ∨ r = some 0 ∧ ¬ P

theorem Answers.congr {r : Option ℤ} {P Q : Prop} (h : Answers r P) (hPQ : P ↔ Q) : Answers r Q := by
  rwa [Answers, ← hPQ]

section signs
variable {α β : Type} {R : α → β → Prop} {p q b : List (Sign α)} {s w : List β} {x : β} {c : Sign α}

theorem right_block (hb : Block b) (hw : List.Forall₂ (Sign.Fits R) b w) (hs : s ≠ []) :
    Right R (.many :: (b ++ .many :: q)) (w ++ s) ↔ Right R (.many :: q) s := by
  have hlast : (.many :: (b ++ .many :: q)).getLast? = (Sign.many :: q : List (Sign α)).getLast? := by
    rw [← List.cons_append, List.getLast?_append_of_ne_nil _ (List.cons_ne_nil _ q)]
  have hne : w ++ s ≠ [] := List.append_ne_nil_of_right_ne_nil w hs
  rw [Right, Right, hlast, matches_many_block hb hw, List.dropLast_append_of_ne_nil hs,
    matches_many_block hb hw]
  simp only [hne, hs, false_or]

theorem right_next (hs : s ≠ []) (h : ¬ Matches R p (x :: s))
    (h' : ¬ Matches R p (x :: s.dropLast)) : Right R (.many :: p) (x :: s) ↔ Right R (.many :: p) s := by
  rw [Right, Right, List.dropLast_cons_of_ne_nil hs, matches_many_next h, matches_many_next h']
  simp only [hs, List.cons_ne_nil, false_or]

theorem right_many_many : Right R (.many :: .many :: p) s ↔ Right R (.many :: p) s := by
  rw [Right, Right, matches_many_many, matches_many_many, List.getLast?_cons_cons]

theorem right_many : Right R [.many] s := ⟨matches_many_nil, .inr (.inl rfl)⟩

theorem right_cons (hc : c ≠ .many) (hx : c.Fits R x) :
    Right R (c :: p) (x :: s) ↔ Right R p s := by
  have hlast : p = [] ∨ (c :: p).getLast? = p.getLast? := by
    cases p with
    | nil => exact .inl rfl
    | cons d p => exact .inr List.getLast?_cons_cons
  by_cases hs : s = []
  · subst hs
    simp [Right, matches_cons_cons hc, hx, not_matches_cons_nil hc]
  · rw [Right, Right, List.dropLast_cons_of_ne_nil hs, matches_cons_cons hc, matches_cons_cons hc]
    simp only [hx, true_and, hs, List.cons_ne_nil, false_or]
    rcases hlast with rfl | hlast
    · simp [hs]
    · rw [hlast]

theorem not_matches_after (hb : Block b) (hw : List.Forall₂ (Sign.Fits R) b w)
    (hc : ∀ c ∈ p.head?, c ≠ .many ∧ ¬ c.Fits R x) : ¬ Matches R (b ++ p) (w ++ x :: s) := by
  rw [matches_block_append hb hw]
  cases p with
  | nil => exact List.cons_ne_nil x s
  | cons c p =>
    obtain ⟨hmany, hfit⟩ := hc c rfl
    rw [matches_cons_cons hmany]
    exact fun h => hfit h.1

theorem not_right_last (hb : Block b) (hw : List.Forall₂ (Sign.Fits R) b w)
    (hc : ∀ c ∈ p.head?, c ≠ .many ∧ ¬ c.Fits R x) (hne : b ++ p ≠ []) :
    ¬ Right R (.many :: (b ++ p)) (w ++ [x]) := by
  rintro ⟨hm, hlate⟩
  cases p with
  | nil =>
    -- the block is all there is, and it fits before the last letter
    rw [List.append_nil] at hne hlate
    have hlast : (.many :: b).getLast? ≠ some .many := by
      intro h
      rw [List.getLast?_cons_of_ne_nil hne] at h
      exact hb (List.mem_of_getLast? h)
    have hfits := (@matches_block_append _ _ R b [] w [] hb hw).mpr rfl
    rw [List.append_nil, List.append_nil] at hfits
    rw [List.dropLast_concat] at hlate
    rcases hlate with h | h | h
    · simp at h
    · exact hlast h
    · exact h (matches_many_self hfits)
  | cons c p =>
    -- further on there is too little left for the block and the sign after it
    have hmany := (hc c rfl).1
    have hnot := @not_matches_after _ _ R (c :: p) b [] w x hb hw hc
    have hblock : Block (b ++ [c]) := by
      intro h
      rcases List.mem_append.mp h with h | h
      · exact hb h
      · exact hmany (List.mem_singleton.mp h).symm
    obtain ⟨u, v, huv, hv⟩ := hm
    cases u with
    | nil => exact hnot (huv ▸ hv)
    | cons y u =>
      have hle := matches_length hv
      have hlen := congrArg List.length huv
      rw [← List.singleton_append, ← List.append_assoc, List.countP_append, hblock.countP,
        List.length_append] at hle
      simp only [List.length_append, List.length_cons, List.length_nil] at hle hlen
      have hbw := hw.length_eq
      omega

theorem right_end (hb : Block b) (hw : List.Forall₂ (Sign.Fits R) b w) (hne : b ≠ []) :
    Right R (.many :: b) w := by
  have hfits := (@matches_block_append _ _ R b [] w [] hb hw).mpr rfl
  rw [List.append_nil, List.append_nil] at hfits
  refine ⟨matches_many_self hfits, .inr (.inr fun h => ?_)⟩
  have hle := matches_length h
  have hlen := hw.length_eq
  have hpos := List.length_pos_iff.mpr hne
  rw [List.countP_cons_of_neg (by simp [Sign.takes]), hb.countP, List.length_dropLast] at hle
  omega

theorem not_matches_end (hb : Block b) (hw : List.Forall₂ (Sign.Fits R) b w) (hc : c ≠ .many)
    (hmem : c ∈ p) : ¬ Matches R (.many :: (b ++ p)) w := by
  intro h
  have hle := matches_length h
  have hlen := hw.length_eq
  have htakes : c.takes = true := by
    cases c with
    | many => exact absurd rfl hc
    | one => rfl
    | letter a => rfl
  have hpos : 0 < p.countP Sign.takes := List.countP_pos_iff.mpr ⟨c, hmem, htakes⟩
  rw [List.countP_cons_of_neg (by simp [Sign.takes]), List.countP_append, hb.countP] at hle
  omega

/-- A mismatch before the last letter: the next substring is taken. -/
theorem right_reset (hb : Block b) (hw : List.Forall₂ (Sign.Fits R) b w)
    (hc : ∀ c ∈ p.head?, c ≠ .many ∧ ¬ c.Fits R x) (hs : s ≠ []) :
    Right R (.many :: (b ++ p)) (w ++ x :: s) ↔
      Right R (.many :: (b ++ p)) (w ++ x :: s).tail := by
  have hnot : ∀ t, ¬ Matches R (b ++ p) (w ++ x :: t) := fun t => not_matches_after hb hw hc
  cases w with
  | nil => exact right_next hs (hnot s) (hnot s.dropLast)
  | cons y w =>
    have hlast : (w ++ x :: s).dropLast = w ++ x :: s.dropLast := by
      rw [List.dropLast_append_of_ne_nil (List.cons_ne_nil x s), List.dropLast_cons_of_ne_nil hs]
    have hlate : ¬ Matches R (b ++ p) (y :: (w ++ x :: s).dropLast) := by
      rw [hlast]
      exact hnot s.dropLast
    exact right_next (by simp) (hnot s) hlate

end signs

/-! ## The matcher decides that -/

section bytes
variable {cmp : UInt8 → UInt8 → Bool} {pattern string p b w u : List UInt8} {c d : UInt8}

/-- The letters of a string that a letter of the pattern is compared with -/
abbrev Like (cmp : UInt8 → UInt8 → Bool) (a b : UInt8) : Prop := cmp a b = true

theorem sign_star : sign 42 = .many := rfl

theorem sign_ne_many (h : d ≠ 42) : sign d ≠ .many := by
  rw [sign, if_neg h]
  split <;> simp

theorem block_map (h : 42 ∉ b) : Block (b.map sign) := by
  intro hm
  obtain ⟨d, hd, heq⟩ := List.mem_map.mp hm
  by_cases h42 : d = 42
  · exact h (h42 ▸ hd)
  · exact sign_ne_many h42 heq

theorem accepts_cons (h : d ≠ 42) :
    accepts cmp (d :: pattern) c = true ↔ (sign d).Fits (Like cmp) c := by
  by_cases h63 : d = 63
  · simp [accepts, sign, h63, Sign.Fits]
  · simp [accepts, sign, h, h63, Sign.Fits]

theorem accepts_nil (hz : ∀ c, c ≠ 0 → cmp 0 c = false) (hc : c ≠ 0) : accepts cmp [] c = false := by
  simp [accepts, hz c hc]

theorem skipStars_star (pattern : List UInt8) : skipStars (42 :: pattern) = skipStars pattern := rfl

theorem skipStars_self (h : pattern.headD 0 ≠ 42) : skipStars pattern = pattern := by
  cases pattern with
  | nil => rfl
  | cons d pattern => exact List.dropWhile_cons_of_neg (by simpa using h)

theorem skipStars_length (pattern : List UInt8) : (skipStars pattern).length ≤ pattern.length :=
  (List.dropWhile_suffix _).length_le

theorem right_skipStars {R : UInt8 → UInt8 → Prop} (pattern string : List UInt8) :
    Right R (.many :: pattern.map sign) string ↔
      Right R (.many :: (skipStars pattern).map sign) string := by
  induction pattern with
  | nil => rfl
  | cons d pattern ih =>
    by_cases h : d = 42
    · rw [h, skipStars_star, List.map_cons, sign_star, right_many_many, ih]
    · rw [skipStars_self (by simpa using h)]

theorem exists_of_skipStars (h : skipStars pattern ≠ []) : ∃ d ∈ pattern, d ≠ 42 := by
  induction pattern with
  | nil => exact absurd rfl h
  | cons d pattern ih =>
    by_cases h42 : d = 42
    · rw [h42, skipStars_star] at h
      obtain ⟨e, he, hne⟩ := ih h
      exact ⟨e, List.mem_cons_of_mem d he, hne⟩
    · exact ⟨d, List.mem_cons_self, h42⟩

theorem star_of_skipStars (h : skipStars (d :: pattern) = []) :
    d = 42 ∧ skipStars pattern = [] := by
  by_cases h42 : d = 42
  · rw [h42, skipStars_star] at h
    exact ⟨h42, h⟩
  · rw [skipStars_self (by simpa using h42)] at h
    exact absurd h (List.cons_ne_nil d pattern)

theorem getLast_of_skipStars (h : skipStars pattern = []) :
    (Sign.many :: pattern.map sign).getLast? = some .many := by
  induction pattern with
  | nil => rfl
  | cons d pattern ih =>
    obtain ⟨rfl, hrest⟩ := star_of_skipStars h
    rw [List.map_cons, List.getLast?_cons_cons]
    exact ih hrest

theorem matches_empty (pattern : List UInt8) :
    Matches (Like cmp) (pattern.map sign) [] ↔ skipStars pattern = [] := by
  induction pattern with
  | nil => exact iff_of_true rfl rfl
  | cons d pattern ih =>
    by_cases h : d = 42
    · subst h
      rw [skipStars_star, ← ih, List.map_cons, sign_star]
      constructor
      · rintro ⟨u, v, huv, hv⟩
        obtain ⟨-, rfl⟩ := List.append_eq_nil_iff.mp huv.symm
        exact hv
      · exact matches_many_self
    · apply iff_of_false (not_matches_cons_nil (sign_ne_many h))
      exact fun hrest => h (star_of_skipStars hrest).1

/-- At the end of the string the matcher looks at what is left of the pattern. -/
theorem right_end_iff (hb : 42 ∉ b) (hw : List.Forall₂ (Sign.Fits (Like cmp)) (b.map sign) w)
    (hne : b ++ pattern ≠ []) :
    Right (Like cmp) (.many :: (b ++ pattern).map sign) w ↔ skipStars pattern = [] := by
  have hblock := block_map hb
  rw [List.map_append]
  constructor
  · intro h
    by_contra hrest
    obtain ⟨d, hd, h42⟩ := exists_of_skipStars hrest
    exact not_matches_end hblock hw (sign_ne_many h42) (List.mem_map_of_mem hd) h.1
  · intro hrest
    cases pattern with
    | nil =>
      rw [List.map_nil, List.append_nil]
      apply right_end hblock hw
      simpa using hne
    | cons d pattern =>
      obtain ⟨rfl, hrest⟩ := star_of_skipStars hrest
      have hempty : Matches (Like cmp) (.many :: pattern.map sign) [] :=
        matches_many_self ((matches_empty pattern).mpr hrest)
      constructor
      · rw [← List.append_nil w]
        exact (matches_many_block hblock hw).mpr hempty
      · rw [← List.cons_append, List.map_cons, List.getLast?_append_of_ne_nil _ (List.cons_ne_nil _ _)]
        exact .inr (.inl (getLast_of_skipStars hrest))

theorem not_fits_head (h42 : pattern.headD 0 ≠ 42) (hacc : accepts cmp pattern c ≠ true) :
    ∀ e ∈ (pattern.map sign).head?, e ≠ .many ∧ ¬ e.Fits (Like cmp) c := by
  cases pattern with
  | nil => exact fun e he => absurd he (Option.not_mem_none e)
  | cons d pattern =>
    intro e he
    obtain rfl := Option.some.inj he
    exact ⟨sign_ne_many h42, fun h => hacc ((accepts_cons h42).mpr h)⟩

theorem cons_of_star (h : pattern.headD 0 = 42) : ∃ rest, pattern = 42 :: rest := by
  cases pattern with
  | nil => exact absurd h (by decide)
  | cons d rest => exact ⟨rest, congrArg (· :: rest) h⟩

theorem right_star {R : UInt8 → UInt8 → Prop} (hb : 42 ∉ b)
    (hw : List.Forall₂ (Sign.Fits R) (b.map sign) w) (hs : string ≠ []) :
    Right R (.many :: (b ++ 42 :: pattern).map sign) (w ++ string) ↔
      Right R (.many :: (skipStars pattern).map sign) string := by
  rw [← right_skipStars, List.map_append, List.map_cons, sign_star]
  exact right_block (block_map hb) hw hs

/-- The scan, from marks `p` and `u.tail`: the block `b` of the pattern has taken `w`. -/
theorem scan_spec (hz : ∀ c, c ≠ 0 → cmp 0 c = false) {fuel K : ℕ} (hp : p = b ++ pattern)
    (hb : 42 ∉ b) (hw : List.Forall₂ (Sign.Fits (Like cmp)) (b.map sign) w) (hu : u = w ++ string)
    (hne : p ≠ []) (hnul : 0 ∉ u) (hK : p.length + u.length + 1 ≤ K)
    (hfuel : u.length * K + string.length + pattern.length < fuel) :
    Answers (scan cmp fuel pattern string p u.tail) (Right (Like cmp) (.many :: p.map sign) u) := by
  induction fuel generalizing pattern string p u b w with
  | zero => omega
  | succ fuel ih =>
    subst hp hu
    cases string with
    | nil =>
      rw [List.append_nil, scan]
      have hend := right_end_iff hb hw hne
      by_cases hrest : skipStars pattern = []
      · exact .inl ⟨by rw [if_pos hrest], hend.mpr hrest⟩
      · exact .inr ⟨by rw [if_neg hrest], fun h => hrest (hend.mp h)⟩
    | cons c string =>
      have hblock := block_map hb
      have hlenu : (w ++ c :: string).length = w.length + string.length + 1 := by
        rw [List.length_append, List.length_cons]
        omega
      have hlenp : (b ++ pattern).length = b.length + pattern.length := List.length_append
      have hc0 : c ≠ 0 := fun h => hnul (by simp [h])
      simp only [scan]
      split_ifs with h42 hrest hacc hlast
      · -- a final asterisk
        obtain ⟨rest, rfl⟩ := cons_of_star h42
        rw [skipStars_star] at hrest
        apply Or.inl
        rw [right_star hb hw (List.cons_ne_nil c string), hrest]
        exact ⟨rfl, right_many⟩
      · -- the asterisk ends the block, and the marks are set here
        obtain ⟨rest, rfl⟩ := cons_of_star h42
        rw [skipStars_star] at hrest ⊢
        rw [right_star hb hw (List.cons_ne_nil c string)]
        have hle := skipStars_length rest
        have hmul : (string.length + 1) * K ≤ (w ++ c :: string).length * K :=
          Nat.mul_le_mul_right K (by omega)
        rw [List.length_cons] at hlenp hfuel
        have hnil : ∀ l : List UInt8, l = [] ++ l := fun l => (List.nil_append l).symm
        apply ih (b := []) (w := []) (u := c :: string) (hnil _) (by simp) .nil (hnil _) hrest
        · exact fun h => hnul (List.mem_append_right w h)
        · rw [List.length_cons]
          omega
        · rw [List.length_cons] at hfuel ⊢
          omega
      · cases pattern with
        | nil =>
          rw [accepts_nil hz hc0] at hacc
          exact absurd hacc Bool.false_ne_true
        | cons d pattern =>
          have hd : d ≠ 42 := by simpa using h42
          have hfit := (accepts_cons hd).mp hacc
          rw [List.length_cons, List.length_cons] at hfuel
          apply ih (b := b ++ [d]) (w := w ++ [c]) (by simp) _ _ (by simp) hne hnul hK (by
            rw [List.tail_cons]
            omega)
          · simp [hb, Ne.symm hd]
          · rw [List.map_append]
            exact List.rel_append hw (.cons hfit .nil)
      · subst hlast
        rw [List.map_append]
        apply Or.inr
        exact ⟨rfl, not_right_last hblock hw (not_fits_head h42 hacc) (by simpa using hne)⟩
      · -- the next substring
        have hreset := right_reset hblock hw (not_fits_head h42 hacc) hlast
        rw [← List.map_append] at hreset
        have htail : (w ++ c :: string).tail.length + 1 = (w ++ c :: string).length := by
          rw [List.length_tail, hlenu]
          omega
        have hmul : (w ++ c :: string).length * K = (w ++ c :: string).tail.length * K + K := by
          rw [← htail, Nat.add_mul, Nat.one_mul]
        have hnil : ∀ l : List UInt8, l = [] ++ l := fun l => (List.nil_append l).symm
        apply Answers.congr _ hreset.symm
        apply ih (b := []) (w := []) (hnil _) (by simp) .nil (hnil _) hne
        · exact fun h => hnul (List.mem_of_mem_tail h)
        · omega
        · omega

/-- What comes before the first asterisk neither helps nor harms. -/
theorem spinOff_spec (hz : ∀ c, c ≠ 0 → cmp 0 c = false) (pattern string : List UInt8)
    (hnul : 0 ∉ string) :
    spinOff cmp pattern string = none ∧ ¬ Right (Like cmp) (pattern.map sign) string ∨
      ∃ rest left, spinOff cmp pattern string = some (rest, left) ∧ left <:+ string ∧
        (left = [] ∨ rest.headD 0 = 42) ∧
        (Right (Like cmp) (pattern.map sign) string ↔ Right (Like cmp) (rest.map sign) left) := by
  induction string generalizing pattern with
  | nil => exact .inr ⟨pattern, [], rfl, List.suffix_refl [], .inl rfl, Iff.rfl⟩
  | cons c string ih =>
    have hc0 : c ≠ 0 := fun h => hnul (by simp [h])
    rw [spinOff]
    split_ifs with h42 hacc
    · exact .inr ⟨pattern, c :: string, rfl, List.suffix_refl _, .inr h42, Iff.rfl⟩
    · cases pattern with
      | nil =>
        rw [accepts_nil hz hc0] at hacc
        exact absurd hacc Bool.false_ne_true
      | cons d pattern =>
        have hd : d ≠ 42 := by simpa using h42
        have hright : Right (Like cmp) ((d :: pattern).map sign) (c :: string) ↔
            Right (Like cmp) (pattern.map sign) string :=
          right_cons (sign_ne_many hd) ((accepts_cons hd).mp hacc)
        rw [hright]
        rcases ih pattern (fun h => hnul (List.mem_cons_of_mem c h)) with h | h
        · exact .inl h
        · obtain ⟨rest, left, heq, hsuff, hend, hiff⟩ := h
          exact .inr ⟨rest, left, heq, hsuff.trans (List.suffix_cons c string), hend, hiff⟩
    · apply Or.inl
      have hnot : ¬ Matches (Like cmp) (pattern.map sign) (c :: string) := by
        have hafter := not_fits_head h42 hacc
        exact not_matches_after (b := []) (w := []) (by simp [Block]) .nil hafter
      exact ⟨rfl, fun h => hnot h.1⟩

/-- The scan, from where the first asterisk stands -/
theorem scan_start (hz : ∀ c, c ≠ 0 → cmp 0 c = false) (hnul : 0 ∉ string)
    (hstar : string = [] ∨ pattern.headD 0 = 42) :
    Answers (scan cmp (passes pattern string) pattern string [] [])
      (Right (Like cmp) (pattern.map sign) string) := by
  rw [passes]
  cases string with
  | nil =>
    rw [scan, Right, matches_empty]
    by_cases hrest : skipStars pattern = []
    · exact .inl ⟨congrArg some (if_pos hrest), hrest, .inl rfl⟩
    · exact .inr ⟨congrArg some (if_neg hrest), fun h => hrest h.1⟩
  | cons c string =>
    have h42 : pattern.headD 0 = 42 := hstar.resolve_left (List.cons_ne_nil c string)
    obtain ⟨rest, rfl⟩ := cons_of_star h42
    simp only [scan]
    rw [if_pos h42, skipStars_star, List.map_cons, sign_star, right_skipStars]
    split_ifs with hrest
    · rw [hrest]
      exact .inl ⟨rfl, right_many⟩
    · have hnil : ∀ l : List UInt8, l = [] ++ l := fun l => (List.nil_append l).symm
      have hle := skipStars_length rest
      have hmul : ∀ K, (string.length + 1 + 1) * K = (string.length + 1) * K + K :=
        fun K => Nat.succ_mul (string.length + 1) K
      apply scan_spec (K := rest.length + string.length + 3) (b := []) (w := [])
        (u := c :: string) hz (hnil _) (by simp) .nil (hnil _) hrest hnul
      · rw [List.length_cons]
        omega
      · rw [List.length_cons, List.length_cons]
        have hK := hmul (rest.length + string.length + 3)
        have heq : rest.length + 1 + (string.length + 1) + 1 = rest.length + string.length + 3 := by
          omega
        rw [heq]
        omega

/-- The matcher returns, with 1 where the string is in the language and the short cut does
no harm. -/
theorem matchWith_spec (hz : ∀ c, c ≠ 0 → cmp 0 c = false) (pattern string : List UInt8)
    (hnul : 0 ∉ string) :
    Answers (matchWith cmp pattern string) (Right (Like cmp) (pattern.map sign) string) := by
  rw [matchWith]
  rcases spinOff_spec hz pattern string hnul with ⟨heq, hnot⟩ | h
  · rw [heq]
    exact .inr ⟨rfl, hnot⟩
  · obtain ⟨rest, left, heq, hsuff, hend, hiff⟩ := h
    rw [heq, hiff]
    exact scan_start hz (fun h => hnul (hsuff.subset h)) hend

end bytes

theorem beq_nul {c : UInt8} (h : c ≠ 0) : ((0 : UInt8) == c) = false := by
  simpa using Ne.symm h

theorem tolower_nul {c : UInt8} (h : c ≠ 0) : (tolower 0 == tolower c) = false := by
  have hne : tolower c ≠ 0 := by
    rw [tolower]
    split_ifs with hup
    · intro hz
      have hnat := congrArg UInt8.toNat hz
      have hlo := UInt8.le_iff_toNat_le.mp hup.1
      have hhi := UInt8.le_iff_toNat_le.mp hup.2
      simp only [UInt8.toNat_add, UInt8.toNat_ofNat] at hnat hlo hhi
      omega
    · exact h
  simpa [tolower] using Ne.symm hne

/-! ## Strings -/

/-- The short cut at the last character does no harm. -/
def CutHarmless (cmp : UInt8 → UInt8 → Bool) (pattern string : List UInt8) : Prop :=
  pattern.getLast? = some 42 ∨ string = [] ∨ ¬ InLanguage cmp pattern string ∨
    ¬ InLanguage cmp pattern string.dropLast

theorem getLast_sign (pattern : List UInt8) :
    (pattern.map sign).getLast? = some .many ↔ pattern.getLast? = some 42 := by
  rw [List.getLast?_map, Option.map_eq_some_iff]
  constructor
  · rintro ⟨d, hd, hmany⟩
    by_cases h42 : d = 42
    · rw [hd, h42]
    · exact absurd hmany (sign_ne_many h42)
  · exact fun h => ⟨42, h, sign_star⟩

theorem right_iff (cmp : UInt8 → UInt8 → Bool) (pattern string : List UInt8) :
    (Right (Like cmp) (pattern.map sign) string ↔ InLanguage cmp pattern string) ↔
      CutHarmless cmp pattern string := by
  rw [Right, getLast_sign, CutHarmless, InLanguage, InLanguage]
  tauto

theorem Answers.iff {r : Option ℤ} {P Q : Prop} (h : Answers r P) : Answers r Q ↔ (P ↔ Q) := by
  constructor
  · intro hQ
    rcases h with ⟨hr, hP⟩ | ⟨hr, hP⟩
    · rcases hQ with ⟨-, hQ⟩ | ⟨hr', -⟩
      · exact iff_of_true hP hQ
      · rw [hr] at hr'
        exact absurd hr' (by decide)
    · rcases hQ with ⟨hr', -⟩ | ⟨-, hQ⟩
      · rw [hr] at hr'
        exact absurd hr' (by decide)
      · exact iff_of_false hP hQ
  · exact h.congr

theorem Answers.returns {r : Option ℤ} {P : Prop} (h : Answers r P) : r ≠ none := by
  rcases h with ⟨hr, -⟩ | ⟨hr, -⟩ <;> simp [hr]

/-- Both matchers return on every pattern and string, and say whether the string is in the
language exactly where the short cut does no harm. -/
theorem cstrMatch_language (pattern string : Text) :
    (cstrMatch pattern.bytes string.bytes ≠ none ∧ cstrMatchi pattern.bytes string.bytes ≠ none) ∧
      (Answers (cstrMatch pattern.bytes string.bytes)
          (InLanguage (· == ·) pattern.bytes string.bytes) ↔
        CutHarmless (· == ·) pattern.bytes string.bytes) ∧
      (Answers (cstrMatchi pattern.bytes string.bytes)
          (InLanguage (tolower · == tolower ·) pattern.bytes string.bytes) ↔
        CutHarmless (tolower · == tolower ·) pattern.bytes string.bytes) := by
  have hmatch := matchWith_spec (fun _ => beq_nul) pattern.bytes string.bytes string.nul
  have hmatchi : Answers (matchWith (tolower · == tolower ·) pattern.bytes string.bytes)
      (Right (Like (tolower · == tolower ·)) (pattern.bytes.map sign) string.bytes) :=
    matchWith_spec (fun _ => tolower_nul) pattern.bytes string.bytes string.nul
  refine ⟨⟨hmatch.returns, hmatchi.returns⟩, ?_, ?_⟩
  · rw [← right_iff]
    exact hmatch.iff
  · rw [← right_iff]
    exact hmatchi.iff

/-- `*a` is not found to match `aa`. -/
theorem cstrMatch_refuses_aa : ¬ ∀ pattern string : Text,
    (cstrMatch pattern.bytes string.bytes = some 1 ↔
      InLanguage (· == ·) pattern.bytes string.bytes) := by
  intro h
  have hlang : InLanguage (· == ·) [42, 97] [97, 97] := ⟨[97], [97], rfl, 97, [], rfl, rfl, rfl⟩
  have hret := (h ⟨[42, 97], by decide⟩ ⟨[97, 97], by decide⟩).mpr hlang
  exact absurd hret (by decide)

end Perp.CstrMatch
