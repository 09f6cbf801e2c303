import Perp.Cstr
import Perp.Inplace
import Perp.PerplsPanel
import Perp.RunlimitFile

set_option autoImplicit false

/-!
# The colors of perpls

`captab_lookup()` and `captab_init()`, and the entries `key=value` of the string that they read.
-/
namespace Perp.PerplsColors
open Cstr (Text cstrNcmp)
open Inplace (store storeAll)
open PerplsPanel (Cap)
open RunlimitFile (text text_eq)

/-! ## The functions -/

/-- `while((*d != '\0') && (*d != stop)) ++d;`, on the memory from a pointer on -/
def skip (stop : UInt8) : List UInt8 → Option (List UInt8)
  | [] => none
  | c :: d => if c ≠ 0 ∧ c ≠ stop then skip stop d else some (c :: d)

/-- The loop of `captab_lookup()`, with the turns that are left -/
def lookupLoop (key : List UInt8) : ℕ → List UInt8 → Option (Option (List UInt8 × ℕ))
  | 0, _ => none
  | turns + 1, d0 =>
    d0.head?.bind fun c =>
      if c = 0 then some none
      else (skip 61 d0).bind fun d =>
        if d.head? = some 0 then some none
        else
          let k := d0.length - d.length
          let d := d.tail
          if k = key.length ∧ cstrNcmp k key d0 = 0 then
            (skip 58 d).map fun e => some (d, d.length - e.length)
          else
            (skip 58 d).bind fun d =>
              lookupLoop key turns (if d.head? = some 58 then d.tail else d)

/-- `captab_lookup()`: the pointer to the attribute, and its length -/
def captabLookup (db : Option Text) (key : List UInt8) : Option (Option (List UInt8 × ℕ)) :=
  db.elim (some none) fun db =>
    if key = [] then some none else lookupLoop key (db.bytes.length + 1) (db.bytes ++ [0])

def Cap.key : Cap → List UInt8
  | .df => [100, 102]
  | .na => [110, 97]
  | .an => [97, 110]
  | .ar => [97, 114]
  | .ap => [97, 112]
  | .ad => [97, 100]
  | .wu => [119, 117]
  | .wd => [119, 100]
  | .er => [101, 114]
  | .ex => [101, 120]

/-- The order of the table -/
def capOrder : List Cap := [.df, .na, .an, .ar, .ap, .ad, .wu, .wd, .er, .ex]

/-- `CAP_ATTR_MAX` -/
def capAttrMax : ℕ := 15

/-- The attributes of `captab[]`, arrays of 16 bytes -/
abbrev Captab := Cap → List UInt8

/-- `"0\0"`, as the compiler fills the array with it -/
def captab : Captab := fun _ => 48 :: List.replicate 15 0

/-- `buf_copy()` of `len` bytes, and a NUL behind them -/
def copyAttr (b attr : List UInt8) (len : ℕ) : Option (List UInt8) :=
  if len ≤ attr.length then (storeAll b 0 (attr.take len)).bind fun b => store b len 0 else none

/-- `captab_init()`, of one entry of the table -/
def initCap (db : Option Text) (tab : Captab) (c : Cap) : Option Captab :=
  (captabLookup db (Cap.key c)).bind fun found =>
    ((found.filter fun p => p.2 < capAttrMax).elim
      (copyAttr (tab c) (tab .df) (text (tab .df)).length)
      fun p => copyAttr (tab c) p.1 p.2).map fun b c' => if c' = c then b else tab c'

def captabInit (db : Option Text) : Option Captab :=
  capOrder.foldlM (initCap db) captab

/-! ## What it is for -/

/-- The entries of a string: keys up to the first `=`, values up to a `:` -/
inductive Entries : List UInt8 → List (List UInt8 × List UInt8) → Prop where
  | none {s : List UInt8} : 61 ∉ s → Entries s []
  | last {k v : List UInt8} : 61 ∉ k → 58 ∉ v → Entries (k ++ 61 :: v) [(k, v)]
  | more {k v s : List UInt8} {es : List (List UInt8 × List UInt8)} : 61 ∉ k → 58 ∉ v →
      Entries s es → Entries (k ++ 61 :: (v ++ 58 :: s)) ((k, v) :: es)

/-- The value of the first entry for a key -/
def valueOf (es : List (List UInt8 × List UInt8)) (key : List UInt8) : Option (List UInt8) :=
  (es.find? (·.1 = key)).map (·.2)

/-- An attribute that the table has room for, of the first entry for the key -/
def fitting (es : List (List UInt8 × List UInt8)) (c : Cap) : Option (List UInt8) :=
  (valueOf es (Cap.key c)).filter (·.length < capAttrMax)

/-- The attribute of a capability: its own, or that of `df`, or `0` -/
def attrOf (es : List (List UInt8 × List UInt8)) (c : Cap) : List UInt8 :=
  (fitting es c).getD ((fitting es .df).getD [48])

section
variable {s d key : List UInt8} {es : List (List UInt8 × List UInt8)}

/-- Every string has its entries. -/
theorem entries_exist (s : List UInt8) : ∃ es, Entries s es := by
  induction hn : s.length using Nat.strong_induction_on generalizing s with
  | _ n ih =>
    by_cases heq : 61 ∈ s
    · obtain ⟨k, t, rfl, hk⟩ := List.eq_append_cons_of_mem heq
      by_cases hcolon : 58 ∈ t
      · obtain ⟨v, s, rfl, hv⟩ := List.eq_append_cons_of_mem hcolon
        have hlt : s.length < n := by
          rw [← hn]
          simp only [List.length_append, List.length_cons]
          omega
        obtain ⟨es, hes⟩ := ih s.length hlt s rfl
        exact ⟨(k, v) :: es, .more hk hv hes⟩
      · exact ⟨[(k, t)], .last hk hcolon⟩
    · exact ⟨[], .none heq⟩

/-! ## The lookup -/

theorem skip_append (stop : UInt8) {c : UInt8} (rest : List UInt8) (hnul : 0 ∉ s) (hstop : stop ∉ s)
    (hc : c = 0 ∨ c = stop) : skip stop (s ++ c :: rest) = some (c :: rest) := by
  induction s with
  | nil =>
    rw [List.nil_append, skip, if_neg]
    rintro ⟨h0, hs⟩
    exact hc.elim h0 hs
  | cons b s ih =>
    rw [List.mem_cons, not_or] at hnul hstop
    rw [List.cons_append, skip, if_pos ⟨fun h => hnul.1 h.symm, fun h => hstop.1 h.symm⟩]
    exact ih hnul.2 hstop.2

/-- What the function returns points to the value of an entry. -/
def Points (found : Option (List UInt8 × ℕ)) (value : Option (List UInt8)) : Prop :=
  match value with
  | none => found = none
  | some v => ∃ rest, found = some (v ++ rest, v.length)

/-- The key of an entry, as the loop compares it -/
theorem key_match (hkey : 0 ∉ key) (k t : List UInt8) :
    ((k ++ t).length - t.length = key.length ∧
      cstrNcmp ((k ++ t).length - t.length) key (k ++ t) = 0) ↔ k = key := by
  rw [List.length_append, Nat.add_sub_cancel]
  constructor
  · rintro ⟨hlen, hcmp⟩
    rw [Cstr.cstrNcmp_eq_zero (Nat.le_of_eq hlen) (by simp) hkey, List.take_left, hlen,
      List.take_length] at hcmp
    exact hcmp.symm
  · rintro rfl
    refine ⟨rfl, ?_⟩
    rw [Cstr.cstrNcmp_eq_zero (Nat.le_refl _) (by simp) hkey, List.take_left, List.take_length]

/-- One turn, at an entry -/
theorem lookupLoop_entry {k v : List UInt8} {c : UInt8} (turns : ℕ) (rest : List UInt8)
    (hkey : 0 ∉ key) (hk : 61 ∉ k) (hk0 : 0 ∉ k) (hv : 58 ∉ v) (hv0 : 0 ∉ v)
    (hc : c = 0 ∨ c = 58) :
    lookupLoop key (turns + 1) (k ++ 61 :: (v ++ c :: rest)) =
      if k = key then some (some (v ++ c :: rest, v.length))
      else lookupLoop key turns (if c = 58 then rest else c :: rest) := by
  have hfirst : ∃ b t, k ++ 61 :: (v ++ c :: rest) = b :: t ∧ b ≠ 0 := by
    cases k with
    | nil => exact ⟨61, _, rfl, by decide⟩
    | cons b k => exact ⟨b, _, rfl, fun h => hk0 (h ▸ List.mem_cons_self)⟩
  obtain ⟨b, t, hbt, hb⟩ := hfirst
  have hhead : (k ++ 61 :: (v ++ c :: rest)).head? = some b := by rw [hbt]; rfl
  have hskip := skip_append (s := k) 61 (v ++ c :: rest) hk0 hk (.inr rfl)
  have hvalue := skip_append (s := v) 58 rest hv0 hv hc
  rw [lookupLoop, hhead, Option.bind_some, if_neg hb, hskip, Option.bind_some,
    if_neg (by simp)]
  simp only [key_match hkey, List.tail_cons, hvalue, Option.map_some, Option.bind_some]
  by_cases hmatch : k = key
  · rw [if_pos hmatch, if_pos hmatch, List.length_append, Nat.add_sub_cancel]
  · rw [if_neg hmatch, if_neg hmatch]
    rcases hc with rfl | rfl
    · rfl
    · rfl

/-- No entry begins in a string without `=`. -/
theorem lookupLoop_none (turns : ℕ) (hnul : 0 ∉ s) (heq : 61 ∉ s) :
    lookupLoop key (turns + 1) (s ++ [0]) = some none := by
  have hskip := skip_append (s := s) 61 [] hnul heq (.inl rfl)
  cases s with
  | nil => rfl
  | cons b s =>
    have hb : b ≠ 0 := fun h => hnul (h ▸ List.mem_cons_self)
    rw [lookupLoop, List.cons_append, List.head?_cons, Option.bind_some, if_neg hb,
      ← List.cons_append, hskip]
    rfl

theorem valueOf_cons (k v : List UInt8) : valueOf ((k, v) :: es) key =
    if k = key then some v else valueOf es key := by
  rw [valueOf, List.find?_cons]
  by_cases hk : k = key
  · simp [hk]
  · simp [hk, valueOf]

theorem lookupLoop_points (hs : Entries s es) (hnul : 0 ∉ s) (hkey : 0 ∉ key) {turns : ℕ}
    (hturns : s.length < turns) :
    ∃ found, lookupLoop key turns (s ++ [0]) = some found ∧ Points found (valueOf es key) := by
  induction hs generalizing turns with
  | @none s heq =>
    cases turns with
    | zero => exact absurd hturns (Nat.not_lt_zero _)
    | succ turns => exact ⟨none, lookupLoop_none turns hnul heq, rfl⟩
  | @last k v hk hv =>
    cases turns with
    | zero => exact absurd hturns (Nat.not_lt_zero _)
    | succ turns =>
      simp only [List.mem_append, List.mem_cons, not_or] at hnul
      have hturn := lookupLoop_entry turns [] hkey hk hnul.1 hv hnul.2.2 (.inl rfl)
      rw [List.append_assoc, List.cons_append, hturn, valueOf_cons]
      by_cases hmatch : k = key
      · rw [if_pos hmatch, if_pos hmatch]
        exact ⟨_, rfl, [0], rfl⟩
      · rw [if_neg hmatch, if_neg hmatch, if_neg (by decide)]
        cases turns with
        | zero =>
          simp only [List.length_append, List.length_cons] at hturns
          omega
        | succ turns => exact ⟨none, rfl, rfl⟩
  | @more k v s es hk hv hs ih =>
    cases turns with
    | zero => exact absurd hturns (Nat.not_lt_zero _)
    | succ turns =>
      simp only [List.mem_append, List.mem_cons, not_or] at hnul
      simp only [List.length_append, List.length_cons] at hturns
      have hturn := lookupLoop_entry turns (s ++ [0]) hkey hk hnul.1 hv hnul.2.2.1 (.inr rfl)
      have hsplit : k ++ 61 :: (v ++ 58 :: s) ++ [0] = k ++ 61 :: (v ++ 58 :: (s ++ [0])) := by
        simp
      rw [hsplit, hturn, valueOf_cons]
      by_cases hmatch : k = key
      · rw [if_pos hmatch, if_pos hmatch]
        exact ⟨_, rfl, _, rfl⟩
      · rw [if_neg hmatch, if_neg hmatch, if_pos rfl]
        exact ih hnul.2.2.2.2 (by omega)

theorem key_nul (c : Cap) : 0 ∉ Cap.key c ∧ Cap.key c ≠ [] := by
  cases c <;> decide

theorem captabLookup_points (db : Text) (hes : Entries db.bytes es) (c : Cap) :
    ∃ found, captabLookup (some db) (Cap.key c) = some found ∧
      Points found (valueOf es (Cap.key c)) := by
  rw [captabLookup, Option.elim_some, if_neg (key_nul c).2]
  exact lookupLoop_points hes db.nul (key_nul c).1 (Nat.lt_succ_self _)

/-! ## The table -/

theorem copyAttr_eq {b xs : List UInt8} (rest : List UInt8) (hlen : xs.length < b.length)
    (hnul : 0 ∉ xs) :
    ∃ b', copyAttr b (xs ++ rest) xs.length = some b' ∧ b'.length = b.length ∧ text b' = xs := by
  obtain ⟨post, hfill, hpost⟩ := Inplace.fill b xs 0 hlen
  refine ⟨xs ++ 0 :: post, ?_, hpost, text_eq hnul post⟩
  rw [copyAttr, if_pos (by simp), List.take_left, hfill]

/-- What the table has of the capabilities that are done, and what it began with of the rest -/
structure Filled (es : List (List UInt8 × List UInt8)) (cs : List Cap) (tab : Captab) : Prop where
  length : ∀ c, (tab c).length = capAttrMax + 1
  done : ∀ c ∈ cs, text (tab c) = attrOf es c
  rest : ∀ c ∉ cs, tab c = captab c

theorem filled_captab : Filled es [] captab :=
  ⟨fun _ => rfl, fun _ h => absurd h List.not_mem_nil, fun _ _ => rfl⟩

theorem value_nul {v : List UInt8} (hs : Entries s es) (hnul : 0 ∉ s)
    (h : valueOf es key = some v) : 0 ∉ v := by
  induction hs with
  | none => cases h
  | last hk hv =>
    simp only [List.mem_append, List.mem_cons, not_or] at hnul
    rw [valueOf_cons] at h
    split at h
    · exact Option.some.inj h ▸ hnul.2.2
    · cases h
  | more hk hv _ ih =>
    simp only [List.mem_append, List.mem_cons, not_or] at hnul
    rw [valueOf_cons] at h
    split at h
    · exact Option.some.inj h ▸ hnul.2.2.1
    · exact ih hnul.2.2.2.2 h

theorem fitting_nul {c : Cap} {v : List UInt8} (hs : Entries s es) (hnul : 0 ∉ s)
    (h : fitting es c = some v) : 0 ∉ v ∧ v.length < capAttrMax := by
  obtain ⟨hv, hlen⟩ := Option.filter_eq_some_iff.mp h
  exact ⟨value_nul hs hnul hv, of_decide_eq_true hlen⟩

theorem points_none {c : Cap} {found : Option (List UInt8 × ℕ)}
    (hpoints : Points found (valueOf es (Cap.key c))) (hnone : fitting es c = none) :
    found.filter (fun p => p.2 < capAttrMax) = none := by
  rw [fitting] at hnone
  cases hvalue : valueOf es (Cap.key c) with
  | none =>
    rw [hvalue] at hpoints
    obtain rfl : found = none := hpoints
    rfl
  | some v =>
    rw [hvalue] at hpoints hnone
    obtain ⟨rest, rfl⟩ := hpoints
    rw [Option.filter_some] at hnone ⊢
    split at hnone
    · cases hnone
    · next hlong => exact if_neg hlong

/-- The default, when it is copied -/
theorem Filled.default {cs : List Cap} {tab : Captab} {c : Cap} (h : Filled es cs tab)
    (hs : Entries s es) (hnul : 0 ∉ s) (hc : c ∉ cs) (hdf : c = .df ∨ .df ∈ cs)
    (hnone : fitting es c = none) :
    text (tab .df) = attrOf es c ∧ (text (tab .df)).length < capAttrMax := by
  have hattr : text (tab .df) = attrOf es c := by
    rw [attrOf, hnone]
    rcases hdf with rfl | hmem
    · rw [h.rest _ hc, hnone]
      decide
    · rw [h.done _ hmem, attrOf]
      cases fitting es .df <;> rfl
  refine ⟨hattr, ?_⟩
  rw [hattr, attrOf, hnone]
  cases hfit : fitting es .df with
  | none => exact (by decide : 1 < capAttrMax)
  | some v => exact (fitting_nul hs hnul hfit).2

/-- One entry of the table -/
theorem initCap_filled {cs : List Cap} {tab : Captab} {c : Cap} (db : Text)
    (hs : Entries db.bytes es) (h : Filled es cs tab) (hc : c ∉ cs) (hdf : c = .df ∨ .df ∈ cs) :
    ∃ tab', initCap (some db) tab c = some tab' ∧ Filled es (c :: cs) tab' := by
  obtain ⟨found, hlookup, hpoints⟩ := captabLookup_points db hs c
  have hcopied : ∃ b, (found.filter fun p => p.2 < capAttrMax).elim
      (copyAttr (tab c) (tab .df) (text (tab .df)).length) (fun p => copyAttr (tab c) p.1 p.2) =
        some b ∧ b.length = capAttrMax + 1 ∧ text b = attrOf es c := by
    cases hfit : fitting es c with
    | some v =>
      obtain ⟨hv, hlen⟩ := fitting_nul hs db.nul hfit
      have hvalue : valueOf es (Cap.key c) = some v := (Option.filter_eq_some_iff.mp hfit).1
      rw [hvalue] at hpoints
      obtain ⟨rest, rfl⟩ := hpoints
      obtain ⟨b, hcopy, hblen, hb⟩ := copyAttr_eq (b := tab c) rest
        (by rw [h.length]; omega) hv
      refine ⟨b, ?_, hblen.trans (h.length c), ?_⟩
      · rw [Option.filter_some, if_pos (decide_eq_true hlen), Option.elim_some, hcopy]
      · rw [hb, attrOf, hfit]
        rfl
    | none =>
      obtain ⟨hattr, hlen⟩ := h.default hs db.nul hc hdf hfit
      have hnone := points_none hpoints hfit
      have hsplit : tab .df = text (tab .df) ++ (tab .df).dropWhile (· ≠ 0) :=
        List.takeWhile_append_dropWhile.symm
      have hnul : 0 ∉ text (tab .df) := fun hmem => absurd (List.mem_takeWhile_imp hmem) (by simp)
      obtain ⟨b, hcopy, hblen, hb⟩ := copyAttr_eq (b := tab c)
        ((tab .df).dropWhile (· ≠ 0)) (by rw [h.length]; omega) hnul
      rw [← hsplit] at hcopy
      exact ⟨b, by rw [hnone, Option.elim_none, hcopy], hblen.trans (h.length c), hb.trans hattr⟩
  obtain ⟨b, hb, hlen, htext⟩ := hcopied
  refine ⟨fun c' => if c' = c then b else tab c', ?_, ?_, ?_, ?_⟩
  · rw [initCap, hlookup, Option.bind_some, hb]
    rfl
  · intro c'
    by_cases hc' : c' = c
    · rw [if_pos hc', hlen]
    · rw [if_neg hc', h.length]
  · intro c' hmem
    by_cases hc' : c' = c
    · rw [if_pos hc', htext, hc']
    · rw [if_neg hc', h.done c' ((List.mem_cons.mp hmem).resolve_left hc')]
  · intro c' hmem
    rw [List.mem_cons, not_or] at hmem
    rw [if_neg hmem.1, h.rest c' hmem.2]

theorem initCaps_filled {cs : List Cap} {tab : Captab} (db : Text) (todo : List Cap)
    (hs : Entries db.bytes es) (h : Filled es cs tab) (hdf : .df ∈ cs) (hnodup : todo.Nodup)
    (hnew : ∀ c ∈ todo, c ∉ cs) :
    ∃ tab', todo.foldlM (initCap (some db)) tab = some tab' ∧
      Filled es (todo.reverse ++ cs) tab' := by
  induction todo generalizing cs tab with
  | nil => exact ⟨tab, rfl, h⟩
  | cons c todo ih =>
    obtain ⟨tab₁, hstep, h₁⟩ := initCap_filled db hs h (hnew c List.mem_cons_self) (.inr hdf)
    rw [List.nodup_cons] at hnodup
    obtain ⟨tab', hrest, htab'⟩ := ih h₁ (List.mem_cons_of_mem c hdf) hnodup.2 fun c' hc' hmem =>
      (List.mem_cons.mp hmem).elim (fun heq => hnodup.1 (heq ▸ hc'))
        (hnew c' (List.mem_cons_of_mem c hc'))
    refine ⟨tab', ?_, by simpa using htab'⟩
    rw [List.foldlM_cons, hstep]
    exact hrest

theorem captabInit_filled (db : Text) (hs : Entries db.bytes es) :
    ∃ tab, captabInit (some db) = some tab ∧ Filled es capOrder.reverse tab := by
  obtain ⟨tab₁, hdf, h₁⟩ :=
    initCap_filled db hs filled_captab (c := .df) List.not_mem_nil (.inl rfl)
  obtain ⟨tab, hrest, htab⟩ :=
    initCaps_filled db [.na, .an, .ar, .ap, .ad, .wu, .wd, .er, .ex] hs h₁
    List.mem_cons_self (by decide) (by decide)
  refine ⟨tab, ?_, htab⟩
  rw [captabInit, capOrder, List.foldlM_cons, hdf]
  exact hrest

/-- Every attribute is that of the first entry for its key, if the table has room for it, and
else the default. -/
theorem captab_attrs (db : Text) : (∃ es, Entries db.bytes es) ∧ ∀ es, Entries db.bytes es →
    ∃ tab, captabInit (some db) = some tab ∧
      ∀ c, (tab c).length = capAttrMax + 1 ∧ text (tab c) = attrOf es c := by
  refine ⟨entries_exist db.bytes, fun es hes => ?_⟩
  obtain ⟨tab, hinit, htab⟩ := captabInit_filled db hes
  refine ⟨tab, hinit, fun c => ⟨htab.length c, htab.done c ?_⟩⟩
  cases c <;> decide

end

end Perp.PerplsColors
