import Mathlib.Data.List.Nodup
import Perp.PerplsListing

set_option autoImplicit false

/-!
# What perpls prints

The container through the stages of the program, and the order of the lines.
-/
namespace Perp.PerplsPrinted
open Cstr (Text)
open Dynstufs
open Nextopt (Opt Final)
open OptionLoop
open PerplsColors
open PerplsListing
open PerplsPanel
open Refusal
open TinylogPrune (cstrCmp)

/-! ## The list of services -/

section
variable {i : Input} {S : Dynstuf Svstat} {l : List Svstat}

theorem all_take {mem : List Bool} (h : ∀ got ∈ mem, got = true) : (mem.take 3).all id = true :=
  List.all_eq_true.mpr fun got hgot => h got (List.mem_of_mem_take hgot)

theorem headD_drop {mem : List Bool} (h : ∀ got ∈ mem, got = true) :
    (mem.drop 3).headD true = true := by
  cases hd : mem.drop 3 with
  | nil => rfl
  | cons got rest => exact h got (List.mem_of_mem_drop (hd ▸ List.mem_cons_self))

/-- A service is put behind the others, or there is no memory. -/
theorem addService_cases (mem : List Bool) (h : Holds S (l.map some)) (name : List UInt8) :
    (∃ S', addService i (mem, S) name = .ok (mem.drop 4, S') ∧
      Holds S' ((l ++ [svstatInit (i.raw name) name]).map some)) ∨
    (addService i (mem, S) name = .stopped .alloc ∧
      ¬ ((∀ got ∈ mem, got = true) ∧ l.length + 1 < 2 ^ 59)) := by
  rw [addService]
  by_cases hmem : (mem.take 3).all id = true
  · rw [if_pos hmem]
    obtain ⟨r, S', l', hpush, hS', hdoes⟩ :=
      push_cases h ((mem.drop 3).headD true) (some (svstatInit (i.raw name) name))
    rw [hpush]
    rcases hdoes with ⟨hr, rfl⟩ | ⟨hr, rfl, hwhy⟩
    · obtain rfl : r = 0 := Ret.code.inj hr
      refine .inl ⟨S', rfl, ?_⟩
      rw [List.map_append]
      exact hS'
    · obtain rfl : r = -1 := Ret.code.inj hr
      refine .inr ⟨rfl, ?_⟩
      rintro ⟨hall, hlt⟩
      rw [headD_drop hall, List.length_map] at hwhy
      rcases hwhy with hwhy | hwhy
      · cases hwhy
      · omega
  · rw [if_neg hmem]
    exact .inr ⟨rfl, fun hall => hmem (all_take hall.1)⟩

theorem addServices_cases (mem : List Bool) (h : Holds S (l.map some)) (names : List (List UInt8)) :
    (∃ mem' S', Res.fold (addService i) names (mem, S) = .ok (mem', S') ∧
      Holds S' ((l ++ names.map fun name => svstatInit (i.raw name) name).map some)) ∨
    (Res.fold (addService i) names (mem, S) = .stopped .alloc ∧
      ¬ ((∀ got ∈ mem, got = true) ∧ l.length + names.length < 2 ^ 59)) := by
  induction names generalizing mem S l with
  | nil => exact .inl ⟨mem, S, rfl, by simpa using h⟩
  | cons name names ih =>
    rw [Res.fold]
    rcases addService_cases (i := i) mem h name with ⟨T, hadd, hT⟩ | ⟨hadd, hwhy⟩
    · rw [hadd, Res.bind]
      rcases ih (mem.drop 4) hT with ⟨mem', S', hrest, hS'⟩ | ⟨hrest, hwhy⟩
      · refine .inl ⟨mem', S', hrest, ?_⟩
        rwa [List.append_assoc] at hS'
      · refine .inr ⟨hrest, fun hready => hwhy ⟨fun got hgot => ?_, ?_⟩⟩
        · exact hready.1 got (List.mem_of_mem_drop hgot)
        · have hlt := hready.2
          simp only [List.length_append, List.length_cons, List.length_nil] at hlt ⊢
          omega
    · rw [hadd, Res.bind]
      refine .inr ⟨rfl, fun hready => hwhy ⟨hready.1, ?_⟩⟩
      have hlt := hready.2
      rw [List.length_cons] at hlt
      omega

theorem addEntries_eq (es : List Entry) (a : List Bool × Dynstuf Svstat) :
    Res.fold (addEntry i) es a = Res.fold (addService i)
      ((es.filter fun e => ¬ (e.name.bytes.head? = some 46 ∨ e.isDir = false)).map
        (·.name.bytes)) a := by
  induction es generalizing a with
  | nil => rfl
  | cons e es ih =>
    rw [Res.fold, addEntry]
    by_cases hskip : e.name.bytes.head? = some 46 ∨ e.isDir = false
    · rw [if_pos hskip, List.filter_cons_of_neg (by rwa [decide_not, Bool.not_eq_true',
        decide_eq_false_iff_not, not_not])]
      exact ih a
    · rw [if_neg hskip, List.filter_cons_of_pos (by simpa using hskip), List.map_cons, Res.fold]
      congr 1
      funext a
      exact ih a

/-! ## The queries -/

/-- A service after its query -/
def queried (i : Input) (k : ℕ) (sv : Svstat) : Svstat := svstatQuery (i.asked k sv.name) sv

theorem queried_name (k : ℕ) (sv : Svstat) : (queried i k sv).name = sv.name := by
  unfold queried svstatQuery
  dsimp only
  split <;> rfl

theorem queried_uptime (k : ℕ) (sv : Svstat) :
    (queried i k sv).uptimeMain = sv.uptimeMain := by
  unfold queried svstatQuery
  dsimp only
  split <;> rfl

theorem queryLoop_eq (done todo : List Svstat) {turns : ℕ} {k : UInt64} (width : ℕ)
    (h : Holds S ((done ++ todo).map some)) (hk : k.toNat = done.length)
    (hturns : todo.length ≤ turns) :
    ∃ S', queryLoop i turns k S width =
        some (S', todo.foldl (fun w sv => max w sv.name.length) width) ∧
      Holds S' ((done ++ todo.mapIdx fun j sv => queried i (done.length + j) sv).map some) := by
  induction todo generalizing done turns k width S with
  | nil =>
    rw [List.append_nil] at h
    cases turns with
    | zero => exact ⟨S, rfl, by simpa using h⟩
    | succ turns =>
      refine ⟨S, ?_, by simpa using h⟩
      rw [queryLoop, if_neg (by rw [h.lt_iff, List.length_map]; omega)]
      rfl
  | cons sv todo ih =>
    cases turns with
    | zero => exact absurd hturns (Nat.not_succ_le_zero _)
    | succ turns =>
      have hlt : k.toNat < ((done ++ sv :: todo).map some).length := by
        rw [hk, List.length_map, List.length_append, List.length_cons]
        omega
      have hget : dynstufGet S k = some (some sv) := by
        rw [get_eq h, hk]
        simp
      obtain ⟨T, hput, hT⟩ := h.put hlt (some (queried i done.length sv))
      have hset : ((done ++ sv :: todo).map some).set k.toNat
          (some (queried i done.length sv)) =
            ((done ++ [queried i done.length sv]) ++ todo).map some := by
        rw [hk]
        simp
      rw [hset] at hT
      have hnext : (k + 1).toNat = (done ++ [queried i done.length sv]).length := by
        rw [succ_eq h hlt, hk, List.length_append]
        rfl
      obtain ⟨S', hrest, hS'⟩ := ih (done ++ [queried i done.length sv]) (max width sv.name.length)
        hT hnext (Nat.le_of_succ_le_succ hturns)
      refine ⟨S', ?_, ?_⟩
      · rw [queryLoop, if_pos (h.lt_iff.mpr hlt), hget, Option.join_some, Option.bind_some, hk]
        change (S.put k (some (queried i done.length sv))).bind _ = _
        rw [hput, Option.bind_some, List.foldl_cons, ← hrest]
        have hmax : (if sv.name.length > width then sv.name.length else width) =
            max width sv.name.length := by
          split <;> omega
        exact congrArg (queryLoop i turns (k + 1) T) hmax
      · have hplace :
            (fun j sv' => queried i ((done ++ [queried i done.length sv]).length + j) sv') =
            fun j sv' => queried i (done.length + (j + 1)) sv' := by
          funext j sv'
          rw [List.length_append, List.length_singleton, Nat.add_assoc, Nat.add_comm 1]
        rw [hplace, List.append_assoc] at hS'
        rw [List.mapIdx_cons]
        exact hS'

theorem foldl_width (l : List Svstat) (width : ℕ) :
    l.foldl (fun w sv => max w sv.name.length) width =
      (l.map (·.name)).foldl (fun w name => max w name.length) width := by
  induction l generalizing width with
  | nil => rfl
  | cons sv l ih => exact ih _

/-- The queries of a list of new services -/
theorem queries_eq {names : List (List UInt8)}
    (h : Holds S ((names.map fun name => svstatInit (i.raw name) name).map some)) :
    ∃ S', queryLoop i S.items.toNat 0 S 0 = some (S', widest names) ∧
      Holds S' ((rows i names).map some) := by
  have hturns : (names.map fun name => svstatInit (i.raw name) name).length ≤ S.items.toNat := by
    rw [h.items, List.length_map (f := some)]
  obtain ⟨S', hloop, hS'⟩ := queryLoop_eq (k := 0) [] _ 0 h rfl hturns
  refine ⟨S', ?_, ?_⟩
  · rw [hloop, foldl_width, List.map_map]
    have hnames :
        ((fun sv : Svstat => sv.name) ∘ fun name => svstatInit (i.raw name) name) = id := rfl
    rw [hnames, List.map_id, widest]
  · have hrows : rows i names = [] ++ (names.map fun name => svstatInit (i.raw name) name).mapIdx
        fun j sv => queried i (([] : List Svstat).length + j) sv := by
      apply List.ext_getElem
      · simp [rows]
      · intro k h₁ h₂
        simp [rows, queried, svstatInit]
    rw [hrows]
    exact hS'

/-! ## The order -/

theorem cstrCmp_swap (a b : List UInt8) : cstrCmp b a = -cstrCmp a b := by
  induction a generalizing b with
  | nil => cases b <;> simp [cstrCmp]
  | cons x a ih =>
    cases b with
    | nil => simp [cstrCmp]
    | cons y b =>
      rw [cstrCmp, cstrCmp]
      by_cases hxy : x = y
      · rw [if_neg (by simp [hxy]), if_neg (by simp [hxy]), ih]
      · rw [if_pos hxy, if_pos (Ne.symm hxy)]
        omega

theorem cstrCmp_le {a b : List UInt8} (ha : 0 ∉ a) (hb : 0 ∉ b) : cstrCmp a b ≤ 0 ↔ a ≤ b := by
  rw [← not_lt, ← Int.neg_lt_zero_iff, ← cstrCmp_swap, TinylogPrune.cstrCmp_neg hb ha, List.not_lt]

/-- A comparison that goes by the names of services without NUL bytes -/
theorem orders_names {cmp : Ptr Svstat → Ptr Svstat → ℤ}
    (hcmp : ∀ a ∈ l, ∀ b ∈ l, cmp (some a) (some b) = cstrCmp a.name b.name)
    (hnul : ∀ sv ∈ l, 0 ∉ sv.name) : Orders cmp (l.map some) := by
  constructor
  · intro p hp q hq
    obtain ⟨a, ha, rfl⟩ := List.mem_map.mp hp
    obtain ⟨b, hb, rfl⟩ := List.mem_map.mp hq
    rw [hcmp a ha b hb, hcmp b hb a ha, cstrCmp_swap a.name b.name]
    omega
  · intro p hp q hq r hr hpq hqr
    obtain ⟨a, ha, rfl⟩ := List.mem_map.mp hp
    obtain ⟨b, hb, rfl⟩ := List.mem_map.mp hq
    obtain ⟨c, hc, rfl⟩ := List.mem_map.mp hr
    rw [hcmp _ ha _ hb, cstrCmp_le (hnul a ha) (hnul b hb)] at hpq
    rw [hcmp _ hb _ hc, cstrCmp_le (hnul b hb) (hnul c hc)] at hqr
    rw [hcmp _ ha _ hc, cstrCmp_le (hnul a ha) (hnul c hc)]
    exact List.le_trans hpq hqr

/-- As long as no status has been unpacked, all uptimes are the same. -/
theorem cmp_names (by_ : SortBy) {a b : Svstat} (ha : a.uptimeMain = 0) (hb : b.uptimeMain = 0) :
    by_.cmp (some a) (some b) = cstrCmp a.name b.name := by
  cases by_ with
  | name => rfl
  | uptime => simp [SortBy.cmp, cmpByuptime, field, ha, hb]

/-- Pointers that are not NULL, in another order -/
theorem perm_some {α : Type} {ps : List (Option α)} {l : List α} (h : ps.Perm (l.map some)) :
    ∃ l' : List α, ps = l'.map some ∧ l'.Perm l := by
  have hperm := h.filterMap id
  have hsame : (l.map some).filterMap id = l := by simp
  rw [hsame] at hperm
  refine ⟨ps.filterMap id, ?_, hperm⟩
  have hall : ∀ p ∈ ps, ∃ x, p = some x := by
    intro p hp
    obtain ⟨x, -, hx⟩ := List.mem_map.mp (h.subset hp)
    exact ⟨x, hx.symm⟩
  clear h hperm
  induction ps with
  | nil => rfl
  | cons p ps ih =>
    obtain ⟨x, rfl⟩ := hall p List.mem_cons_self
    have hrest := ih fun q hq => hall q (List.mem_cons_of_mem _ hq)
    exact congrArg (some x :: ·) hrest

/-- Either sort puts the services in the order of their names. -/
theorem sort_names (hq : Sorts i.qsort) (h : Holds S (l.map some)) (by_ : SortBy)
    (hup : ∀ sv ∈ l, sv.uptimeMain = 0) (hnul : ∀ sv ∈ l, 0 ∉ sv.name) :
    ∃ (S' : Dynstuf Svstat) (l' : List Svstat), dynstufSort i.qsort by_.cmp S = some S' ∧
      Holds S' (l'.map some) ∧ l'.Perm l ∧
      l'.Pairwise fun a b => a.name ≤ b.name := by
  have hcmp : ∀ a ∈ l, ∀ b ∈ l, by_.cmp (some a) (some b) = cstrCmp a.name b.name :=
    fun a ha b hb => cmp_names by_ (hup a ha) (hup b hb)
  have hords := orders_names hcmp hnul
  obtain ⟨S', hsort, hS'⟩ := sort_eq h hq by_.cmp hords
  obtain ⟨hperm, hsorted⟩ := hq _ _ hords
  obtain ⟨l', hl', hperm'⟩ := perm_some hperm
  rw [hl'] at hS' hsorted
  refine ⟨S', l', hsort, hS', hperm', ?_⟩
  rw [List.pairwise_map] at hsorted
  refine hsorted.imp_of_mem ?_
  intro a b ha hb hab
  rw [hcmp a (hperm'.subset ha) b (hperm'.subset hb)] at hab
  exact (cstrCmp_le (hnul a (hperm'.subset ha)) (hnul b (hperm'.subset hb))).mp hab

/-! ## The listing -/

theorem printLoop_eq (colors : Option Captab) (width : ℕ) (h : Holds S (l.map some)) {turns : ℕ}
    {k : UInt64} (hturns : l.length ≤ k.toNat + turns) :
    printLoop i colors width S turns k = some ((l.drop k.toNat).flatMap fun sv =>
      lineOf i colors width (svstatSetcap (svstatUnpack sv i.now))) := by
  induction turns generalizing k with
  | zero =>
    rw [Nat.add_zero] at hturns
    rw [printLoop, List.drop_of_length_le hturns]
    rfl
  | succ turns ih =>
    rw [printLoop]
    by_cases hk : k < S.items
    · have hlt := h.lt_iff.mp hk
      have hsucc := succ_eq h hlt
      rw [List.length_map] at hlt
      have hget : dynstufGet S k = some (some l[k.toNat]) := by
        rw [get_eq h, List.getElem?_map, List.getElem?_eq_getElem hlt]
        rfl
      rw [if_pos hk, hget, Option.join_some, Option.bind_some, ih (by omega), hsucc,
        List.drop_eq_getElem_cons hlt, List.flatMap_cons]
      rfl
    · have hle := Nat.not_lt.mp (mt h.lt_iff.mpr hk)
      rw [List.length_map] at hle
      rw [if_neg hk, List.drop_of_length_le hle]
      rfl

theorem mem_rows {names : List (List UInt8)} {sv : Svstat} (h : sv ∈ rows i names) :
    sv.uptimeMain = 0 ∧ sv.name ∈ names := by
  obtain ⟨k, hk, rfl⟩ := List.mem_mapIdx.mp h
  refine ⟨queried_uptime k (svstatInit (i.raw names[k]) names[k]), ?_⟩
  have hname := queried_name (i := i) k (svstatInit (i.raw names[k]) names[k])
  exact hname ▸ List.getElem_mem hk

/-- The sort, if there is one -/
theorem sorted_eq (hq : Sorts i.qsort) {names : List (List UInt8)} (hnul : ∀ name ∈ names, 0 ∉ name)
    (sortBy : Option SortBy) (h : Holds S ((rows i names).map some)) :
    ∃ (S' : Dynstuf Svstat) (l' : List Svstat),
      (sortBy.elim (some S) fun by_ => dynstufSort i.qsort by_.cmp S) = some S' ∧
      Holds S' (l'.map some) ∧ Ordered sortBy.isSome false (rows i names) l' := by
  cases sortBy with
  | none => exact ⟨S, _, rfl, h, List.Perm.refl _, nofun, fun _ => rfl⟩
  | some by_ =>
    obtain ⟨S', l', hsort, hS', hperm, hsorted⟩ :=
      sort_names hq h by_ (fun sv hsv => (mem_rows hsv).1)
      fun sv hsv => hnul _ (mem_rows hsv).2
    exact ⟨S', l', hsort, hS', hperm, fun _ => hsorted, nofun⟩

theorem list_eq (hq : Sorts i.qsort) {names : List (List UInt8)} (hnul : ∀ name ∈ names, 0 ∉ name)
    (colors : Option Captab) (optR : Bool) (sortBy : Option SortBy)
    (h : Holds S ((names.map fun name => svstatInit (i.raw name) name).map some)) :
    ∃ order, Ordered sortBy.isSome optR (rows i names) order ∧
      list i colors optR sortBy S = some (order.flatMap fun sv =>
        lineOf i colors (widest names) (svstatSetcap (svstatUnpack sv i.now))) := by
  obtain ⟨S₁, hquery, h₁⟩ := queries_eq h
  obtain ⟨S₂, l₂, hsort, h₂, hord⟩ := sorted_eq hq hnul sortBy h₁
  have hprint : ∀ (T : Dynstuf Svstat) (l' : List Svstat), Holds T (l'.map some) →
      printLoop i colors (widest names) T T.items.toNat 0 = some (l'.flatMap fun sv =>
        lineOf i colors (widest names) (svstatSetcap (svstatUnpack sv i.now))) := by
    intro T l' hT
    have hturns : l'.length ≤ (0 : UInt64).toNat + T.items.toNat := by
      rw [hT.items, List.length_map]
      exact Nat.le_add_left _ _
    exact printLoop_eq colors (widest names) hT hturns
  rw [list, hquery, Option.bind_some, hsort, Option.bind_some]
  cases optR with
  | false =>
    refine ⟨l₂, hord, ?_⟩
    rw [if_neg (by decide), Option.bind_some]
    exact hprint S₂ l₂ h₂
  | true =>
    obtain ⟨S₃, hreverse, h₃⟩ := reverse_eq h₂
    rw [← List.map_reverse] at h₃
    refine ⟨l₂.reverse, ⟨(List.reverse_perm l₂).trans hord.perm, fun hs => ?_, fun hs => ?_⟩, ?_⟩
    · rw [if_pos rfl, List.reverse_reverse]
      exact hord.byName hs
    · rw [if_pos rfl, List.reverse_reverse]
      exact hord.asNamed hs
    · rw [if_pos rfl, hreverse, Option.bind_some]
      exact hprint S₃ _ h₃

/-! ## The program -/

theorem optCase_stops : Stops optCase := by
  rintro ⟨ret, got, arg⟩ st (rfl | rfl)
  · exact ⟨_, rfl⟩
  · exact ⟨_, rfl⟩

theorem option_letters {c : UInt8} {b : Bool} (h : Nextopt.takes optlist c = some b) :
    (c = 104 ∨ c = 86 ∨ c = 99 ∨ c = 71 ∨ c = 103 ∨ c = 75 ∨ c = 114 ∨ c = 116) ∧ b = false ∨
      c = 98 ∧ b = true :=
  Nextopt.takes_all
    (P := fun c b => (c = 104 ∨ c = 86 ∨ c = 99 ∨ c = 71 ∨ c = 103 ∨ c = 75 ∨ c = 114 ∨ c = 116) ∧
      b = false ∨ c = 98 ∧ b = true)
    (by decide) h

theorem optCase_steps : Steps optCase ⟨optlist, by decide⟩ (fun _ o => o.1 = 104 ∨ o.1 = 86)
    setOpt fun st b => st = b := by
  rintro st _ ⟨c, arg⟩ h rfl
  rcases option_letters h with ⟨hc, hnone⟩ | ⟨rfl, hsome⟩
  · rcases hc with rfl | rfl | rfl | rfl | rfl | rfl | rfl | rfl
    · exact Res.meets_stopped _ (.inl rfl)
    · exact Res.meets_stopped _ (.inr rfl)
    all_goals exact Res.meets_ok (by simp) rfl
  · obtain ⟨value, rfl⟩ : ∃ value, arg = some value := Option.isSome_iff_exists.mp hsome
    exact Res.meets_ok (by simp) rfl

theorem colors_cases (i : Input) (st : Opts) :
    (∃ tab, colors i st = .ok tab ∧
      tab = (capDb i st).bind fun db => captabInit (some db)) ∨
    (∃ e, colors i st = .stopped e) ∧ st.optK = true := by
  rw [colors]
  cases capDb i st with
  | none => exact .inl ⟨none, rfl, rfl⟩
  | some db =>
    obtain ⟨es, hes⟩ := entries_exist db.bytes
    obtain ⟨tab, htab, -⟩ := captabInit_filled db hes
    rw [Option.elim_some, htab, Option.bind_some, htab]
    cases hK : st.optK with
    | false => exact .inl ⟨some tab, rfl, rfl⟩
    | true => exact .inr ⟨⟨_, rfl⟩, rfl⟩

theorem svList_cases (st : Opts) (base : List UInt8) (operands : List (List UInt8))
    (h : Holds S ([] : List (Ptr Svstat))) :
    (∃ sortBy S', svList i st base operands S = .ok (sortBy, S') ∧
      sortBy.isSome = (operands.isEmpty || st.optT) ∧
      Holds S' (((names i operands).map fun name => svstatInit (i.raw name) name).map some)) ∨
    (∃ e, svList i st base operands S = .stopped e) ∧
      ¬ ((operands = [] → i.dir ≠ none) ∧ (∀ got ∈ i.mem, got = true) ∧
        (names i operands).length < 2 ^ 59) := by
  have hadd := addServices_cases (i := i) (l := []) i.mem h (names i operands)
  simp only [List.nil_append, List.length_nil, Nat.zero_add] at hadd
  rw [svList]
  by_cases hops : operands = []
  · subst hops
    rw [if_neg (by simp)]
    cases hdir : i.dir with
    | none => exact .inr ⟨⟨_, rfl⟩, fun hready => hready.1 rfl rfl⟩
    | some es =>
      have hnames : names i [] = (es.filter fun e =>
          ¬ (e.name.bytes.head? = some 46 ∨ e.isDir = false)).map (·.name.bytes) := by
        rw [names, if_neg (by simp), hdir]
        rfl
      rw [Option.elim_some, addEntries_eq, ← hnames]
      rcases hadd with ⟨mem', S', hfold, hS'⟩ | ⟨hfold, hwhy⟩
      · rw [hfold]
        refine .inl ⟨_, S', rfl, ?_, hS'⟩
        cases st.optT <;> rfl
      · rw [hfold]
        exact .inr ⟨⟨_, rfl⟩, fun hready => hwhy hready.2⟩
  · rw [if_pos hops]
    have hnames : names i operands = operands := if_pos hops
    have hempty : operands.isEmpty = false := by simpa using hops
    rw [hnames] at hadd ⊢
    rcases hadd with ⟨mem', S', hfold, hS'⟩ | ⟨hfold, hwhy⟩
    · rw [hfold, hempty]
      refine .inl ⟨_, S', rfl, ?_, hS'⟩
      cases st.optT <;> rfl
    · rw [hfold]
      exact .inr ⟨⟨_, rfl⟩, fun hready => hwhy hready.2⟩

theorem head_column (width : ℕ) (sv : Svstat) :
    headOf none width sv = ascii sv.panel.text ++ [32, 32] ++ (namePad sv.name width).getD [] ∧
      (headOf none width sv).length = 13 + if width ≤ padMax then width else 0 := by
  have hpanel : (ascii sv.panel.text).length = 11 := rfl
  have hhead : headOf none width sv =
      ascii sv.panel.text ++ [32, 32] ++ (namePad sv.name width).getD [] := by
    rw [headOf, Option.elim_none, vputs, vputs, List.append_assoc]
    cases namePad sv.name width with
    | none => rfl
    | some name => simp [vputs]
  refine ⟨hhead, ?_⟩
  rw [hhead, List.length_append, List.length_append, hpanel, namePad]
  by_cases hw : width ≤ padMax
  · rw [if_pos hw, if_neg (Nat.not_lt.mpr hw)]
    simp only [Option.getD_some, List.length_append, List.length_take, List.length_replicate,
      List.length_cons, List.length_nil]
    omega
  · rw [if_neg hw, if_pos (Nat.not_le.mp hw)]
    rfl

theorem le_widest {names : List (List UInt8)} {name : List UInt8} (h : name ∈ names) :
    name.length ≤ widest names := by
  have hall : ∀ (ns : List (List UInt8)) (w : ℕ), w ≤ ns.foldl (fun w n => max w n.length) w ∧
      ∀ n ∈ ns, n.length ≤ ns.foldl (fun w n => max w n.length) w := by
    intro ns
    induction ns with
    | nil => exact fun w => ⟨Nat.le_refl w, fun n hn => absurd hn List.not_mem_nil⟩
    | cons n ns ih =>
      intro w
      obtain ⟨hw, hns⟩ := ih (max w n.length)
      refine ⟨(Nat.le_max_left w n.length).trans hw, fun m hm => ?_⟩
      rcases List.mem_cons.mp hm with rfl | hm
      · exact (Nat.le_max_right w m.length).trans hw
      · exact hns m hm
  exact (hall names 0).2 name h

theorem lines_eq {names : List (List UInt8)} {tab : Option Captab} {order : List Svstat}
    (h : order.Perm (rows i names)) : Lines i tab (widest names) order (order.flatMap fun sv =>
      lineOf i tab (widest names) (svstatSetcap (svstatUnpack sv i.now))) := by
  refine ⟨rfl, ?_, ?_⟩
  · rintro rfl sv
    exact head_column _ sv
  · intro hw sv hsv
    have hlen := le_widest (mem_rows (h.subset hsv)).2
    refine ⟨widest names - sv.name.length, ?_⟩
    rw [namePad, if_neg (Nat.not_lt.mpr hw), List.take_of_length_le hlen]

/-- What follows the options, once they have been read -/
theorem afterOptions_cases (hq : Sorts i.qsort) {operands : List (List UInt8)}
    (hops : (cmdline i).2 = .operands operands) :
    (∃ out, afterOptions i (opts i, operands) = .ok out ∧ Printed i out) ∨
      (∃ e, afterOptions i (opts i, operands) = .stopped e) ∧ ¬ Ready i := by
  have hsame : Ready i → (operands = [] → i.dir ≠ none) ∧
      (names i operands).length + 1 < 2 ^ 59 := by
    rintro ⟨-, ⟨operands', hops', hdir, hlen⟩, -⟩
    obtain rfl := Final.operands.inj (hops'.symm.trans hops)
    exact ⟨hdir, hlen⟩
  have hnul : ∀ name ∈ names i operands, 0 ∉ name := by
    intro name hname
    rw [names] at hname
    split at hname
    · obtain ⟨arg, -, rfl⟩ := List.mem_map.mp (mem_operands hops hname)
      exact arg.nul
    · obtain ⟨e, -, rfl⟩ := List.mem_map.mp hname
      exact e.name.nul
  rw [afterOptions]
  rcases colors_cases i (opts i) with ⟨tab, hcolors, htab⟩ | ⟨⟨e, hcolors⟩, hK⟩
  · rw [hcolors, Res.bind]
    cases hnew : dynstufNew (α := Svstat) i.listMem.1 i.listMem.2 with
    | none =>
      refine .inr ⟨⟨_, rfl⟩, fun hready => ?_⟩
      rw [hready.listMem] at hnew
      cases hnew
    | some S =>
      rw [Option.elim_some]
      by_cases hchdir : i.chdir (basedir i (opts i)) = true
      · rw [if_pos hchdir]
        rcases svList_cases (i := i) (opts i) (basedir i (opts i)) operands
          (new_holds hnew) with ⟨sortBy, S', hlist, hsort, hS'⟩ | ⟨⟨e, hlist⟩, hwhy⟩
        · rw [hlist, Res.bind]
          by_cases hpath : (basedir i (opts i) ++ socketName).length < pathbufSize
          · rw [if_pos hpath]
            cases hconn : i.connect (basedir i (opts i) ++ socketName) with
            | connected =>
              obtain ⟨order, hord, hout⟩ := list_eq hq hnul tab (opts i).optR sortBy hS'
              rw [hout]
              subst htab
              exact .inl ⟨_, rfl, operands, order, hops, hsort ▸ hord, lines_eq hord.perm⟩
            | refused =>
              refine .inr ⟨⟨_, rfl⟩, fun hready => ?_⟩
              have h := hready.connect
              rw [hconn] at h
              cases h
            | failed =>
              refine .inr ⟨⟨_, rfl⟩, fun hready => ?_⟩
              have h := hready.connect
              rw [hconn] at h
              cases h
          · rw [if_neg hpath]
            exact .inr ⟨⟨_, rfl⟩, fun hready => hpath hready.path⟩
        · rw [hlist, Res.bind]
          refine .inr ⟨⟨e, rfl⟩, fun hready => hwhy ⟨(hsame hready).1, hready.mem, ?_⟩⟩
          have hlen := (hsame hready).2
          omega
      · rw [if_neg hchdir]
        exact .inr ⟨⟨_, rfl⟩, fun hready => hchdir hready.chdir⟩
  · rw [hcolors, Res.bind]
    refine .inr ⟨⟨e, rfl⟩, fun hready => ?_⟩
    have h := hready.noCapabilities
    rw [hK] at h
    cases h

/-- The program ends with the listing, or before it. -/
theorem main_cases (i : Input) (hq : Sorts i.qsort) :
    (∃ out, main i = .ok out ∧ Printed i out) ∨ (∃ e, main i = .stopped e) ∧ ¬ Ready i := by
  rcases options_meets optCase_stops (by decide) optCase_steps i.prog i.args
    (b := ⟨none, false, true, false, false, false⟩) rfl with
    ⟨hfault, e, he⟩ | ⟨-, ⟨st, operands⟩, hok, hst, hops⟩
  · rw [main, he]
    refine .inr ⟨⟨e, rfl⟩, fun hready => ?_⟩
    rw [faulty_const] at hfault
    rcases hfault with ⟨o, ho, hbad⟩ | hno
    · exact absurd hbad (hready.letters o ho)
    · obtain ⟨operands, hops, -⟩ := hready.operands
      exact absurd hops (hno operands)
  · obtain rfl : st = opts i := hst
    rw [main, hok, Res.bind]
    exact afterOptions_cases hq hops

/-- Whatever perpls prints is the listing; it never accesses memory that is not there, and it
prints the listing when nothing is in the way. -/
theorem listing_printed (i : Input) (hq : Sorts i.qsort) : main i ≠ .outside ∧
    (∀ out, main i = .ok out → Printed i out) ∧ (Ready i → ∃ out, main i = .ok out) := by
  rcases main_cases i hq with ⟨out, hout, hprinted⟩ | ⟨⟨e, he⟩, hno⟩
  · rw [hout]
    refine ⟨nofun, fun out' hout' => ?_, fun _ => ⟨out, rfl⟩⟩
    exact Res.ok.inj hout' ▸ hprinted
  · rw [he]
    exact ⟨nofun, nofun, fun hready => absurd hready hno⟩

/-- A directory with the services `web` and `db`, neither of them activated, listed with `-t` -/
def twoServices : Input where
  prog := ⟨[112, 101, 114, 112, 108, 115], by decide⟩
  args := [⟨[45, 116], by decide⟩]
  getenv := fun _ => none
  isatty := true
  builtin := ⟨[47, 115, 101, 114, 118, 105, 99, 101], by decide⟩
  chdir := fun _ => true
  dir := some [⟨⟨[119, 101, 98], by decide⟩, true⟩, ⟨⟨[46, 99], by decide⟩, true⟩,
    ⟨⟨[100, 98], by decide⟩, true⟩]
  connect := fun _ => .connected
  now := .load 10 0
  listMem := (true, true)
  mem := []
  raw := fun _ => StatusVerdicts.unset
  asked := fun _ _ => ⟨.ok ⟨1, 2, true, false⟩, [], 0, [], 0⟩
  qsort := mergeQsort
  sysstrErrno := fun _ => []

theorem two_ready (es : List Entry) (hlen : es.length < 2 ^ 58) :
    Ready { twoServices with dir := some es } := by
  have hletters : ∀ o ∈ (cmdline twoServices).1, ¬ (o.1 = 104 ∨ o.1 = 86) := by decide
  have hpath : (basedir twoServices (opts twoServices) ++ socketName).length < pathbufSize := by
    decide
  refine ⟨hletters, ⟨[], rfl, fun _ => nofun, ?_⟩, rfl, rfl, hpath, rfl, rfl, nofun⟩
  have hle : (names { twoServices with dir := some es } []).length ≤ es.length := by
    rw [names, if_neg (by simp), List.length_map]
    exact List.length_filter_le _ _
  omega

theorem listing_printed_two : ∃ out, main twoServices = .ok out ∧ Printed twoServices out := by
  obtain ⟨-, hprinted, hprints⟩ := listing_printed twoServices mergeQsort_sorts
  obtain ⟨out, hout⟩ := hprints (two_ready (twoServices.dir.getD []) (by decide))
  exact ⟨out, hout, hprinted out hout⟩

/-! ## The order of the directory -/

theorem widest_perm {names names' : List (List UInt8)} (h : names'.Perm names) :
    widest names' = widest names := by
  apply h.foldl_eq'
  intro a _ b _ w
  omega

/-- Where the place in the list does not matter to a query, the rows follow their names. -/
theorem rows_map (hasked : ∀ k k' name, i.asked k name = i.asked k' name)
    (names : List (List UInt8)) : rows i names =
      names.map fun name => svstatQuery (i.asked 0 name) (svstatInit (i.raw name) name) := by
  apply List.ext_getElem
  · simp [rows]
  · intro k h₁ h₂
    simp only [rows, List.getElem_mapIdx, List.getElem_map, hasked k 0]

theorem rows_names (names : List (List UInt8)) : (rows i names).map (·.name) = names := by
  apply List.ext_getElem
  · simp [rows]
  · intro k h₁ h₂
    rw [List.getElem_map]
    simp only [rows, List.getElem_mapIdx]
    exact queried_name (i := i) k (svstatInit (i.raw names[k]) names[k])

/-- There is one order by name of services with distinct names. -/
theorem order_unique {rows rows' order order' : List Svstat} {reversed : Bool}
    (hdistinct : (rows.map (·.name)).Nodup) (hrows : rows'.Perm rows)
    (h : Ordered true reversed rows order) (h' : Ordered true reversed rows' order') :
    order' = order := by
  have hunique : ∀ l l' : List Svstat, l.Perm rows → l'.Perm rows →
      l.Pairwise (fun a b => a.name ≤ b.name) → l'.Pairwise (fun a b => a.name ≤ b.name) →
        l' = l := by
    intro l l' hl hl' hs hs'
    refine List.Perm.eq_of_pairwise ?_ hs' hs (hl'.trans hl.symm)
    intro a b ha hb hab hba
    have hname : a.name = b.name := List.le_antisymm hab hba
    exact List.inj_on_of_nodup_map hdistinct (hl'.subset ha) (hl.subset hb) hname
  have hperm := h.perm
  have hperm' := h'.perm.trans hrows
  have hs := h.byName rfl
  have hs' := h'.byName rfl
  cases reversed with
  | false => exact hunique order order' hperm hperm' hs hs'
  | true =>
    rw [if_pos rfl] at hs hs'
    have heq := hunique order.reverse order'.reverse ((List.reverse_perm _).trans hperm)
      ((List.reverse_perm _).trans hperm') hs hs'
    exact List.reverse_injective heq

/-- The listing of a directory does not depend on the order in which it is read. -/
theorem listing_order (i : Input) (hq : Sorts i.qsort)
    (hasked : ∀ k k' name, i.asked k name = i.asked k' name) {es es' : List Entry}
    (hdir : i.dir = some es) (hperm : es'.Perm es) (hdistinct : (es.map (·.name)).Nodup)
    (hops : (cmdline i).2 = .operands []) {out out' : List UInt8} (h : main i = .ok out)
    (h' : main { i with dir := some es' } = .ok out') : out' = out := by
  rcases main_cases i hq with ⟨o, ho, operands, order, hopt, hord, hlines⟩ | ⟨⟨e, he⟩, -⟩
  · rcases main_cases { i with dir := some es' } hq with
      ⟨o', ho', operands', order', hopt', hord', hlines'⟩ | ⟨⟨e, he⟩, -⟩
    · obtain rfl : operands = [] := Final.operands.inj (hopt.symm.trans hops)
      obtain rfl : operands' = [] := Final.operands.inj (hopt'.symm.trans hops)
      obtain rfl : o = out := Res.ok.inj (ho.symm.trans h)
      obtain rfl : o' = out' := Res.ok.inj (ho'.symm.trans h')
      have hnames : names i [] = (es.filter fun e =>
          ¬ (e.name.bytes.head? = some 46 ∨ e.isDir = false)).map (·.name.bytes) := by
        rw [names, if_neg (by simp), hdir]
        rfl
      have hshuffled : (names { i with dir := some es' } []).Perm (names i []) := by
        rw [hnames]
        exact (hperm.filter _).map _
      have hnodup : (names i []).Nodup := by
        have hbytes : ((es.map (·.name)).map Text.bytes).Nodup :=
          hdistinct.map fun a b hab => by
            cases a
            cases b
            cases hab
            rfl
        rw [List.map_map] at hbytes
        rw [hnames]
        exact hbytes.sublist (List.filter_sublist.map _)
      have hrows : (rows { i with dir := some es' } (names { i with dir := some es' } [])).Perm
          (rows i (names i [])) := by
        rw [rows_map hasked, rows_map (i := { i with dir := some es' }) hasked]
        exact hshuffled.map _
      have horder : order' = order :=
        order_unique (by rw [rows_names]; exact hnodup) hrows hord hord'
      rw [hlines'.text, hlines.text, horder, widest_perm hshuffled]
      rfl
    · rw [he] at h'
      cases h'
  · rw [he] at h
    cases h

theorem listing_order_two : ∃ out, main twoServices = .ok out ∧
    main { twoServices with dir := twoServices.dir.map List.reverse } = .ok out := by
  rcases main_cases twoServices mergeQsort_sorts with ⟨out, hout, -⟩ | ⟨-, hno⟩
  · rcases main_cases { twoServices with dir := twoServices.dir.map List.reverse } mergeQsort_sorts
      with ⟨out', hout', -⟩ | ⟨-, hno⟩
    · have hsame := listing_order twoServices mergeQsort_sorts (fun _ _ _ => rfl) rfl
        (List.reverse_perm _) (by decide) rfl hout hout'
      exact ⟨out, hout, hsame ▸ hout'⟩
    · exact absurd (two_ready (twoServices.dir.getD []).reverse (by decide)) hno
  · exact absurd (two_ready (twoServices.dir.getD []) (by decide)) hno

end

end Perp.PerplsPrinted
