import Mathlib.Algebra.Order.Ring.Nat
import Mathlib.Data.List.Induction
import Mathlib.Data.List.Nodup
import Mathlib.Data.List.Perm.Basic
import Mathlib.Data.List.TakeWhile
import Mathlib.Logic.Function.Basic
import Perp.Cstr

set_option autoImplicit false

/-!
# The new environment

`newenv_set()` and `newenv_merge()`: the array that the calls are merged into.
-/
namespace Perp.Newenv
open Cstr

/-! ## The array -/

/-- A slot of the array: nothing stored yet, or NULL, or a string -/
abbrev Slot := Option (Option (List UInt8))

/-- A store in an array, within its allocation -/
def store (ee : List Slot) (i : ℕ) (v : Slot) : Option (List Slot) :=
  if i < ee.length then some (ee.set i v) else none

/-- The array up to its NULL -/
def environ : List Slot → Option (List (List UInt8))
  | some none :: _ => some []
  | some (some s) :: ee => (environ ee).map (s :: ·)
  | _ => none

/-- `newenv_set()`: the return, and the strings that have been pushed. `got` tells whether
there is memory. -/
def newenvSet (got : Bool) (newenv : List (List UInt8)) (name : List UInt8)
    (value : Option (List UInt8)) : ℤ × List (List UInt8) :=
  if name = [] then (0, newenv)
  else if got then (0, newenv ++ [name ++ value.elim [] (61 :: ·)])
  else (-1, newenv)

/-- The search in the array: where it was left, the array and its length -/
def search (envstr : List UInt8) (split : ℕ) (ee : List Slot) (eeLen i : ℕ) :
    Option (ℕ × List Slot × ℕ) :=
  if i < eeLen then do
    let e ← (← ee[i]?).join
    if cstrPos e 61 = split then
      if charAt envstr split = some 61 ∧ cstrNcmp split envstr e = 0 then
        let ee ← store ee i (some (some envstr))
        return (i, ee, eeLen)
      else if cstrNcmp (split - 1) envstr e = 0 then
        let last ← ee[eeLen - 1]?
        let ee ← store ee i last
        let ee ← store ee (eeLen - 1) (some none)
        return (i, ee, eeLen - 1)
      else search envstr split ee eeLen (i + 1)
    else search envstr split ee eeLen (i + 1)
  else some (i, ee, eeLen)
termination_by eeLen - i

/-- One string of the calls is merged. -/
def mergeOne (out : List Slot × ℕ) (envstr : List UInt8) : Option (List Slot × ℕ) := do
  let split := cstrPos envstr 61
  let (i, ee, eeLen) ← search envstr split out.1 out.2 0
  if eeLen ≤ i ∧ charAt envstr split = some 61 then
    let ee ← store ee eeLen (some (some envstr))
    let ee ← store ee (eeLen + 1) (some none)
    return (ee, eeLen + 1)
  else return (ee, eeLen)

/-- `newenv_merge()`, with memory for the array -/
def newenvMerge (envp newenv : List (List UInt8)) : Option (List Slot) := do
  let ee := envp.map (fun s => some (some s)) ++ List.replicate (newenv.length + 1) none
  let ee ← store ee envp.length (some none)
  let out ← newenv.foldlM mergeOne (ee, envp.length)
  return out.1

/-! ## Environments -/

/-- The name of a variable -/
structure Name where
  bytes : List UInt8
  ne : bytes ≠ []
  eq : 61 ∉ bytes
  nul : 0 ∉ bytes
  deriving Repr

theorem name_ext {k l : Name} (h : k.bytes = l.bytes) : k = l := by
  cases k
  cases l
  simp only at h
  subst h
  rfl

instance : DecidableEq Name := fun _ _ => decidable_of_iff _ ⟨name_ext, congrArg Name.bytes⟩

structure Var where
  name : Name
  value : Text
  deriving DecidableEq, Repr

/-- `NAME=value` -/
def Var.str (v : Var) : List UInt8 := v.name.bytes ++ 61 :: v.value.bytes

/-- A call of `newenv_set()`. Without a value it removes the variable. -/
structure Call where
  name : Name
  value : Option Text
  got : Bool
  deriving DecidableEq, Repr

/-- The strings after the calls -/
def newenvOf (calls : List Call) : List (List UInt8) :=
  calls.foldl (fun newenv c => (newenvSet c.got newenv c.name.bytes (c.value.map Text.bytes)).2) []

/-- The environment that is built -/
def built (envp : List Var) (calls : List Call) : Option (List (List UInt8)) :=
  (newenvMerge (envp.map Var.str) (newenvOf calls)).bind environ

/-- The map from names to values that it is to be -/
def wanted (envp : List Var) (calls : List Call) : Name → Option Text :=
  calls.foldl (fun m c => if c.got then Function.update m c.name c.value else m)
    fun name => (envp.find? (·.name = name)).map Var.value

/-- The environment is the map, and has each name at most once. -/
def Merged (envp : List Var) (calls : List Call) : Prop :=
  ∃ vs : List Var, built envp calls = some (vs.map Var.str) ∧ (vs.map Var.name).Nodup ∧
    ∀ name value, ⟨name, value⟩ ∈ vs ↔ wanted envp calls name = some value

/-- So it is after any number of the calls. -/
def Right (envp : List Var) (calls : List Call) : Prop :=
  ∀ n ≤ calls.length, Merged envp (calls.take n)

/-- A name of the same length that is different in the last character at most -/
def Near (k : Name) (v : Var) : Prop :=
  v.name.bytes.length = k.bytes.length ∧
    v.name.bytes.take (k.bytes.length - 1) = k.bytes.take (k.bytes.length - 1)

instance (k : Name) (v : Var) : Decidable (Near k v) := inferInstanceAs (Decidable (_ ∧ _))

/-- No other variable that is near to the name stands before that of the name. -/
def Unmistaken (k : Name) (vs : List Var) : Prop := ∀ v, vs.find? (Near k ·) = some v → v.name = k

/-- The names of `envp` are distinct, and no call mistakes a variable for another. -/
def Clear (envp : List Var) (calls : List Call) : Prop :=
  (envp.map Var.name).Nodup ∧ ∀ n c, calls[n]? = some c → c.got = true →
    ∀ vs, built envp (calls.take n) = some (vs.map Var.str) → Unmistaken c.name vs

/-! ## Names -/

theorem Var.str_injective : Function.Injective Var.str := by
  intro v w h
  have hlen : v.name.bytes.length = w.name.bytes.length := by
    rw [← cstrPos_append v.name.eq v.value.bytes, ← cstrPos_append w.name.eq w.value.bytes]
    exact congrArg (cstrPos · 61) h
  obtain ⟨hname, hvalue⟩ := List.append_inj h hlen
  cases v with
  | mk name value =>
    cases w with
    | mk name' value' =>
      cases name
      cases name'
      cases value
      cases value'
      simp only [List.cons.injEq, true_and] at hname hvalue
      subst hname hvalue
      rfl

def Call.str (c : Call) : List UInt8 := c.name.bytes ++ (c.value.map Text.bytes).elim [] (61 :: ·)

section
variable {c : Call} {v : Var}

theorem Name.pos (k : Name) : 0 < k.bytes.length := List.length_pos_iff.mpr k.ne

theorem split_call (c : Call) : cstrPos c.str 61 = c.name.bytes.length := by
  rw [Call.str]
  cases c.value with
  | none =>
    change cstrPos (c.name.bytes ++ []) 61 = _
    rw [List.append_nil]
    exact cstrPos_self c.name.eq
  | some x => exact cstrPos_append c.name.eq x.bytes

theorem setting_iff (c : Call) :
    charAt c.str c.name.bytes.length = some 61 ↔ c.value ≠ none := by
  rw [Call.str]
  cases c.value with
  | none =>
    change charAt (c.name.bytes ++ []) c.name.bytes.length = some 61 ↔ _
    rw [List.append_nil, charAt_length]
    simp
  | some x =>
    apply iff_of_true _ (Option.some_ne_none x)
    apply charAt_of_drop (t := x.bytes)
    exact List.drop_left

theorem split_var (v : Var) : cstrPos v.str 61 = v.name.bytes.length :=
  cstrPos_append v.name.eq v.value.bytes

theorem str_nul (c : Call) : 0 ∉ c.str := by
  rw [Call.str]
  cases c.value with
  | none => simpa using c.name.nul
  | some x => simpa using ⟨c.name.nul, x.nul⟩

theorem take_call {n : ℕ} (c : Call) (h : n ≤ c.name.bytes.length) :
    c.str.take n = c.name.bytes.take n := List.take_append_of_le_length h

theorem take_var {n : ℕ} (v : Var) (h : n ≤ v.name.bytes.length) :
    v.str.take n = v.name.bytes.take n := List.take_append_of_le_length h

/-- The comparison of the names' first characters -/
theorem ncmp_iff {n : ℕ} (hc : n ≤ c.name.bytes.length) (hv : n ≤ v.name.bytes.length) :
    cstrNcmp n c.str v.str = 0 ↔ v.name.bytes.take n = c.name.bytes.take n := by
  have hlen : n ≤ c.str.length := by
    rw [Call.str, List.length_append]
    omega
  have hlen' : n ≤ v.str.length := by
    rw [Var.str, List.length_append]
    omega
  rw [cstrNcmp_eq_zero hlen hlen' (str_nul c), take_call c hc, take_var v hv]
  exact eq_comm

theorem near_of_name {k : Name} (h : v.name = k) : Near k v := by
  rw [← h]
  exact ⟨rfl, rfl⟩

end

/-! ## One call -/

/-- The last one takes the place of the one before the others. -/
def closeUp (post : List Var) : List Var :=
  match post.getLast? with
  | none => []
  | some w => w :: post.dropLast

theorem closeUp_nil : closeUp [] = [] := rfl

theorem closeUp_concat (post : List Var) (w : Var) : closeUp (post ++ [w]) = w :: post := by
  rw [closeUp, List.getLast?_concat, List.dropLast_concat]

theorem closeUp_perm (post : List Var) : (closeUp post).Perm post := by
  induction post using List.reverseRecOn with
  | nil => exact List.Perm.refl _
  | append_singleton post w =>
    rw [closeUp_concat]
    exact (List.perm_append_singleton w post).symm

/-- The variables after a call is merged: the first that is near is replaced or removed. -/
def advance (c : Call) (vs : List Var) : List Var :=
  match vs.dropWhile (¬ Near c.name ·) with
  | [] => vs ++ c.value.toList.map (Var.mk c.name)
  | v :: post =>
    let done := vs.takeWhile (¬ Near c.name ·)
    match c.value with
    | none => done ++ closeUp post
    | some x =>
      if v.name = c.name then done ++ ⟨c.name, x⟩ :: post
      else if post = [] then done ++ [⟨c.name, x⟩]
      else done ++ closeUp post

/-- What a call can do: `done` is what stands before the first variable that is near. -/
inductive Moves (c : Call) : List Var → List Var → Prop where
  | kept (vs : List Var) (h : ∀ v ∈ vs, ¬ Near c.name v) (hc : c.value = none) : Moves c vs vs
  | added (vs : List Var) (x : Text) (h : ∀ v ∈ vs, ¬ Near c.name v) (hc : c.value = some x) :
      Moves c vs (vs ++ [⟨c.name, x⟩])
  | replaced (done post : List Var) (v : Var) (x : Text) (h : ∀ v ∈ done, ¬ Near c.name v)
      (hv : v.name = c.name) (hc : c.value = some x) :
      Moves c (done ++ v :: post) (done ++ ⟨c.name, x⟩ :: post)
  | removed (done post : List Var) (v : Var) (h : ∀ v ∈ done, ¬ Near c.name v)
      (hv : Near c.name v) (hc : v.name ≠ c.name ∨ c.value = none)
      (hpost : c.value = none ∨ post ≠ []) : Moves c (done ++ v :: post) (done ++ closeUp post)
  | exchanged (done : List Var) (v : Var) (x : Text) (h : ∀ v ∈ done, ¬ Near c.name v)
      (hv : Near c.name v) (hne : v.name ≠ c.name) (hc : c.value = some x) :
      Moves c (done ++ [v]) (done ++ [⟨c.name, x⟩])

theorem advance_moves (c : Call) (vs : List Var) : Moves c vs (advance c vs) := by
  have hsplit := List.takeWhile_append_dropWhile (p := fun v => decide (¬ Near c.name v)) (l := vs)
  have hdone : ∀ v ∈ vs.takeWhile (¬ Near c.name ·), ¬ Near c.name v := by
    intro v hv
    simpa using List.mem_takeWhile_imp hv
  rw [advance]
  cases hdrop : vs.dropWhile (¬ Near c.name ·) with
  | nil =>
    rw [hdrop, List.append_nil] at hsplit
    rw [hsplit] at hdone
    cases hc : c.value with
    | none =>
      rw [Option.toList_none, List.map_nil, List.append_nil]
      exact .kept vs hdone hc
    | some x => exact .added vs x hdone hc
  | cons v post =>
    have hv : Near c.name v := by
      have hnot := List.head?_dropWhile_not (fun v => decide (¬ Near c.name v)) vs
      rw [hdrop] at hnot
      simpa using hnot
    rw [hdrop] at hsplit
    conv => arg 2; rw [← hsplit]
    cases hc : c.value with
    | none => exact .removed _ post v hdone hv (.inr hc) (.inl hc)
    | some x =>
      dsimp only
      split_ifs with hname hpost
      · exact .replaced _ post v x hdone hname hc
      · rw [hpost]
        exact .exchanged _ v x hdone hv hname hc
      · exact .removed _ post v hdone hv (.inl hname) (.inr hpost)

/-! ## The array of the variables -/

def slots (vs : List Var) : List Slot := vs.map fun v => some (some v.str)

section
variable {c : Call} {v : Var} {vs done post : List Var} {rest : List Slot}

@[simp] theorem slots_length (vs : List Var) : (slots vs).length = vs.length := List.length_map _

@[simp] theorem slots_append (vs ws : List Var) : slots (vs ++ ws) = slots vs ++ slots ws :=
  List.map_append

theorem slots_cons (v : Var) (vs : List Var) : slots (v :: vs) = some (some v.str) :: slots vs := rfl

theorem environ_slots (vs : List Var) (rest : List Slot) :
    environ (slots vs ++ some none :: rest) = some (vs.map Var.str) := by
  induction vs with
  | nil => rfl
  | cons v vs ih =>
    rw [slots_cons, List.cons_append, environ, ih]
    rfl

theorem store_at {ee ee' : List Slot} {x y : Slot} {i : ℕ} (h : ee.length = i) :
    store (ee ++ x :: ee') i y = some (ee ++ y :: ee') := by
  have hlt : i < (ee ++ x :: ee').length := by
    rw [List.length_append, List.length_cons]
    omega
  rw [store, if_pos hlt, ← h, List.set_append_right _ _ (le_refl _), Nat.sub_self]
  rfl

theorem get_at {ee ee' : List Slot} {x : Slot} {i : ℕ} (h : ee.length = i) :
    (ee ++ x :: ee')[i]? = some x := by
  rw [← h, List.getElem?_append_right (le_refl _), Nat.sub_self]
  rfl

theorem slots_split (done post : List Var) (v : Var) (rest : List Slot) :
    slots (done ++ v :: post) ++ rest = slots done ++ some (some v.str) :: (slots post ++ rest) := by
  rw [slots_append, slots_cons, List.append_assoc, List.cons_append]

theorem length_lt_split (done post : List Var) (v : Var) :
    done.length < (done ++ v :: post).length := by
  rw [List.length_append, List.length_cons]
  omega

theorem str_of_value {x : Text} (hc : c.value = some x) : (Var.mk c.name x).str = c.str := by
  rw [Call.str, hc]
  rfl

theorem search_pass (h : ∀ v ∈ done, ¬ Near c.name v) :
    search c.str c.name.bytes.length (slots (done ++ post) ++ rest) (done ++ post).length 0 =
      search c.str c.name.bytes.length (slots (done ++ post) ++ rest) (done ++ post).length
        done.length := by
  induction done using List.reverseRecOn generalizing post with
  | nil => rfl
  | append_singleton done v ih =>
    have hdone : ∀ v ∈ done, ¬ Near c.name v := fun v hv => h v (List.mem_append_left _ hv)
    have hv : ¬ Near c.name v := h v (List.mem_append_right _ List.mem_cons_self)
    rw [List.append_assoc, List.singleton_append, ih hdone, search]
    have hget : (slots (done ++ v :: post) ++ rest)[done.length]? = some (some (some v.str)) := by
      rw [slots_split]
      exact get_at (slots_length done)
    have hnext : (done ++ [v]).length = done.length + 1 := by
      rw [List.length_append, List.length_singleton]
    rw [if_pos (length_lt_split done post v), hget, hnext]
    simp only [Option.bind_eq_bind, Option.bind_some, Option.join_some]
    by_cases hlen : v.name.bytes.length = c.name.bytes.length
    · have hpos := c.name.pos
      have hfar : ¬ cstrNcmp (c.name.bytes.length - 1) c.str v.str = 0 := by
        rw [ncmp_iff (by omega) (by omega)]
        exact fun heq => hv ⟨hlen, heq⟩
      have hother : ¬ cstrNcmp c.name.bytes.length c.str v.str = 0 := by
        rw [ncmp_iff (le_refl _) hlen.ge]
        intro heq
        rw [List.take_length, ← hlen, List.take_length] at heq
        exact hv (near_of_name (name_ext heq))
      rw [split_var, if_pos hlen, if_neg fun h => hother h.2, if_neg hfar]
    · rw [split_var, if_neg hlen]

theorem search_end (h : ∀ v ∈ vs, ¬ Near c.name v) :
    search c.str c.name.bytes.length (slots vs ++ rest) vs.length 0 =
      some (vs.length, slots vs ++ rest, vs.length) := by
  have hpass : search c.str c.name.bytes.length (slots (vs ++ []) ++ rest) (vs ++ []).length 0 =
      search c.str c.name.bytes.length (slots (vs ++ []) ++ rest) (vs ++ []).length vs.length :=
    search_pass h
  rw [List.append_nil] at hpass
  rw [hpass, search, if_neg (Nat.lt_irrefl _)]

/-- The variable itself is found, and replaced. -/
theorem search_replace (h : ∀ v ∈ done, ¬ Near c.name v) (hv : v.name = c.name)
    (hc : c.value ≠ none) :
    search c.str c.name.bytes.length (slots (done ++ v :: post) ++ rest) (done ++ v :: post).length 0 =
      some (done.length, slots done ++ some (some c.str) :: (slots post ++ rest),
        (done ++ v :: post).length) := by
  have hsame : cstrNcmp c.name.bytes.length c.str v.str = 0 := by
    rw [ncmp_iff (le_refl _) (by rw [hv]), hv]
  rw [search_pass h, search, if_pos (length_lt_split done post v), slots_split,
    get_at (slots_length done)]
  simp only [Option.bind_eq_bind, Option.bind_some, Option.join_some]
  rw [split_var, if_pos (by rw [hv]), if_pos ⟨(setting_iff c).mpr hc, hsame⟩,
    store_at (slots_length done)]
  rfl

/-- A variable that is near is found, and removed. -/
theorem search_remove (h : ∀ v ∈ done, ¬ Near c.name v) (hv : Near c.name v)
    (hc : v.name ≠ c.name ∨ c.value = none) :
    search c.str c.name.bytes.length (slots (done ++ v :: post) ++ rest) (done ++ v :: post).length 0 =
      some (done.length, slots (done ++ closeUp post) ++ some none :: rest,
        (done ++ post).length) := by
  have hother : ¬ (charAt c.str c.name.bytes.length = some 61 ∧
      cstrNcmp c.name.bytes.length c.str v.str = 0) := by
    rintro ⟨hset, heq⟩
    rw [ncmp_iff (le_refl _) hv.1.ge, List.take_length, ← hv.1, List.take_length] at heq
    rcases hc with hne | hnone
    · exact hne (name_ext heq)
    · exact (setting_iff c).mp hset hnone
  have hnear : cstrNcmp (c.name.bytes.length - 1) c.str v.str = 0 := by
    rw [ncmp_iff (Nat.sub_le _ _) (by rw [hv.1]; exact Nat.sub_le _ _)]
    exact hv.2
  have hlast : (done ++ v :: post).length - 1 = (done ++ post).length := by
    rw [List.length_append, List.length_append, List.length_cons]
    omega
  rw [search_pass h, search, if_pos (length_lt_split done post v), slots_split,
    get_at (slots_length done)]
  simp only [Option.bind_eq_bind, Option.bind_some, Option.join_some]
  rw [split_var, if_pos hv.1, if_neg hother, if_pos hnear, hlast]
  induction post using List.reverseRecOn with
  | nil =>
    have hend : (slots done).length = (done ++ []).length := by
      rw [slots_length, List.append_nil]
    rw [closeUp_nil, List.append_nil]
    change ((slots done ++ some (some v.str) :: rest)[done.length]?.bind _) = _
    rw [get_at (slots_length done), Option.bind_some, store_at (slots_length done), Option.bind_some,
      store_at (slots_length done)]
    rfl
  | append_singleton post w =>
    have hend : (slots done ++ some (some v.str) :: slots post).length =
        (done ++ (post ++ [w])).length := by
      simp only [List.length_append, List.length_cons, slots_length, List.length_nil]
    have hend' : (slots done ++ some (some w.str) :: slots post).length =
        (done ++ (post ++ [w])).length := by
      simp only [List.length_append, List.length_cons, slots_length, List.length_nil]
    have hsplit : ∀ x : Slot, slots done ++ x :: (slots (post ++ [w]) ++ rest) =
        (slots done ++ x :: slots post) ++ some (some w.str) :: rest := by
      intro x
      simp [slots]
    rw [closeUp_concat, hsplit, get_at hend, Option.bind_some, ← hsplit,
      store_at (slots_length done), Option.bind_some, hsplit, store_at hend', slots_append, slots_cons]
    rfl

/-- One call is merged; the array needs a slot more where a variable is added. -/
theorem mergeOne_eq (c : Call) (vs : List Var) (r : Slot) (rest : List Slot) :
    ∃ rest', mergeOne (slots vs ++ some none :: r :: rest, vs.length) c.str =
        some (slots (advance c vs) ++ some none :: rest', (advance c vs).length) ∧
      rest.length ≤ rest'.length := by
  have hmoves := advance_moves c vs
  have hset := setting_iff c
  simp only [mergeOne, split_call]
  generalize advance c vs = vs' at hmoves
  cases hmoves with
  | kept _ h hc =>
    rw [search_end h]
    refine ⟨r :: rest, ?_, Nat.le_succ _⟩
    simp [hset, hc]
  | added _ x h hc =>
    rw [search_end h]
    refine ⟨rest, ?_, le_refl _⟩
    have hstr : slots vs ++ some (some c.str) :: r :: rest =
        slots (vs ++ [⟨c.name, x⟩]) ++ r :: rest := by
      rw [slots_append, slots_cons, str_of_value hc, List.append_assoc]
      rfl
    have hend : (slots (vs ++ [⟨c.name, x⟩])).length = vs.length + 1 := by
      rw [slots_length, List.length_append, List.length_singleton]
    have hgo : vs.length ≤ vs.length ∧ charAt c.str c.name.bytes.length = some 61 :=
      ⟨le_refl _, hset.mpr (by simp [hc])⟩
    simp only [Option.bind_eq_bind, Option.bind_some, if_pos hgo, store_at (slots_length vs)]
    rw [hstr, store_at hend, List.length_append, List.length_singleton]
    rfl
  | replaced done post v x h hv hc =>
    rw [search_replace h hv (by simp [hc])]
    refine ⟨r :: rest, ?_, Nat.le_succ _⟩
    have hstay : ¬ ((done ++ v :: post).length ≤ done.length ∧
        charAt c.str c.name.bytes.length = some 61) := by
      rw [List.length_append, List.length_cons]
      omega
    simp only [Option.bind_eq_bind, Option.bind_some, if_neg hstay]
    rw [slots_append, slots_cons, str_of_value hc, List.append_assoc, List.length_append, List.length_append]
    rfl
  | removed done post v h hv hc hpost =>
    rw [search_remove h hv hc]
    refine ⟨some none :: r :: rest, ?_, (Nat.le_succ _).trans (Nat.le_succ _)⟩
    have hstay : ¬ ((done ++ post).length ≤ done.length ∧
        charAt c.str c.name.bytes.length = some 61) := by
      rw [hset]
      rintro ⟨hle, hvalue⟩
      have hpos := List.length_pos_iff.mpr (hpost.resolve_left hvalue)
      rw [List.length_append] at hle
      omega
    have hlen : (done ++ closeUp post).length = (done ++ post).length := by
      rw [List.length_append, List.length_append, (closeUp_perm post).length_eq]
    simp only [Option.bind_eq_bind, Option.bind_some, if_neg hstay, hlen]
    rfl
  | exchanged done v x h hv hne hc =>
    rw [search_remove h hv (.inl hne)]
    refine ⟨r :: rest, ?_, Nat.le_succ _⟩
    have hgo : (done ++ []).length ≤ done.length ∧ charAt c.str c.name.bytes.length = some 61 :=
      ⟨by rw [List.append_nil], hset.mpr (by simp [hc])⟩
    have hend : (slots (done ++ closeUp [])).length = (done ++ []).length := by
      rw [slots_length, closeUp_nil]
    have hstr : slots (done ++ closeUp []) ++ some (some c.str) :: some none :: r :: rest =
        slots (done ++ [⟨c.name, x⟩]) ++ some none :: r :: rest := by
      rw [closeUp_nil, List.append_nil, slots_append, slots_cons, str_of_value hc, List.append_assoc]
      rfl
    have hend' : (slots (done ++ [⟨c.name, x⟩])).length = (done ++ []).length + 1 := by
      rw [slots_length, List.length_append, List.length_singleton, List.append_nil]
    simp only [Option.bind_eq_bind, Option.bind_some, if_pos hgo, store_at hend]
    rw [hstr, store_at hend', List.append_nil, List.length_append, List.length_singleton]
    rfl

/-! ## All calls -/

def entries (envp : List Var) (calls : List Call) : List Var :=
  (calls.filter (·.got)).foldl (fun vs c => advance c vs) envp

theorem merge_fold (cs : List Call) (vs : List Var) (rest : List Slot) (h : cs.length ≤ rest.length) :
    ∃ rest', (cs.map Call.str).foldlM mergeOne (slots vs ++ some none :: rest, vs.length) =
      some (slots (cs.foldl (fun vs c => advance c vs) vs) ++ some none :: rest',
        (cs.foldl (fun vs c => advance c vs) vs).length) := by
  induction cs generalizing vs rest with
  | nil => exact ⟨rest, rfl⟩
  | cons c cs ih =>
    cases rest with
    | nil => exact absurd h (Nat.not_succ_le_zero _)
    | cons r rest =>
      obtain ⟨rest', hone, hle⟩ := mergeOne_eq c vs r rest
      obtain ⟨rest'', hall⟩ := ih (advance c vs) rest' ((Nat.le_of_succ_le_succ h).trans hle)
      refine ⟨rest'', ?_⟩
      rw [List.map_cons, List.foldlM_cons, hone]
      exact hall

theorem newenvOf_eq (calls : List Call) : newenvOf calls = (calls.filter (·.got)).map Call.str := by
  have hfold : ∀ newenv, calls.foldl (fun newenv c =>
      (newenvSet c.got newenv c.name.bytes (c.value.map Text.bytes)).2) newenv =
        newenv ++ (calls.filter (·.got)).map Call.str := by
    induction calls with
    | nil => exact fun newenv => (List.append_nil newenv).symm
    | cons c calls ih =>
      intro newenv
      rw [List.foldl_cons, ih, newenvSet, if_neg c.name.ne]
      cases hgot : c.got with
      | false =>
        rw [List.filter_cons_of_neg (by simp [hgot])]
        rfl
      | true =>
        rw [List.filter_cons_of_pos hgot, List.map_cons, if_pos rfl, List.append_assoc]
        rfl
  exact (hfold []).trans (List.nil_append _)

/-- The array stays within its allocation, and ends with NULL. -/
theorem built_eq (envp : List Var) (calls : List Call) :
    built envp calls = some ((entries envp calls).map Var.str) := by
  have hstart : store ((envp.map Var.str).map (fun s => some (some s)) ++
      List.replicate ((newenvOf calls).length + 1) none) (envp.map Var.str).length (some none) =
        some (slots envp ++ some none :: List.replicate (newenvOf calls).length none) := by
    rw [List.replicate_succ]
    have hmap : (envp.map Var.str).map (fun s => some (some s)) = slots envp := List.map_map
    rw [hmap]
    apply store_at
    rw [slots_length, List.length_map]
  have hroom : (calls.filter (·.got)).length ≤
      (List.replicate (newenvOf calls).length (none : Slot)).length := by
    rw [List.length_replicate, newenvOf_eq, List.length_map]
  obtain ⟨rest, hmerge⟩ := merge_fold (calls.filter (·.got)) envp _ hroom
  rw [← newenvOf_eq] at hmerge
  simp only [built, newenvMerge, hstart, Option.bind_eq_bind, Option.bind_some]
  rw [List.length_map, hmerge, Option.bind_some]
  exact environ_slots _ rest

/-! ## Maps -/

theorem find_near (h : ∀ v ∈ done, ¬ Near c.name v) (hv : Near c.name v) :
    (done ++ v :: post).find? (Near c.name ·) = some v := by
  rw [List.find?_eq_some_iff_append]
  refine ⟨by simpa using hv, done, post, rfl, ?_⟩
  intro w hw
  simpa using h w hw

theorem names_perm {ws : List Var} (h : vs.Perm ws) :
    (vs.map Var.name).Nodup ↔ (ws.map Var.name).Nodup := (h.map Var.name).nodup_iff

/-- Of distinct names, that of one variable is not among the others. -/
theorem name_unique (h : ((done ++ v :: post).map Var.name).Nodup) {w : Var}
    (hw : w ∈ done ++ post) : w.name ≠ v.name := by
  have hperm : (done ++ v :: post).Perm (v :: (done ++ post)) := List.perm_middle
  rw [names_perm hperm, List.map_cons, List.nodup_cons] at h
  intro heq
  exact h.1 (List.mem_map.mpr ⟨w, hw, heq⟩)

/-- What a call is to do -/
def Updates (c : Call) (vs vs' : List Var) : Prop :=
  (vs'.map Var.name).Nodup ∧ ∀ name value, ⟨name, value⟩ ∈ vs' ↔
    name = c.name ∧ c.value = some value ∨ name ≠ c.name ∧ ⟨name, value⟩ ∈ vs

theorem others_mem (h : ((done ++ v :: post).map Var.name).Nodup) (w : Var) :
    w ∈ done ++ post ↔ w.name ≠ v.name ∧ w ∈ done ++ v :: post := by
  have hperm : (done ++ v :: post).Perm (v :: (done ++ post)) := List.perm_middle
  rw [hperm.mem_iff, List.mem_cons]
  constructor
  · exact fun hw => ⟨name_unique h hw, .inr hw⟩
  · rintro ⟨hne, rfl | hw⟩
    · exact absurd rfl hne
    · exact hw

theorem others_nodup (h : ((done ++ v :: post).map Var.name).Nodup) :
    ((done ++ post).map Var.name).Nodup := by
  have hperm : (done ++ v :: post).Perm (v :: (done ++ post)) := List.perm_middle
  rw [names_perm hperm, List.map_cons, List.nodup_cons] at h
  exact h.2

theorem far_name (h : ∀ v ∈ vs, ¬ Near c.name v) {w : Var} (hw : w ∈ vs) : w.name ≠ c.name :=
  fun heq => h w hw (near_of_name heq)

theorem mem_new {name : Name} {value x : Text} (hc : c.value = some x) :
    Var.mk name value = ⟨c.name, x⟩ ↔ name = c.name ∧ c.value = some value := by
  rw [hc, Var.mk.injEq, Option.some.injEq, eq_comm (a := x)]

theorem moves_updates {vs' : List Var} (h : Moves c vs vs') (hnodup : (vs.map Var.name).Nodup)
    (hclear : Unmistaken c.name vs) : Updates c vs vs' := by
  cases h with
  | kept _ hfar hc =>
    refine ⟨hnodup, fun name value => ?_⟩
    simp only [hc, reduceCtorEq, and_false, false_or]
    exact (and_iff_right_of_imp fun hmem => far_name hfar hmem).symm
  | added _ x hfar hc =>
    constructor
    · rw [List.map_append, List.map_singleton]
      apply List.nodup_append.mpr ⟨hnodup, List.nodup_singleton _, _⟩
      intro name hname name' hname'
      obtain ⟨w, hw, rfl⟩ := List.mem_map.mp hname
      rw [List.mem_singleton.mp hname']
      exact far_name hfar hw
    · intro name value
      rw [List.mem_append, List.mem_singleton, mem_new hc, or_comm]
      exact or_congr_right (and_iff_right_of_imp fun hmem => far_name hfar hmem).symm
  | replaced done post v x hfar hv hc =>
    constructor
    · rw [List.map_append, List.map_cons] at hnodup ⊢
      rwa [hv] at hnodup
    · intro name value
      have hperm : (done ++ ⟨c.name, x⟩ :: post).Perm (⟨c.name, x⟩ :: (done ++ post)) :=
        List.perm_middle
      rw [hperm.mem_iff, List.mem_cons, mem_new hc, others_mem hnodup, hv]
  | removed done post v hfar hv hc hpost =>
    have hname : v.name = c.name := hclear v (find_near hfar hv)
    have hnone : c.value = none := hc.resolve_left fun hne => hne hname
    have hperm : (done ++ closeUp post).Perm (done ++ post) := (closeUp_perm post).append_left done
    constructor
    · exact (names_perm hperm).mpr (others_nodup hnodup)
    · intro name value
      simp only [hnone, reduceCtorEq, and_false, false_or]
      rw [hperm.mem_iff, others_mem hnodup, hname]
  | exchanged done v x hfar hv hne hc => exact absurd (hclear v (find_near hfar hv)) hne

theorem moves_loses {vs' : List Var} (h : Moves c vs vs') (hnodup : (vs.map Var.name).Nodup)
    (hmistaken : ¬ Unmistaken c.name vs) : ∃ v ∈ vs, v.name ≠ c.name ∧ v ∉ vs' := by
  simp only [Unmistaken, not_forall] at hmistaken
  obtain ⟨v, hfind, hne⟩ := hmistaken
  have hnear : Near c.name v := by simpa using List.find?_some hfind
  have hmem := List.mem_of_find?_eq_some hfind
  refine ⟨v, hmem, hne, ?_⟩
  cases h with
  | kept _ hfar hc => exact absurd hnear (hfar v hmem)
  | added _ x hfar hc => exact absurd hnear (hfar v hmem)
  | replaced done post w x hfar hw hc =>
    rw [find_near hfar (near_of_name hw)] at hfind
    obtain rfl := Option.some.inj hfind
    exact absurd hw hne
  | removed done post w hfar hw hc hpost =>
    rw [find_near hfar hw] at hfind
    obtain rfl := Option.some.inj hfind
    have hperm : (done ++ closeUp post).Perm (done ++ post) := (closeUp_perm post).append_left done
    rw [hperm.mem_iff]
    exact fun hin => name_unique hnodup hin rfl
  | exchanged done w x hfar hw hne' hc =>
    rw [find_near hfar hw] at hfind
    obtain rfl := Option.some.inj hfind
    rw [List.mem_append, List.mem_singleton]
    rintro (hin | rfl)
    · exact name_unique hnodup (List.mem_append_left [] hin) rfl
    · exact hne rfl

end

/-! ## The map after the calls -/

/-- The variables are the map, each name once. -/
def Maps (vs : List Var) (m : Name → Option Text) : Prop :=
  (vs.map Var.name).Nodup ∧ ∀ name value, ⟨name, value⟩ ∈ vs ↔ m name = some value

theorem maps_start {vs : List Var} (h : (vs.map Var.name).Nodup) :
    Maps vs fun name => (vs.find? (·.name = name)).map Var.value := by
  refine ⟨h, fun name value => ?_⟩
  dsimp only
  induction vs with
  | nil => simp
  | cons v vs ih =>
    rw [List.map_cons, List.nodup_cons] at h
    by_cases hv : v.name = name
    · have hnot : (⟨name, value⟩ : Var) ∉ vs :=
        fun hin => h.1 (List.mem_map.mpr ⟨_, hin, hv.symm⟩)
      rw [List.find?_cons_of_pos (by simpa using hv), List.mem_cons, or_iff_left hnot,
        Option.map_some, Option.some.injEq]
      constructor
      · exact fun heq => congrArg Var.value heq.symm
      · intro heq
        rw [← hv, ← heq]
    · rw [List.find?_cons_of_neg (by simpa using hv), List.mem_cons, ih h.2]
      apply or_iff_right
      intro heq
      exact hv (congrArg Var.name heq).symm

theorem maps_update {c : Call} {vs vs' : List Var} {m : Name → Option Text} (hm : Maps vs m)
    (h : Updates c vs vs') : Maps vs' (Function.update m c.name c.value) := by
  refine ⟨h.1, fun name value => ?_⟩
  rw [h.2, hm.2]
  by_cases hname : name = c.name
  · rw [hname, Function.update_self]
    simp
  · rw [Function.update_of_ne hname]
    simp [hname]

theorem entries_snoc (envp : List Var) (calls : List Call) (c : Call) :
    entries envp (calls ++ [c]) =
      if c.got then advance c (entries envp calls) else entries envp calls := by
  rw [entries, entries, List.filter_append, List.foldl_append]
  cases hgot : c.got with
  | true =>
    rw [List.filter_cons_of_pos hgot]
    rfl
  | false =>
    rw [List.filter_cons_of_neg (by simp [hgot])]
    rfl

theorem wanted_snoc (envp : List Var) (calls : List Call) (c : Call) :
    wanted envp (calls ++ [c]) =
      if c.got then Function.update (wanted envp calls) c.name c.value else wanted envp calls := by
  rw [wanted, List.foldl_append, ← wanted]
  rfl

theorem take_snoc {calls : List Call} {n : ℕ} {c : Call} (h : calls[n]? = some c) :
    n < calls.length ∧ calls.take (n + 1) = calls.take n ++ [c] := by
  refine ⟨(List.getElem?_eq_some_iff.mp h).1, ?_⟩
  rw [List.take_add_one, h]
  rfl

theorem merged_iff (envp : List Var) (calls : List Call) :
    Merged envp calls ↔ Maps (entries envp calls) (wanted envp calls) := by
  rw [Merged, built_eq]
  constructor
  · rintro ⟨vs, hvs, hmaps⟩
    have heq := List.map_injective_iff.mpr Var.str_injective (Option.some.inj hvs)
    rw [heq]
    exact hmaps
  · exact fun hmaps => ⟨_, rfl, hmaps⟩

theorem built_vars {envp vs : List Var} {calls : List Call}
    (h : built envp calls = some (vs.map Var.str)) : vs = entries envp calls := by
  rw [built_eq] at h
  exact (List.map_injective_iff.mpr Var.str_injective (Option.some.inj h)).symm

/-- After any number of calls the environment is `envp` updated by them, each name once, exactly
when the names of `envp` are distinct and no call finds another variable of the name's length
and first characters before its own. -/
theorem newenv_right (envp : List Var) (calls : List Call) : Right envp calls ↔ Clear envp calls := by
  constructor
  · intro h
    refine ⟨((merged_iff envp _).mp (h 0 (Nat.zero_le _))).1, ?_⟩
    intro n c hc hgot vs hvs
    obtain ⟨hlt, htake⟩ := take_snoc hc
    have hbefore := (merged_iff envp _).mp (h n hlt.le)
    have hafter := (merged_iff envp _).mp (h (n + 1) hlt)
    rw [htake, entries_snoc, wanted_snoc, if_pos hgot, if_pos hgot] at hafter
    rw [built_vars hvs]
    by_contra hmistaken
    obtain ⟨v, hv, hne, hlost⟩ := moves_loses (advance_moves c _) hbefore.1 hmistaken
    apply hlost
    apply (hafter.2 v.name v.value).mpr
    rw [Function.update_of_ne hne]
    exact (hbefore.2 v.name v.value).mp hv
  · rintro ⟨hnodup, hclear⟩ n hn
    rw [merged_iff]
    induction n with
    | zero => exact maps_start hnodup
    | succ n ih =>
      obtain ⟨c, hc⟩ : ∃ c, calls[n]? = some c := ⟨_, List.getElem?_eq_getElem hn⟩
      obtain ⟨hlt, htake⟩ := take_snoc hc
      have hbefore := ih hlt.le
      rw [htake, entries_snoc, wanted_snoc]
      cases hgot : c.got with
      | false => exact hbefore
      | true =>
        have hunmistaken := hclear n c hc hgot _ (built_eq envp _)
        exact maps_update hbefore (moves_updates (advance_moves c _) hbefore.1 hunmistaken)

/-- `A=1` is removed where `B` is set. -/
theorem newenv_loses_A : ¬ ∀ (envp : List Var) (calls : List Call), (envp.map Var.name).Nodup →
    Merged envp calls := by
  intro h
  have hmerged := (merged_iff _ _).mp (h [⟨⟨[65], by decide, by decide, by decide⟩, ⟨[49], by decide⟩⟩]
    [⟨⟨[66], by decide, by decide, by decide⟩, some ⟨[50], by decide⟩, true⟩] (by simp))
  have hA := (hmerged.2 ⟨[65], by decide, by decide, by decide⟩ ⟨[49], by decide⟩).mpr (by decide)
  exact absurd hA (by decide)

end Perp.Newenv
