import Mathlib.Algebra.Order.Ring.Nat
import Perp.Cstr
import Perp.Inplace
import Perp.Items
import Perp.Rlimit

set_option autoImplicit false

/-!
# Limits of runtool

`do_runlimit()`, which performs the items of its argument one after the other.
-/
namespace Perp.RuntoolRlimit
open Cstr (Text charAt cstrPos)
open Inplace (store storeAll)
open Items (Run wanted Fits Reads)
open Rlimit

/-! ## Errors -/

/-- `fatal_usage()` and `fatal_syserr()`: the text, around the name or the argument that it shows -/
inductive Fatal where
  | usage (text : String) (arg : List UInt8)
  | syserr (text : String) (arg : List UInt8) (more : String)
  deriving DecidableEq, Repr

inductive Kind where
  | usage
  | syserr
  deriving DecidableEq, Repr

def Fatal.kind : Fatal → Kind
  | usage _ _ => .usage
  | syserr _ _ _ => .syserr

/-! ## Limits -/

structure SetLimit where
  r : ℕ
  rlim : Limit
  deriving DecidableEq, Repr

/-- The answers of the system, after the calls that have been done. `getrlimit()` knows the
limits that the platform has. -/
structure System (defs : List RlimitDef) where
  getrlimit : List SetLimit → ℕ → Option Limit
  setrlimit : List SetLimit → ℕ → Limit → Bool
  known : ∀ done name r, rlimitLookup defs name = some r → getrlimit done r ≠ none

variable {defs : List RlimitDef}

/-- The text of a warning goes to stderr only. -/
def runlimitSet (sys : System defs) (rdef arg : List UInt8) (done : List SetLimit) :
    Run SetLimit Fatal :=
  (rlimitLookup defs rdef).elim (.on done) fun r =>
    (sys.getrlimit done r).elim
      (.ended done (.syserr "failure getrlimit() for resource " rdef "")) fun rlim =>
        (softLimit [33] arg rlim.max).elim
          (.ended done (.usage "bad numeric argument for runlimit option -R :" arg)) fun cur =>
            if sys.setrlimit done r ⟨cur, rlim.max⟩ = true then .on (done ++ [⟨r, ⟨cur, rlim.max⟩⟩])
            else .ended done (.syserr "failure setrlimit() for resource " rdef "")

/-- The cases of the `switch`, each with the calls of `runlimit_set()` that it makes -/
def resources (r : UInt8) : Option (List Resource) :=
  if r = 97 then some [.as]
  else if r = 99 then some [.core]
  else if r = 100 then some [.data]
  else if r = 102 then some [.fsize]
  else if r = 109 then some [.as, .data, .stack, .memlock]
  else if r = 111 then some [.nofile]
  else if r = 112 then some [.nproc]
  else if r = 114 then some [.rss]
  else if r = 115 then some [.stack]
  else if r = 116 then some [.cpu]
  else none

def setEach (sys : System defs) (arg : List UInt8) : List Resource → List SetLimit →
    Run SetLimit Fatal
  | [], done => .on done
  | r :: rs, done => (runlimitSet sys r.name arg done).andThen (setEach sys arg rs)

/-- The loop of `do_runlimit()`, with the turns that it may take -/
def runlimitLoop (sys : System defs) (argRlimit : List UInt8) :
    ℕ → List UInt8 → ℕ → List SetLimit → Run SetLimit Fatal
  | 0, _, _, _ => .outside
  | fuel + 1, nbuf, arg, done =>
    Run.reading (charAt argRlimit arg) fun r =>
      if r = 0 then .on done
      else Run.reading (charAt argRlimit (arg + 1)) fun c =>
        if c ≠ 61 then .ended done (.usage "bad format in runlimit argument " argRlimit)
        else
          let s := argRlimit.drop (arg + 2)
          let tok := cstrPos s 58
          if tok > nbuf.length then .ended done (.usage "bad format in runlimit argument " argRlimit)
          else Run.reading ((storeAll nbuf 0 (s.take tok)).bind fun nbuf => store nbuf tok 0) fun nbuf =>
            Run.reading nbuf.head? fun c =>
              let run :=
                if c ≠ 0 then
                  (resources r).elim
                    (.ended done (.usage "bad format in runlimit argument " argRlimit))
                    fun rs => setEach sys (nbuf.takeWhile (· ≠ 0)) rs done
                else .on done
              run.andThen fun done =>
                Run.reading (charAt argRlimit (arg + 2 + tok)) fun c =>
                  runlimitLoop sys argRlimit fuel nbuf
                    (if c = 58 then arg + 2 + tok + 1 else arg + 2 + tok) done

/-- `do_runlimit()`, with `char nbuf[40]`. A turn passes two characters at least. -/
def doRunlimit (sys : System defs) (nbuf : {b : List UInt8 // b.length = 40})
    (argRlimit : List UInt8) : Run SetLimit Fatal :=
  runlimitLoop sys argRlimit (argRlimit.length + 1) nbuf.val 0 []

/-! ## What an item asks for -/

/-- A letter and a value: `!`, or a number that fits in 32 bits. The value is to fit in the buffer
with its NUL. -/
def limitItem : List UInt8 → Option (List Resource × Value)
  | r :: c :: v =>
    if c = 61 ∧ v.length < 40 then
      (resources r).bind fun rs => ((valueOf [33] v).filter (·.Fits)).map fun value => (rs, value)
    else none
  | _ => none

/-- The soft limit of each of the resources is set, where the platform has it. -/
def limitTo (sys : System defs) (value : Value) : List Resource → List SetLimit → Run SetLimit Kind
  | [], done => .on done
  | name :: rs, done =>
    (rlimitLookup defs name.name).elim (limitTo sys value rs done) fun r =>
      (sys.getrlimit done r).elim (.ended done .syserr) fun rlim =>
        if sys.setrlimit done r ⟨value.soft rlim.max, rlim.max⟩ = true then
          limitTo sys value rs (done ++ [⟨r, ⟨value.soft rlim.max, rlim.max⟩⟩])
        else .ended done .syserr

/-- The items are performed in their order, up to a usage error at the first that is
ill-formed, whatever the system answers. -/
def RunlimitRight (defs : List RlimitDef) (s : Text) : Prop :=
  ∀ (sys : System defs) (nbuf : {b : List UInt8 // b.length = 40}),
    (doRunlimit sys nbuf s.bytes).seen Fatal.kind =
      wanted limitItem (fun i => limitTo sys i.2 i.1) .usage (s.bytes.splitOn 58) []

/-- What is refused at once, where nothing is done before: behind items without a value, or
for which the platform has no limit, an item that is refused -/
inductive LimitRefused (defs : List RlimitDef) : List UInt8 → Prop where
  | short (r : UInt8) : LimitRefused defs [r]
  | equals (r : UInt8) {c : UInt8} (v : List UInt8) (hc : c ≠ 61) : LimitRefused defs (r :: c :: v)
  | long (r : UInt8) {v : List UInt8} (hv : 40 < cstrPos v 58) : LimitRefused defs (r :: 61 :: v)
  | letter {r : UInt8} {v : List UInt8} (hv : 0 < cstrPos v 58) (hshort : cstrPos v 58 < 40)
      (hr : resources r = none) : LimitRefused defs (r :: 61 :: v)
  | value {r : UInt8} {v : List UInt8} {rs : List Resource} (hv : 0 < cstrPos v 58)
      (hshort : cstrPos v 58 < 40) (hr : resources r = some rs)
      (hsome : ∃ name ∈ rs, rlimitLookup defs name.name ≠ none)
      (hbad : Unscanned [33] (v.take (cstrPos v 58))) : LimitRefused defs (r :: 61 :: v)
  | empty (r : UInt8) {v : List UInt8} (hv : cstrPos v 58 = 0)
      (hrest : LimitRefused defs (v.drop 1)) : LimitRefused defs (r :: 61 :: v)
  | absent {r : UInt8} {v : List UInt8} {rs : List Resource} (hv : 0 < cstrPos v 58)
      (hshort : cstrPos v 58 < 40) (hr : resources r = some rs)
      (hnone : ∀ name ∈ rs, rlimitLookup defs name.name = none)
      (hrest : LimitRefused defs (v.drop (cstrPos v 58 + 1))) : LimitRefused defs (r :: 61 :: v)

/-! ## Values -/

variable {sys : System defs} {v s : List UInt8} {value : Value} {rs : List Resource}
  {done done' : List SetLimit} {r c : UInt8}

def Says (v : List UInt8) (value : Value) : Prop := valueOf [33] v = some value ∧ value.Fits

theorem Says.scanned (h : Says v value) : ¬ Unscanned [33] v ∧ scanned [33] v = value :=
  scanned_of_valueOf (List.forall_mem_singleton.mpr (by decide)) h.1 h.2

theorem Says.ne_nil (h : Says v value) : v ≠ [] := by
  rintro rfl
  have hnone := h.1
  rw [valueOf_nil] at hnone
  cases hnone

theorem setEach_scanned (h : ¬ Unscanned [33] v) (rs : List Resource) (done : List SetLimit) :
    (setEach sys v rs done).seen Fatal.kind = limitTo sys (scanned [33] v) rs done := by
  induction rs generalizing done with
  | nil => rfl
  | cons name rs ih =>
    rw [setEach, runlimitSet, limitTo]
    cases rlimitLookup defs name.name with
    | none => exact ih done
    | some r =>
      simp only [Option.elim_some]
      cases sys.getrlimit done r with
      | none => rfl
      | some rlim =>
        simp only [Option.elim_some, softLimit_scanned h]
        by_cases hset : sys.setrlimit done r ⟨(scanned [33] v).soft rlim.max, rlim.max⟩ = true
        · rw [if_pos hset, if_pos hset]
          exact ih _
        · rw [if_neg hset, if_neg hset]
          rfl

/-- The value is looked at for the first of the limits that the platform has. -/
theorem setEach_unscanned (h : Unscanned [33] v)
    (hsome : ∃ name ∈ rs, rlimitLookup defs name.name ≠ none) (done : List SetLimit) :
    (setEach sys v rs done).seen Fatal.kind = .ended done .usage := by
  induction rs with
  | nil =>
    obtain ⟨name, hmem, -⟩ := hsome
    cases hmem
  | cons name rs ih =>
    rw [setEach, runlimitSet]
    cases hlookup : rlimitLookup defs name.name with
    | none =>
      apply ih
      obtain ⟨other, hmem, hother⟩ := hsome
      rcases List.mem_cons.mp hmem with rfl | hmem
      · exact absurd hlookup hother
      · exact ⟨other, hmem, hother⟩
    | some r =>
      obtain ⟨rlim, hrlim⟩ := Option.ne_none_iff_exists'.mp (sys.known done name.name r hlookup)
      simp only [Option.elim_some, hrlim, softLimit_unscanned h]
      rfl

theorem setEach_absent (hnone : ∀ name ∈ rs, rlimitLookup defs name.name = none)
    (done : List SetLimit) : setEach sys v rs done = .on done := by
  induction rs with
  | nil => rfl
  | cons name rs ih =>
    rw [setEach, runlimitSet, hnone name List.mem_cons_self]
    exact ih fun other hmem => hnone other (List.mem_cons_of_mem name hmem)

/-! ## The loop of `do_runlimit()` -/

/-- An item without its letter's `=`, as it is performed -/
def treatValue (sys : System defs) (r : UInt8) (v : List UInt8) (done : List SetLimit) :
    Run SetLimit Kind :=
  if v = [] then .on done
  else (resources r).elim (.ended done .usage) fun rs => (setEach sys v rs done).seen Fatal.kind

/-- The loop, over what is left of the argument -/
def treatLimits (sys : System defs) : List UInt8 → List SetLimit → Run SetLimit Kind
  | [], done => .on done
  | [_], done => .ended done .usage
  | r :: c :: v, done =>
    if c ≠ 61 then .ended done .usage
    else if cstrPos v 58 = 40 then .outside
    else if 40 < cstrPos v 58 then .ended done .usage
    else (treatValue sys r (v.take (cstrPos v 58)) done).andThen fun done =>
      treatLimits sys (v.drop (cstrPos v 58 + 1)) done
termination_by s => s.length

theorem switch_seen {xs : List UInt8} (hnul : 0 ∉ xs) (text : String) (arg post : List UInt8)
    (next : List SetLimit → Run SetLimit Fatal) :
    (Run.reading (xs ++ 0 :: post).head? fun c =>
      (if c ≠ 0 then (resources r).elim (.ended done (.usage text arg))
          fun rs => setEach sys ((xs ++ 0 :: post).takeWhile (· ≠ 0)) rs done
        else .on done).andThen next).seen Fatal.kind =
      (treatValue sys r xs done).andThen fun done => (next done).seen Fatal.kind := by
  rw [Cstr.takeWhile_nul hnul, treatValue]
  cases xs with
  | nil => rfl
  | cons x xs =>
    have hx : x ≠ 0 := fun hx => hnul (List.mem_cons.mpr (.inl hx.symm))
    rw [List.cons_append, List.head?_cons, Run.reading, Option.elim_some, if_pos hx,
      if_neg (List.cons_ne_nil x xs), Run.seen_andThen]
    cases resources r <;> rfl

theorem drop_of_drop {i : ℕ} {t : List UInt8} (h : s.drop i = c :: t) : s.drop (i + 1) = t := by
  rw [← List.tail_drop, h, List.tail_cons]

theorem charAt_of_nil {i : ℕ} (hi : i ≤ s.length) (h : s.drop i = []) : charAt s i = some 0 := by
  obtain rfl : i = s.length := Nat.le_antisymm hi (List.drop_eq_nil_iff.mp h)
  exact Cstr.charAt_length s

theorem le_of_drop {i : ℕ} {t : List UInt8} (h : s.drop i = c :: t) : i + 1 ≤ s.length := by
  by_contra hlt
  rw [List.drop_eq_nil_of_le (by omega)] at h
  cases h

theorem reading_next {ω ε : Type} {j : ℕ} (hdrop : s.drop j = v) (hj : j ≤ s.length)
    (next : ℕ → Run ω ε) : ∃ k,
      (Run.reading (charAt s (j + cstrPos v 58)) fun c =>
        next (if c = 58 then j + cstrPos v 58 + 1 else j + cstrPos v 58)) = next k ∧
      k ≤ s.length ∧ j ≤ k ∧ s.drop k = v.drop (cstrPos v 58 + 1) := by
  have hrest : s.drop (j + cstrPos v 58) = v.drop (cstrPos v 58) := by
    rw [← List.drop_drop, hdrop]
  by_cases hnil : v.drop (cstrPos v 58) = []
  · have hend : j + cstrPos v 58 ≤ s.length := by
      have hpos := Cstr.cstrPos_le v 58
      have hlength := congrArg List.length hdrop
      rw [List.length_drop] at hlength
      omega
    refine ⟨j + cstrPos v 58, ?_, hend, Nat.le_add_right _ _, ?_⟩
    · rw [charAt_of_nil hend (hrest.trans hnil), Run.reading, Option.elim_some, if_neg (by decide)]
    · rw [hrest, ← List.tail_drop, hnil]
      rfl
  · obtain ⟨t, ht⟩ := Cstr.drop_cstrPos hnil
    rw [ht] at hrest
    refine ⟨j + cstrPos v 58 + 1, ?_, le_of_drop hrest, by omega, ?_⟩
    · rw [Cstr.charAt_of_drop hrest, Run.reading, Option.elim_some, if_pos rfl]
    · rw [drop_of_drop hrest, drop_of_drop ht]

theorem runlimitLoop_seen {fuel i : ℕ} {nbuf : List UInt8} (hnul : 0 ∉ s) (hlen : nbuf.length = 40)
    (hi : i ≤ s.length) (hfuel : s.length < i + fuel) (done : List SetLimit) :
    (runlimitLoop sys s fuel nbuf i done).seen Fatal.kind = treatLimits sys (s.drop i) done := by
  induction fuel generalizing nbuf i done with
  | zero => omega
  | succ fuel ih =>
    rw [runlimitLoop]
    cases hdrop : s.drop i with
    | nil =>
      rw [charAt_of_nil hi hdrop, treatLimits]
      rfl
    | cons r t =>
      have hr : r ≠ 0 := by
        rintro rfl
        exact hnul (List.mem_of_mem_drop (hdrop ▸ List.mem_cons_self))
      have hdrop₁ := drop_of_drop hdrop
      rw [Cstr.charAt_of_drop hdrop, Run.reading, Option.elim_some, if_neg hr]
      cases t with
      | nil =>
        rw [charAt_of_nil (le_of_drop hdrop) hdrop₁, treatLimits]
        rfl
      | cons c v =>
        have hdrop₂ : s.drop (i + 2) = v := drop_of_drop hdrop₁
        have hle : i + 2 ≤ s.length := le_of_drop hdrop₁
        have hvnul : 0 ∉ v := fun hmem => hnul (List.mem_of_mem_drop (hdrop₂ ▸ hmem))
        rw [Cstr.charAt_of_drop hdrop₁, Run.reading, Option.elim_some, treatLimits]
        by_cases hc : c ≠ 61
        · rw [if_pos hc, if_pos hc]
          rfl
        · rw [if_neg hc, if_neg hc]
          simp only [hdrop₂, hlen, gt_iff_lt]
          have htake : (v.take (cstrPos v 58)).length = cstrPos v 58 := by
            have hpos := Cstr.cstrPos_le v 58
            rw [List.length_take]
            omega
          by_cases hlong : 40 < cstrPos v 58
          · rw [if_pos hlong, if_neg (by omega), if_pos hlong]
            rfl
          · rw [if_neg hlong]
            by_cases hfull : cstrPos v 58 = 40
            · have hout := Inplace.fill_outside nbuf (v.take (cstrPos v 58)) 0 (by omega)
              rw [htake] at hout
              rw [if_pos hfull, hout]
              rfl
            · have htnul : 0 ∉ v.take (cstrPos v 58) := fun hmem => hvnul (List.mem_of_mem_take hmem)
              obtain ⟨post, hfill, hpost⟩ :=
                Inplace.fill nbuf (v.take (cstrPos v 58)) 0 (by omega)
              rw [htake] at hfill
              rw [if_neg hfull, if_neg hlong, hfill, Run.reading, Option.elim_some,
                switch_seen htnul]
              congr 1
              funext done
              obtain ⟨k, hnext, hle, hge, hk⟩ := reading_next hdrop₂ hle
                fun k => runlimitLoop sys s fuel (v.take (cstrPos v 58) ++ 0 :: post) k done
              rw [hnext, ih (hpost.trans hlen) hle (by omega), hk]

/-! ## The items of `do_runlimit()` -/

theorem limitItem_some {item : List UInt8} (h : limitItem item = some (rs, value)) :
    ∃ r v, item = r :: 61 :: v ∧ v.length < 40 ∧ resources r = some rs ∧ Says v value := by
  cases item with
  | nil => cases h
  | cons r t =>
    cases t with
    | nil => cases h
    | cons c v =>
      rw [limitItem] at h
      by_cases hform : c = 61 ∧ v.length < 40
      · rw [if_pos hform] at h
        obtain ⟨rs', hr, hvalue⟩ := Option.bind_eq_some_iff.mp h
        obtain ⟨value', hv, heq⟩ := Option.map_eq_some_iff.mp hvalue
        cases heq
        obtain ⟨hv, hfits⟩ := Option.filter_eq_some_iff.mp hv
        exact ⟨r, v, by rw [hform.1], hform.2, hr, hv, of_decide_eq_true hfits⟩
      · rw [if_neg hform] at h
        cases h

theorem treatLimits_item (sys : System defs) {tail : List UInt8} (hsep : 58 ∉ v) (hshort : v.length < 40)
    (hr : resources r = some rs) (hvalue : Says v value)
    (htail : tail = [] ∨ ∃ rest, tail = 58 :: rest) (done : List SetLimit) :
    treatLimits sys (r :: 61 :: (v ++ tail)) done =
      (limitTo sys value rs done).andThen fun done => treatLimits sys (tail.drop 1) done := by
  obtain ⟨hscan, hval⟩ := hvalue.scanned
  have hpos : cstrPos (v ++ tail) 58 = v.length := by
    rcases htail with rfl | ⟨rest, rfl⟩
    · rw [List.append_nil, Cstr.cstrPos_self hsep]
    · exact Cstr.cstrPos_append hsep rest
  have hdrop : (v ++ tail).drop (v.length + 1) = tail.drop 1 := by
    rw [← List.drop_drop, List.drop_left]
  rw [treatLimits, if_neg (by decide), hpos, if_neg (by omega), if_neg (by omega), List.take_left,
    hdrop, treatValue, if_neg hvalue.ne_nil, hr, Option.elim_some, setEach_scanned hscan, hval]

theorem treatLimits_nil (sys : System defs) : treatLimits sys [] = .on := by
  funext done
  rw [treatLimits]

theorem limitTo_absent (hnone : ∀ name ∈ rs, rlimitLookup defs name.name = none) (value : Value)
    (done : List SetLimit) : limitTo sys value rs done = .on done := by
  induction rs with
  | nil => rfl
  | cons name rs ih =>
    rw [limitTo, hnone name List.mem_cons_self]
    exact ih fun other hmem => hnone other (List.mem_cons_of_mem name hmem)

theorem first_item (s : List UInt8) : 58 ∉ s.take (cstrPos s 58) ∧
    (s = s.take (cstrPos s 58) ∨ ∃ rest, s = s.take (cstrPos s 58) ++ 58 :: rest) := by
  constructor
  · exact Cstr.not_mem_take_cstrPos s 58
  · have hsplit := List.take_append_drop (cstrPos s 58) s
    by_cases hnil : s.drop (cstrPos s 58) = []
    · rw [hnil, List.append_nil] at hsplit
      exact .inl hsplit.symm
    · obtain ⟨rest, hrest⟩ := Cstr.drop_cstrPos hnil
      rw [hrest] at hsplit
      exact .inr ⟨rest, hsplit.symm⟩

theorem first_limit (h : limitItem ((r :: c :: v).take (cstrPos (r :: c :: v) 58)) = some (rs, value)) :
    r ≠ 58 ∧ c = 61 ∧ cstrPos v 58 < 40 ∧ resources r = some rs ∧
      Says (v.take (cstrPos v 58)) value := by
  obtain ⟨r', v', hitem, hlen, hr, hv⟩ := limitItem_some h
  by_cases hsep : r = 58
  · rw [hsep, cstrPos, List.findIdx_cons, beq_self_eq_true, cond_true, List.take_zero] at hitem
    cases hitem
  · by_cases hsep' : c = 58
    · rw [hsep', cstrPos, List.findIdx_cons, beq_false_of_ne hsep, cond_false, List.findIdx_cons,
        beq_self_eq_true, cond_true] at hitem
      cases hitem
    · have hpos : cstrPos (r :: c :: v) 58 = cstrPos v 58 + 1 + 1 := by
        rw [cstrPos, List.findIdx_cons, beq_false_of_ne hsep, cond_false, List.findIdx_cons,
          beq_false_of_ne hsep', cond_false, cstrPos]
      rw [hpos, List.take_succ_cons, List.take_succ_cons] at hitem
      obtain ⟨rfl, htail⟩ := List.cons.inj hitem
      obtain ⟨rfl, rfl⟩ := List.cons.inj htail
      have hle := Cstr.cstrPos_le v 58
      rw [List.length_take] at hlen
      exact ⟨hsep, rfl, by omega, hr, hv⟩

theorem first_limit_none (h : ∀ rs value, c = 61 → cstrPos v 58 < 40 → resources r = some rs →
      Says (v.take (cstrPos v 58)) value → False) (done : List SetLimit) :
    wanted limitItem (fun i => limitTo sys i.2 i.1) .usage ((r :: c :: v).splitOn 58) done =
      .ended done .usage := by
  obtain ⟨hsep, hs⟩ := first_item (r :: c :: v)
  apply Items.wanted_bad hsep hs
  cases hitem : limitItem ((r :: c :: v).take (cstrPos (r :: c :: v) 58)) with
  | none => rfl
  | some i =>
    obtain ⟨-, hc, hshort, hr, hv⟩ := first_limit hitem
    exact absurd hv (h i.1 i.2 hc hshort hr)

theorem limits_refused (h : LimitRefused defs s) (done : List SetLimit) :
    treatLimits sys s done = .ended done .usage ∧
      wanted limitItem (fun i => limitTo sys i.2 i.1) .usage (s.splitOn 58) done =
        .ended done .usage := by
  induction h with
  | short r =>
    constructor
    · rw [treatLimits]
    · obtain ⟨hsep, hs⟩ := first_item [r]
      apply Items.wanted_bad hsep hs
      cases cstrPos [r] 58 with
      | zero => rfl
      | succ n =>
        rw [List.take_succ_cons, List.take_nil]
        rfl
  | equals r v hc =>
    constructor
    · rw [treatLimits, if_pos hc]
    · exact first_limit_none (fun rs value hc' _ _ _ => hc hc') done
  | @long r v hv =>
    constructor
    · rw [treatLimits, if_neg (by decide), if_neg (by omega), if_pos hv]
    · apply first_limit_none
      intro rs value _ hshort
      omega
  | @letter r v hv hshort hr =>
    have hne : v.take (cstrPos v 58) ≠ [] := by
      rw [ne_eq, Cstr.take_cstrPos_eq_nil]
      omega
    constructor
    · rw [treatLimits, if_neg (by decide), if_neg (by omega), if_neg (by omega), treatValue,
        if_neg hne, hr]
      rfl
    · apply first_limit_none
      intro rs value _ _ hr'
      rw [hr] at hr'
      cases hr'
  | @value r v rs hv hshort hr hsome hbad =>
    have hne : v.take (cstrPos v 58) ≠ [] := by
      rw [ne_eq, Cstr.take_cstrPos_eq_nil]
      omega
    constructor
    · rw [treatLimits, if_neg (by decide), if_neg (by omega), if_neg (by omega), treatValue,
        if_neg hne, hr, Option.elim_some, setEach_unscanned hbad hsome]
      rfl
    · apply first_limit_none
      intro rs value _ _ _ hvalue
      exact hvalue.scanned.1 hbad
  | @empty r v hv hrest ih =>
    constructor
    · rw [treatLimits, if_neg (by decide), if_neg (by omega), if_neg (by omega), hv, treatValue,
        List.take_zero, if_pos rfl, Nat.zero_add]
      exact ih.1
    · apply first_limit_none
      intro rs value _ _ _ hvalue
      rw [hv, List.take_zero] at hvalue
      exact hvalue.ne_nil rfl
  | @absent r v rs hv hshort hr hnone hrest ih =>
    have hne : v.take (cstrPos v 58) ≠ [] := by
      rw [ne_eq, Cstr.take_cstrPos_eq_nil]
      omega
    constructor
    · rw [treatLimits, if_neg (by decide), if_neg (by omega), if_neg (by omega), treatValue,
        if_neg hne, hr, Option.elim_some, setEach_absent hnone]
      exact ih.1
    · have hmore : v.drop (cstrPos v 58) ≠ [] := by
        intro hnil
        rw [← List.tail_drop, hnil] at hrest
        cases hrest
      obtain ⟨rest, htail⟩ := Cstr.drop_cstrPos hmore
      have hsplit : r :: 61 :: v = r :: 61 :: v.take (cstrPos v 58) ++ 58 :: rest := by
        rw [List.cons_append, List.cons_append, ← htail, List.take_append_drop]
      have hsep : 58 ∉ r :: 61 :: v.take (cstrPos v 58) := by
        rw [List.mem_cons, List.mem_cons, not_or, not_or]
        refine ⟨?_, by decide, Cstr.not_mem_take_cstrPos v 58⟩
        rintro rfl
        have hnone : resources 58 = none := by decide
        rw [hnone] at hr
        cases hr
      rw [hsplit, Items.wanted_more hsep]
      cases hitem : limitItem (r :: 61 :: v.take (cstrPos v 58)) with
      | none => rfl
      | some i =>
        obtain ⟨r', v', heq, -, hr', -⟩ := limitItem_some hitem
        obtain ⟨rfl, -⟩ := List.cons.inj heq
        obtain rfl : rs = i.1 := Option.some.inj (hr.symm.trans hr')
        rw [Option.elim_some, limitTo_absent hnone, ← drop_of_drop htail]
        exact ih.2

/-! ## A system that does everything -/

def obliging (defs : List RlimitDef) : System defs where
  getrlimit _ _ := some ⟨0, 0⟩
  setrlimit _ _ _ := true
  known _ _ _ _ := Option.some_ne_none _

theorem limitTo_obliging (defs : List RlimitDef) (value : Value) (rs : List Resource)
    (done : List SetLimit) :
    ∃ done', limitTo (obliging defs) value rs done = .on done' ∧ done.length ≤ done'.length ∧
      ((∃ name ∈ rs, rlimitLookup defs name.name ≠ none) → done.length < done'.length) := by
  induction rs generalizing done with
  | nil => exact ⟨done, rfl, Nat.le_refl _, fun ⟨name, hmem, _⟩ => absurd hmem List.not_mem_nil⟩
  | cons name rs ih =>
    rw [limitTo]
    cases hlookup : rlimitLookup defs name.name with
    | none =>
      obtain ⟨done', hrun, hle, hlt⟩ := ih done
      refine ⟨done', hrun, hle, ?_⟩
      rintro ⟨other, hmem, hother⟩
      rcases List.mem_cons.mp hmem with rfl | hmem
      · exact absurd hlookup hother
      · exact hlt ⟨other, hmem, hother⟩
    | some r =>
      obtain ⟨done', hrun, hle, -⟩ := ih (done ++ [⟨r, ⟨value.soft 0, 0⟩⟩])
      rw [List.length_append, List.length_singleton] at hle
      exact ⟨done', hrun, by omega, fun _ => hle⟩

theorem treatValue_cases (defs : List RlimitDef) (hv : v ≠ []) (r : UInt8) (done : List SetLimit) :
    (treatValue (obliging defs) r v done = .ended done .usage ∧
        (resources r = none ∨ ∃ rs, resources r = some rs ∧
          (∃ name ∈ rs, rlimitLookup defs name.name ≠ none) ∧ Unscanned [33] v)) ∨
      (treatValue (obliging defs) r v done = .on done ∧
        ∃ rs, resources r = some rs ∧ ∀ name ∈ rs, rlimitLookup defs name.name = none) ∨
      ∃ done', treatValue (obliging defs) r v done = .on done' ∧ done.length < done'.length := by
  rw [treatValue, if_neg hv]
  cases hr : resources r with
  | none => exact .inl ⟨rfl, .inl rfl⟩
  | some rs =>
    by_cases hsome : ∃ name ∈ rs, rlimitLookup defs name.name ≠ none
    · by_cases hbad : Unscanned [33] v
      · exact .inl ⟨setEach_unscanned hbad hsome done, .inr ⟨rs, rfl, hsome, hbad⟩⟩
      · obtain ⟨done', hrun, -, hlt⟩ := limitTo_obliging defs (scanned [33] v) rs done
        exact .inr (.inr ⟨done', (setEach_scanned hbad rs done).trans hrun, hlt hsome⟩)
    · simp only [not_exists, not_and, not_not] at hsome
      refine .inr (.inl ⟨?_, rs, rfl, hsome⟩)
      rw [Option.elim_some, setEach_absent hsome]
      rfl

theorem treatLimits_length {kind : Kind}
    (h : treatLimits (obliging defs) s done = .ended done' kind) : done.length ≤ done'.length := by
  induction hlen : s.length using Nat.strongRecOn generalizing s done with
  | ind n ih =>
    cases s with
    | nil =>
      rw [treatLimits] at h
      cases h
    | cons r t =>
      cases t with
      | nil =>
        rw [treatLimits] at h
        cases h
        exact Nat.le_refl _
      | cons c v =>
        rw [treatLimits] at h
        by_cases hc : c ≠ 61
        · rw [if_pos hc] at h
          cases h
          exact Nat.le_refl _
        · rw [if_neg hc] at h
          by_cases hfull : cstrPos v 58 = 40
          · rw [if_pos hfull] at h
            cases h
          · rw [if_neg hfull] at h
            by_cases hlong : 40 < cstrPos v 58
            · rw [if_pos hlong] at h
              cases h
              exact Nat.le_refl _
            · have hshort : (v.drop (cstrPos v 58 + 1)).length < n := by
                rw [← hlen, List.length_drop, List.length_cons, List.length_cons]
                omega
              rw [if_neg hlong] at h
              by_cases hnil : v.take (cstrPos v 58) = []
              · rw [hnil, treatValue, if_pos rfl] at h
                exact ih _ hshort h rfl
              · rcases treatValue_cases defs hnil r done with ⟨hrun, -⟩ | ⟨hrun, -⟩ |
                  ⟨done₁, hrun, hlt⟩ <;> rw [hrun] at h
                · cases h
                  exact Nat.le_refl _
                · exact ih _ hshort h rfl
                · exact hlt.le.trans (ih _ hshort h rfl)

/-- What is refused with nothing done is as it is to be. -/
theorem refused_of_treat (h : treatLimits (obliging defs) s done = .ended done .usage) :
    LimitRefused defs s := by
  induction hlen : s.length using Nat.strongRecOn generalizing s with
  | ind n ih =>
    cases s with
    | nil =>
      rw [treatLimits] at h
      cases h
    | cons r t =>
      cases t with
      | nil => exact .short r
      | cons c v =>
        rw [treatLimits] at h
        by_cases hc : c ≠ 61
        · exact .equals r v hc
        · obtain rfl : c = 61 := not_not.mp hc
          rw [if_neg hc] at h
          by_cases hfull : cstrPos v 58 = 40
          · rw [if_pos hfull] at h
            cases h
          · rw [if_neg hfull] at h
            by_cases hlong : 40 < cstrPos v 58
            · exact .long r hlong
            · have hshort : (v.drop (cstrPos v 58 + 1)).length < n := by
                rw [← hlen, List.length_drop, List.length_cons, List.length_cons]
                omega
              have hlt : cstrPos v 58 < 40 := by omega
              rw [if_neg hlong] at h
              by_cases hpos : cstrPos v 58 = 0
              · rw [hpos, List.take_zero, treatValue, if_pos rfl] at h
                rw [hpos] at hshort
                exact .empty r hpos (ih _ hshort h rfl)
              · have hnil := mt (Cstr.take_cstrPos_eq_nil v 58).mp hpos
                have hpos' : 0 < cstrPos v 58 := Nat.pos_of_ne_zero hpos
                rcases treatValue_cases defs hnil r done with
                  ⟨hrun, hr | ⟨rs, hr, hsome, hbad⟩⟩ | ⟨hrun, rs, hr, hnone⟩ | ⟨done₁, hrun, hgrown⟩
                · exact .letter hpos' hlt hr
                · exact .value hpos' hlt hr hsome hbad
                · rw [hrun] at h
                  exact .absent hpos' hlt hr hnone (ih _ hshort h rfl)
                · rw [hrun] at h
                  have hle := treatLimits_length h
                  omega

theorem reads_limits (sys : System defs) : Reads 58 limitItem (fun i => limitTo sys i.2 i.1) .usage
    (LimitRefused defs) (treatLimits sys) := by
  constructor
  · intro item i hsep hitem
    obtain ⟨r, v, rfl, hlen, hr, hv⟩ := limitItem_some hitem
    have hvsep : 58 ∉ v := fun hmem => hsep (List.mem_cons_of_mem r (List.mem_cons_of_mem 61 hmem))
    funext done
    have hrun := treatLimits_item sys hvsep hlen hr hv (.inl rfl) done
    rw [List.append_nil] at hrun
    rw [hrun, List.drop_nil, treatLimits_nil]
    exact Run.andThen_on _
  · intro item i rest hsep hitem done
    obtain ⟨r, v, rfl, hlen, hr, hv⟩ := limitItem_some hitem
    have hvsep : 58 ∉ v := fun hmem => hsep (List.mem_cons_of_mem r (List.mem_cons_of_mem 61 hmem))
    exact treatLimits_item sys hvsep hlen hr hv (.inr ⟨rest, rfl⟩) done
  · exact fun hrest done => limits_refused hrest done

theorem doRunlimit_seen (sys : System defs) (nbuf : {b : List UInt8 // b.length = 40}) (s : Text) :
    (doRunlimit sys nbuf s.bytes).seen Fatal.kind = treatLimits sys s.bytes [] :=
  runlimitLoop_seen s.nul nbuf.property (Nat.zero_le _) (by omega) []

theorem runlimitRight_iff (defs : List RlimitDef) (s : Text) :
    RunlimitRight defs s ↔ Fits 58 limitItem (LimitRefused defs) s.bytes := by
  constructor
  · intro h
    have hrun := h (obliging defs) ⟨List.replicate 40 0, List.length_replicate⟩
    rw [doRunlimit_seen] at hrun
    apply (reads_limits (obliging defs)).fits _ _ [] hrun
    · intro i done
      obtain ⟨done', hdone, -⟩ := limitTo_obliging defs i.2 i.1 done
      exact ⟨done', hdone⟩
    · exact fun _ _ _ done hended => refused_of_treat hended
  · intro h sys nbuf
    rw [doRunlimit_seen]
    exact (reads_limits sys).treat_eq h []

end Perp.RuntoolRlimit
