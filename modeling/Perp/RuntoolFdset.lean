import Perp.RuntoolRlimit

set_option autoImplicit false

/-!
# Descriptors of runtool

`do_fdset()`, which performs the items of its argument one after the other.
-/
namespace Perp.RuntoolFdset
open Cstr (Text charAt cstrPos)
open Inplace (store storeAll)
open Items (Run wanted Fits Reads)
open RuntoolRlimit

/-! ## The function -/

/-- How a file is opened: `O_RDONLY`, or `O_WRONLY | O_CREAT | O_APPEND` with mode 0600, with
`O_TRUNC` or without it -/
inductive Mode where
  | input
  | output
  | append
  deriving DecidableEq, Repr

inductive FdCall where
  | open (path : List UInt8) (mode : Mode)
  | getfl (fd : ℕ)
  | close (fd : ℕ)
  | dupfd (from_ to_ : ℕ)
  deriving DecidableEq, Repr

/-- The return of a call, after those that have been made; none is -1. -/
abbrev FdSystem := List FdCall → FdCall → Option ℕ

/-- Whether it returns 0, and the calls -/
def fdDupe (sys : FdSystem) (to_ from_ : ℕ) (done : List FdCall) : Bool × List FdCall :=
  if to_ = from_ then (true, done)
  else if sys done (.getfl from_) = none then (false, done ++ [.getfl from_])
  else
    let done := done ++ [.getfl from_, .close to_]
    ((sys done (.dupfd from_ to_)).isSome, done ++ [.dupfd from_ to_])

/-- As `fd_dupe()`, and the other descriptor is closed behind it. -/
def fdMove (sys : FdSystem) (to_ from_ : ℕ) (done : List FdCall) : Bool × List FdCall :=
  if to_ = from_ then (true, done)
  else
    let out := fdDupe sys to_ from_ done
    if out.1 = true then (true, out.2 ++ [.close from_]) else out

def devNull : List UInt8 := [47, 100, 101, 118, 47, 110, 117, 108, 108]

/-- The cases of the `switch`; the caller has no other operator. -/
def modeOf (op : UInt8) : Mode := if op = 60 then .input else if op = 62 then .output else .append

def openText (mode : Mode) : String :=
  if mode = .input then " for input redirection" else " for output redirection"

/-- The file is opened, and its descriptor moved. -/
def redirectTo (sys : FdSystem) (fd : ℕ) (mode : Mode) (target : List UInt8) (done : List FdCall) :
    Run FdCall Fatal :=
  let call := .open target mode
  (sys done call).elim
    (.ended (done ++ [call]) (.syserr "failure opening " target (openText mode))) fun fdx =>
      let out := fdMove sys fd fdx (done ++ [call])
      if out.1 = true then .on out.2
      else .ended out.2 (.syserr "failure duplicating file descriptor for " target "")

def fdsetRedirect (sys : FdSystem) (fd : ℕ) (op : UInt8) (target : List UInt8)
    (done : List FdCall) : Run FdCall Fatal :=
  let t := target.head?
  if ¬ (t = some 47 ∨ t = some 46 ∨ t = some 37) then
    .ended done (.usage "bad target specification in fdset argument " target)
  else if t = some 37 ∧ target.tail ≠ [] then
    .ended done (.usage "bad target specification in fdset argument " target)
  else redirectTo sys fd (modeOf op) (if t = some 37 then devNull else target) done

/-- If `close()` fails there is a warning, and no more. -/
def fdsetDuplicate (sys : FdSystem) (fd : ℕ) (target : UInt8) (done : List FdCall) :
    Run FdCall Fatal :=
  if target = 33 then .on (done ++ [.close fd])
  else if target < 48 ∨ 57 < target then
    .ended done (.usage "bad fd target for fdset duplication" [])
  else
    let out := fdDupe sys fd (target.toNat - 48) done
    if out.1 = true then .on out.2
    else .ended out.2 (.syserr "failure duplicating file descriptor" [] "")

/-- `<`, `>`, `+` or `=` -/
def IsOp (op : UInt8) : Prop := op = 60 ∨ op = 62 ∨ op = 43 ∨ op = 61

instance (op : UInt8) : Decidable (IsOp op) := inferInstanceAs (Decidable (_ ∨ _))

/-- The loop of `do_fdset()`, with the turns that it may take -/
def fdsetLoop (sys : FdSystem) (argFdset : List UInt8) :
    ℕ → List UInt8 → ℕ → List FdCall → Run FdCall Fatal
  | 0, _, _, _ => .outside
  | fuel + 1, target, arg, done =>
    Run.reading (charAt argFdset arg) fun c =>
      if c = 0 then .on done
      else if c < 48 ∨ 57 < c then .ended done (.usage "bad fd numeral in fdset argument " argFdset)
      else
        let fd := c.toNat - 48
        Run.reading (charAt argFdset (arg + 1)) fun op =>
          if ¬ IsOp op then
            .ended done (.usage "bad op format in fdset argument " argFdset)
          else
            let s := argFdset.drop (arg + 2)
            let tok := cstrPos s 58
            if tok = 0 then .ended done (.usage "empty target in fdset argument " argFdset)
            else if tok > target.length then
              .ended done (.usage "target too long in fdset argument " argFdset)
            else
              Run.reading ((storeAll target 0 (s.take tok)).bind fun b => store b tok 0) fun target =>
                let run :=
                  if op = 61 then
                    Run.reading target[1]? fun c =>
                      if c ≠ 0 then
                        .ended done (.usage "bad duplication target in fdset argument " argFdset)
                      else Run.reading target.head? fun c => fdsetDuplicate sys fd c done
                  else fdsetRedirect sys fd op (target.takeWhile (· ≠ 0)) done
                run.andThen fun done =>
                  Run.reading (charAt argFdset (arg + 2 + tok)) fun c =>
                    fdsetLoop sys argFdset fuel target
                      (if c = 58 then arg + 2 + tok + 1 else arg + 2 + tok) done

/-- `do_fdset()`, with `char target[400]` -/
def doFdset (sys : FdSystem) (target : {b : List UInt8 // b.length = 400}) (argFdset : List UInt8) :
    Run FdCall Fatal :=
  fdsetLoop sys argFdset (argFdset.length + 1) target.val 0 []

/-! ## What an item asks for -/

inductive Instr where
  | redirect (fd : ℕ) (mode : Mode) (path : List UInt8)
  | duplicate (fd fdx : ℕ)
  | close (fd : ℕ)
  deriving DecidableEq, Repr

def numeral (c : UInt8) : Option ℕ := if 48 ≤ c ∧ c ≤ 57 then some (c.toNat - 48) else none

def duplication (fd : ℕ) : List UInt8 → Option Instr
  | [c] => if c = 33 then some (.close fd) else (numeral c).map (.duplicate fd)
  | _ => none

def redirection (fd : ℕ) (mode : Mode) (target : List UInt8) : Option Instr :=
  if target = [37] then some (.redirect fd mode devNull)
  else if target.head? = some 47 ∨ target.head? = some 46 then some (.redirect fd mode target)
  else none

def instruction (fd : ℕ) (op : UInt8) (target : List UInt8) : Option Instr :=
  if op = 61 then duplication fd target
  else if op = 60 then redirection fd .input target
  else if op = 62 then redirection fd .output target
  else if op = 43 then redirection fd .append target
  else none

/-- A numeral, an operator and a target, which is to fit in the buffer with its NUL -/
def fdItem : List UInt8 → Option Instr
  | c :: op :: target =>
    if target.length < 400 then (numeral c).bind fun fd => instruction fd op target else none
  | _ => none

def perform (sys : FdSystem) : Instr → List FdCall → Run FdCall Kind
  | .redirect fd mode path, done =>
    (sys done (.open path mode)).elim (.ended (done ++ [.open path mode]) .syserr) fun fdx =>
      let out := fdMove sys fd fdx (done ++ [.open path mode])
      if out.1 = true then .on out.2 else .ended out.2 .syserr
  | .duplicate fd fdx, done =>
    let out := fdDupe sys fd fdx done
    if out.1 = true then .on out.2 else .ended out.2 .syserr
  | .close fd, done => .on (done ++ [.close fd])

/-- As for `do_runlimit()` -/
def FdsetRight (s : Text) : Prop :=
  ∀ (sys : FdSystem) (target : {b : List UInt8 // b.length = 400}),
    (doFdset sys target s.bytes).seen Fatal.kind =
      wanted fdItem (perform sys) .usage (s.bytes.splitOn 58) []

/-- A first item that is ill-formed, with a target that is not of exactly 400 characters -/
def FdsetRefused : List UInt8 → Prop
  | [] => False
  | [_] => True
  | c :: op :: v => fdItem ((c :: op :: v).take (cstrPos (c :: op :: v) 58)) = none ∧
    ¬ (numeral c ≠ none ∧ IsOp op ∧ cstrPos v 58 = 400)

/-! ## Targets -/

variable {sys : FdSystem} {fd : ℕ} {c op : UInt8} {s v target : List UInt8} {done : List FdCall}

/-- What an instruction does that a target makes, or else a usage error -/
def treatTarget (sys : FdSystem) (i : Option Instr) (done : List FdCall) : Run FdCall Kind :=
  i.elim (.ended done .usage) fun i => perform sys i done

theorem numeral_none (h : c < 48 ∨ 57 < c) : numeral c = none := by
  apply if_neg
  rintro ⟨hlow, hhigh⟩
  rw [UInt8.le_iff_toNat_le] at hlow hhigh
  rw [UInt8.lt_iff_toNat_lt, UInt8.lt_iff_toNat_lt] at h
  omega

theorem numeral_some (h : ¬ (c < 48 ∨ 57 < c)) : numeral c = some (c.toNat - 48) := by
  apply if_pos
  rw [UInt8.lt_iff_toNat_lt, UInt8.lt_iff_toNat_lt] at h
  rw [UInt8.le_iff_toNat_le, UInt8.le_iff_toNat_le]
  omega

theorem duplicate_seen (sys : FdSystem) (fd : ℕ) (c : UInt8) (done : List FdCall) :
    (fdsetDuplicate sys fd c done).seen Fatal.kind = treatTarget sys (duplication fd [c]) done := by
  rw [fdsetDuplicate, duplication]
  by_cases hclose : c = 33
  · rw [if_pos hclose, if_pos hclose]
    rfl
  · rw [if_neg hclose, if_neg hclose]
    by_cases hdigit : c < 48 ∨ 57 < c
    · rw [if_pos hdigit, numeral_none hdigit]
      rfl
    · rw [if_neg hdigit, numeral_some hdigit, Option.map_some, treatTarget, Option.elim_some, perform]
      simp only
      cases (fdDupe sys fd (c.toNat - 48) done).1 <;> rfl

theorem redirectTo_seen (sys : FdSystem) (fd : ℕ) (mode : Mode) (path : List UInt8)
    (done : List FdCall) : (redirectTo sys fd mode path done).seen Fatal.kind =
      perform sys (.redirect fd mode path) done := by
  rw [redirectTo, perform]
  cases sys done (.open path mode) with
  | none => rfl
  | some fdx =>
    simp only [Option.elim_some]
    cases (fdMove sys fd fdx (done ++ [.open path mode])).1 <;> rfl

theorem redirect_seen (sys : FdSystem) (fd : ℕ) (op : UInt8) (target : List UInt8)
    (done : List FdCall) : (fdsetRedirect sys fd op target done).seen Fatal.kind =
      treatTarget sys (redirection fd (modeOf op) target) done := by
  rw [fdsetRedirect, redirection]
  by_cases hnull : target.head? = some 37
  · obtain ⟨rest, rfl⟩ := List.head?_eq_some_iff.mp hnull
    have hfirst : ¬ ¬ ((37 :: rest).head? = some 47 ∨ (37 :: rest).head? = some 46 ∨
        (37 :: rest).head? = some 37) := not_not.mpr (.inr (.inr hnull))
    simp only [if_neg hfirst, if_pos hnull]
    by_cases halone : rest = []
    · have htail : ¬ ((37 :: rest).head? = some 37 ∧ (37 :: rest).tail ≠ []) := fun h => h.2 halone
      rw [if_neg htail, halone, if_pos rfl]
      exact redirectTo_seen sys fd (modeOf op) devNull done
    · have hnot : 37 :: rest ≠ [37] := fun h => halone (List.cons.inj h).2
      have hpath : ¬ ((37 :: rest).head? = some 47 ∨ (37 :: rest).head? = some 46) := by
        rw [hnull]
        decide
      rw [if_pos ⟨hnull, halone⟩, if_neg hnot, if_neg hpath]
      rfl
  · have hnot : target ≠ [37] := by
      rintro rfl
      exact hnull rfl
    have htail : ¬ (target.head? = some 37 ∧ target.tail ≠ []) := fun h => hnull h.1
    simp only [if_neg htail, if_neg hnull, if_neg hnot]
    by_cases hpath : target.head? = some 47 ∨ target.head? = some 46
    · have hfirst : ¬ ¬ (target.head? = some 47 ∨ target.head? = some 46 ∨
          target.head? = some 37) := by
        rw [not_not, ← or_assoc]
        exact .inl hpath
      rw [if_neg hfirst, if_pos hpath]
      exact redirectTo_seen sys fd (modeOf op) target done
    · have hfirst : ¬ (target.head? = some 47 ∨ target.head? = some 46 ∨
          target.head? = some 37) := by
        rw [← or_assoc, not_or]
        exact ⟨hpath, hnull⟩
      rw [if_pos hfirst, if_neg hpath]
      rfl

theorem redirection_eq (hop : IsOp op) (hdup : op ≠ 61) (fd : ℕ) (target : List UInt8) :
    instruction fd op target = redirection fd (modeOf op) target := by
  rw [instruction, if_neg hdup]
  rcases hop with rfl | rfl | rfl | rfl
  · rfl
  · rfl
  · rfl
  · exact absurd rfl hdup

theorem target_seen (sys : FdSystem) (fd : ℕ) (done : List FdCall) (hop : IsOp op)
    (hne : target ≠ []) (hnul : 0 ∉ target) (text : String) (arg post : List UInt8) :
    (if op = 61 then
      Run.reading (target ++ 0 :: post)[1]? fun c =>
        if c ≠ 0 then .ended done (Fatal.usage text arg)
        else Run.reading (target ++ 0 :: post).head? fun c => fdsetDuplicate sys fd c done
    else
      fdsetRedirect sys fd op ((target ++ 0 :: post).takeWhile (· ≠ 0)) done).seen Fatal.kind =
      treatTarget sys (instruction fd op target) done := by
  by_cases hdup : op = 61
  · obtain ⟨c, rest, rfl⟩ := List.exists_cons_of_ne_nil hne
    rw [if_pos hdup, instruction, if_pos hdup]
    cases rest with
    | nil => exact duplicate_seen sys fd c done
    | cons d rest =>
      have hd : d ≠ 0 := fun hd =>
        hnul (List.mem_cons_of_mem c (List.mem_cons.mpr (.inl hd.symm)))
      rw [List.cons_append, List.cons_append, List.getElem?_cons_succ, List.getElem?_cons_zero,
        Run.reading, Option.elim_some, if_pos hd]
      rfl
  · rw [if_neg hdup, Cstr.takeWhile_nul hnul, redirect_seen, redirection_eq hop hdup]

/-! ## The loop of `do_fdset()` -/

/-- The loop, over what is left of the argument -/
def treatFds (sys : FdSystem) : List UInt8 → List FdCall → Run FdCall Kind
  | [], done => .on done
  | [_], done => .ended done .usage
  | c :: op :: v, done =>
    (numeral c).elim (.ended done .usage) fun fd =>
      if ¬ IsOp op then .ended done .usage
      else if cstrPos v 58 = 0 then .ended done .usage
      else if cstrPos v 58 = 400 then .outside
      else if 400 < cstrPos v 58 then .ended done .usage
      else (treatTarget sys (instruction fd op (v.take (cstrPos v 58))) done).andThen fun done =>
        treatFds sys (v.drop (cstrPos v 58 + 1)) done
termination_by s => s.length

theorem fdsetLoop_seen {fuel i : ℕ} {buf : List UInt8} (hnul : 0 ∉ s) (hlen : buf.length = 400)
    (hi : i ≤ s.length) (hfuel : s.length < i + fuel) (done : List FdCall) :
    (fdsetLoop sys s fuel buf i done).seen Fatal.kind = treatFds sys (s.drop i) done := by
  induction fuel generalizing buf i done with
  | zero => omega
  | succ fuel ih =>
    rw [fdsetLoop]
    cases hdrop : s.drop i with
    | nil =>
      rw [charAt_of_nil hi hdrop, treatFds]
      rfl
    | cons c t =>
      have hc : c ≠ 0 := by
        rintro rfl
        exact hnul (List.mem_of_mem_drop (hdrop ▸ List.mem_cons_self))
      have hdrop₁ := drop_of_drop hdrop
      rw [Cstr.charAt_of_drop hdrop, Run.reading, Option.elim_some, if_neg hc]
      by_cases hdigit : c < 48 ∨ 57 < c
      · rw [if_pos hdigit]
        cases t with
        | nil =>
          rw [treatFds]
          rfl
        | cons op v =>
          rw [treatFds, numeral_none hdigit]
          rfl
      · rw [if_neg hdigit]
        cases t with
        | nil =>
          rw [charAt_of_nil (le_of_drop hdrop) hdrop₁, treatFds]
          rfl
        | cons op v =>
          have hdrop₂ : s.drop (i + 2) = v := drop_of_drop hdrop₁
          have hle : i + 2 ≤ s.length := le_of_drop hdrop₁
          have hvnul : 0 ∉ v := fun hmem => hnul (List.mem_of_mem_drop (hdrop₂ ▸ hmem))
          rw [Cstr.charAt_of_drop hdrop₁, treatFds, numeral_some hdigit]
          simp only [Run.reading, Option.elim_some, hdrop₂, hlen, gt_iff_lt]
          by_cases hop : ¬ IsOp op
          · rw [if_pos hop, if_pos hop]
            rfl
          · rw [if_neg hop, if_neg hop]
            by_cases hempty : cstrPos v 58 = 0
            · rw [if_pos hempty, if_pos hempty]
              rfl
            · have htake : (v.take (cstrPos v 58)).length = cstrPos v 58 := by
                have hpos := Cstr.cstrPos_le v 58
                rw [List.length_take]
                omega
              rw [if_neg hempty, if_neg hempty]
              by_cases hlong : 400 < cstrPos v 58
              · rw [if_pos hlong, if_neg (by omega), if_pos hlong]
                rfl
              · rw [if_neg hlong]
                by_cases hfull : cstrPos v 58 = 400
                · have hout := Inplace.fill_outside buf (v.take (cstrPos v 58)) 0 (by omega)
                  rw [htake] at hout
                  rw [if_pos hfull, hout]
                  rfl
                · have htnul : 0 ∉ v.take (cstrPos v 58) := fun hmem =>
                    hvnul (List.mem_of_mem_take hmem)
                  have hne := mt (Cstr.take_cstrPos_eq_nil v 58).mp hempty
                  obtain ⟨post, hfill, hpost⟩ :=
                    Inplace.fill buf (v.take (cstrPos v 58)) 0 (by omega)
                  rw [htake] at hfill
                  rw [if_neg hfull, if_neg hlong, hfill, Option.elim_some, Run.seen_andThen]
                  have htarget := target_seen sys (c.toNat - 48) done (not_not.mp hop)
                    hne htnul "bad duplication target in fdset argument " s post
                  simp only [Run.reading] at htarget
                  rw [htarget]
                  congr 1
                  funext done
                  obtain ⟨k, hnext, hle, hge, hk⟩ := reading_next hdrop₂ hle
                    fun k => fdsetLoop sys s fuel (v.take (cstrPos v 58) ++ 0 :: post) k done
                  rw [Run.reading] at hnext
                  rw [hnext, ih (hpost.trans hlen) hle (by omega), hk]

/-! ## The items of `do_fdset()` -/

theorem fdItem_some {item : List UInt8} {i : Instr} (h : fdItem item = some i) :
    ∃ c op target fd, item = c :: op :: target ∧ target.length < 400 ∧ numeral c = some fd ∧
      instruction fd op target = some i := by
  cases item with
  | nil => cases h
  | cons c t =>
    cases t with
    | nil => cases h
    | cons op target =>
      rw [fdItem] at h
      by_cases hlen : target.length < 400
      · rw [if_pos hlen] at h
        obtain ⟨fd, hfd, hi⟩ := Option.bind_eq_some_iff.mp h
        exact ⟨c, op, target, fd, rfl, hlen, hfd, hi⟩
      · rw [if_neg hlen] at h
        cases h

theorem instruction_some {i : Instr} (h : instruction fd op target = some i) :
    IsOp op ∧ target ≠ [] := by
  constructor
  · by_contra hop
    rw [IsOp, not_or, not_or, not_or] at hop
    rw [instruction, if_neg hop.2.2.2, if_neg hop.1, if_neg hop.2.1, if_neg hop.2.2.1] at h
    cases h
  · rintro rfl
    have hpath : ∀ mode, redirection fd mode [] = none := fun _ => rfl
    have hdup : duplication fd [] = none := rfl
    rw [instruction, hdup, hpath, hpath, hpath] at h
    simp only [ite_self] at h
    cases h

theorem treatFds_item (sys : FdSystem) {tail : List UInt8} {i : Instr} (hsep : 58 ∉ target)
    (hlen : target.length < 400) (hfd : numeral c = some fd) (hi : instruction fd op target = some i)
    (htail : tail = [] ∨ ∃ rest, tail = 58 :: rest) (done : List FdCall) :
    treatFds sys (c :: op :: (target ++ tail)) done =
      (perform sys i done).andThen fun done => treatFds sys (tail.drop 1) done := by
  obtain ⟨hop, hne⟩ := instruction_some hi
  have hpos : cstrPos (target ++ tail) 58 = target.length := by
    rcases htail with rfl | ⟨rest, rfl⟩
    · rw [List.append_nil, Cstr.cstrPos_self hsep]
    · exact Cstr.cstrPos_append hsep rest
  have hdrop : (target ++ tail).drop (target.length + 1) = tail.drop 1 := by
    rw [← List.drop_drop, List.drop_left]
  have hempty : ¬ target.length = 0 := fun h => hne (List.length_eq_zero_iff.mp h)
  rw [treatFds, hfd, Option.elim_some, if_neg (not_not.mpr hop), hpos, if_neg hempty,
    if_neg (by omega), if_neg (by omega), List.take_left, hdrop, hi]
  rfl

theorem treatFds_nil (sys : FdSystem) : treatFds sys [] = .on := by
  funext done
  rw [treatFds]

theorem treatFds_bad (h : fdItem ((c :: op :: v).take (cstrPos (c :: op :: v) 58)) = none)
    (hfull : ¬ (numeral c ≠ none ∧ IsOp op ∧ cstrPos v 58 = 400))
    (done : List FdCall) : treatFds sys (c :: op :: v) done = .ended done .usage := by
  rw [treatFds]
  cases hfd : numeral c with
  | none => rfl
  | some fd =>
    rw [Option.elim_some]
    by_cases hop : IsOp op
    · rw [if_neg (not_not.mpr hop)]
      by_cases hempty : cstrPos v 58 = 0
      · rw [if_pos hempty]
      · rw [if_neg hempty]
        have hnot : ¬ cstrPos v 58 = 400 := by
          intro hpos
          apply hfull
          rw [hfd]
          exact ⟨Option.some_ne_none fd, hop, hpos⟩
        rw [if_neg hnot]
        by_cases hlong : 400 < cstrPos v 58
        · rw [if_pos hlong]
        · have hc : c ≠ 58 := by
            rintro rfl
            have hnone : numeral 58 = none := by decide
            rw [hnone] at hfd
            cases hfd
          have hop58 : op ≠ 58 := by
            rintro rfl
            revert hop
            decide
          have hpos : cstrPos (c :: op :: v) 58 = cstrPos v 58 + 1 + 1 := by
            rw [cstrPos, List.findIdx_cons, beq_false_of_ne hc, cond_false, List.findIdx_cons,
              beq_false_of_ne hop58, cond_false, cstrPos]
          have hlen : (v.take (cstrPos v 58)).length < 400 := by
            rw [List.length_take]
            omega
          rw [hpos, List.take_succ_cons, List.take_succ_cons, fdItem, if_pos hlen, hfd,
            Option.bind_some] at h
          rw [if_neg hlong, h]
          rfl
    · rw [if_pos hop]

theorem reads_fds (sys : FdSystem) :
    Reads 58 fdItem (perform sys) .usage FdsetRefused (treatFds sys) := by
  constructor
  · intro item i hsep hitem
    obtain ⟨c, op, target, fd, rfl, hlen, hfd, hi⟩ := fdItem_some hitem
    have htsep : 58 ∉ target := fun hmem => hsep (List.mem_cons_of_mem c (List.mem_cons_of_mem op hmem))
    funext done
    have hrun := treatFds_item sys htsep hlen hfd hi (.inl rfl) done
    rw [List.append_nil] at hrun
    rw [hrun, List.drop_nil, treatFds_nil]
    exact Run.andThen_on _
  · intro item i rest hsep hitem done
    obtain ⟨c, op, target, fd, rfl, hlen, hfd, hi⟩ := fdItem_some hitem
    have htsep : 58 ∉ target := fun hmem => hsep (List.mem_cons_of_mem c (List.mem_cons_of_mem op hmem))
    exact treatFds_item sys htsep hlen hfd hi (.inr ⟨rest, rfl⟩) done
  · intro rest hrest done
    obtain ⟨hsep, hs⟩ := first_item rest
    cases rest with
    | nil => cases hrest
    | cons c t =>
      cases t with
      | nil =>
        constructor
        · rw [treatFds]
        · apply Items.wanted_bad hsep hs
          cases cstrPos [c] 58 with
          | zero => rfl
          | succ n =>
            rw [List.take_succ_cons, List.take_nil]
            rfl
      | cons op v => exact ⟨treatFds_bad hrest.1 hrest.2 done, Items.wanted_bad hsep hs hrest.1 done⟩

/-- A system in which every call returns 0 -/
def obligingFds : FdSystem := fun _ _ => some 0

theorem fdDupe_obliging (to_ from_ : ℕ) (done : List FdCall) :
    (fdDupe obligingFds to_ from_ done).1 = true := by
  by_cases hsame : to_ = from_
  · rw [fdDupe, if_pos hsame]
  · rw [fdDupe, if_neg hsame]
    rfl

theorem fdMove_obliging (to_ from_ : ℕ) (done : List FdCall) :
    (fdMove obligingFds to_ from_ done).1 = true := by
  by_cases hsame : to_ = from_
  · rw [fdMove, if_pos hsame]
  · rw [fdMove, if_neg hsame]
    simp only [if_pos (fdDupe_obliging to_ from_ done)]

theorem perform_obliging (i : Instr) (done : List FdCall) :
    ∃ done', perform obligingFds i done = .on done' := by
  cases i with
  | redirect fd mode path =>
    use (fdMove obligingFds fd 0 (done ++ [.open path mode])).2
    rw [perform]
    exact if_pos (fdMove_obliging fd 0 (done ++ [.open path mode]))
  | duplicate fd fdx =>
    use (fdDupe obligingFds fd fdx done).2
    rw [perform]
    exact if_pos (fdDupe_obliging fd fdx done)
  | close fd => exact ⟨_, rfl⟩

theorem first_item_eq {item rest : List UInt8} (hsep : 58 ∉ item)
    (h : rest = item ∨ ∃ tail, rest = item ++ 58 :: tail) : rest.take (cstrPos rest 58) = item := by
  rcases h with rfl | ⟨tail, rfl⟩
  · rw [Cstr.cstrPos_self hsep, List.take_length]
  · rw [Cstr.cstrPos_append hsep, List.take_left]

theorem fdset_refused_of_treat {item rest : List UInt8} (hsep : 58 ∉ item)
    (hitem : fdItem item = none) (hrest : rest = item ∨ ∃ tail, rest = item ++ 58 :: tail)
    (done : List FdCall) (h : treatFds sys rest done = .ended done .usage) : FdsetRefused rest := by
  rw [← first_item_eq hsep hrest] at hitem
  cases rest with
  | nil =>
    rw [treatFds] at h
    cases h
  | cons c t =>
    cases t with
    | nil => trivial
    | cons op v =>
      refine ⟨hitem, ?_⟩
      rintro ⟨hc, hop, hpos⟩
      obtain ⟨fd, hfd⟩ := Option.ne_none_iff_exists'.mp hc
      rw [treatFds, hfd, Option.elim_some, if_neg (not_not.mpr hop), hpos, if_neg (by decide),
        if_pos rfl] at h
      cases h

theorem doFdset_seen (sys : FdSystem) (target : {b : List UInt8 // b.length = 400}) (s : Text) :
    (doFdset sys target s.bytes).seen Fatal.kind = treatFds sys s.bytes [] :=
  fdsetLoop_seen s.nul target.property (Nat.zero_le _) (by omega) []

theorem fdsetRight_iff (s : Text) : FdsetRight s ↔ Fits 58 fdItem FdsetRefused s.bytes := by
  constructor
  · intro h
    have hrun := h obligingFds ⟨List.replicate 400 0, List.length_replicate⟩
    rw [doFdset_seen] at hrun
    apply (reads_fds obligingFds).fits perform_obliging _ [] hrun
    exact fun hsep hitem hrest done hended => fdset_refused_of_treat hsep hitem hrest done hended
  · intro h sys target
    rw [doFdset_seen]
    exact (reads_fds sys).treat_eq h []

/-- Both arguments are performed item by item exactly when they are of well-formed items up to
their end or a rest that is refused. -/
theorem runtool_args_iff (defs : List Rlimit.RlimitDef) (s : Text) :
    (RunlimitRight defs s ↔ Fits 58 limitItem (LimitRefused defs) s.bytes) ∧
      (FdsetRight s ↔ Fits 58 fdItem FdsetRefused s.bytes) :=
  ⟨runlimitRight_iff defs s, fdsetRight_iff s⟩

theorem not_mem_item {x d e : UInt8} (hc : x ≠ c) (hd : x ≠ d) (he : x ≠ e) (n : ℕ) :
    x ∉ c :: d :: List.replicate n e :=
  List.not_mem_cons_of_ne_of_not_mem hc
    (List.not_mem_cons_of_ne_of_not_mem hd fun hmem => he (List.eq_of_mem_replicate hmem))

/-- The NUL of a value of 40 characters, and of a target of 400, is stored behind the buffer. -/
theorem runtool_args_overrun :
    ¬ RunlimitRight [] ⟨97 :: 61 :: List.replicate 40 48,
        not_mem_item (by decide) (by decide) (by decide) 40⟩ ∧
      ¬ FdsetRight ⟨48 :: 60 :: List.replicate 400 47,
        not_mem_item (by decide) (by decide) (by decide) 400⟩ := by
  constructor
  · intro h
    have hrun := h (obliging []) ⟨List.replicate 40 0, List.length_replicate⟩
    have hsep : (58 : UInt8) ∉ 97 :: 61 :: List.replicate 40 48 :=
      not_mem_item (by decide) (by decide) (by decide) 40
    have hpos : cstrPos (List.replicate 40 48) 58 = 40 := by decide
    rw [doRunlimit_seen, Items.wanted_bad hsep (.inl rfl) (by decide), treatLimits,
      if_neg (by decide), if_pos hpos] at hrun
    cases hrun
  · intro h
    have hrun := h obligingFds ⟨List.replicate 400 0, List.length_replicate⟩
    have hsep : (58 : UInt8) ∉ 48 :: 60 :: List.replicate 400 47 :=
      not_mem_item (by decide) (by decide) (by decide) 400
    have hitem : fdItem (48 :: 60 :: List.replicate 400 47) = none := by
      rw [fdItem, List.length_replicate]
      rfl
    have hpos : cstrPos (List.replicate 400 47) 58 = 400 := by
      rw [Cstr.cstrPos_self fun hmem => absurd (List.eq_of_mem_replicate hmem) (by decide),
        List.length_replicate]
    have hdigit : numeral 48 = some 0 := by decide
    rw [doFdset_seen, Items.wanted_bad hsep (.inl rfl) hitem, treatFds, hdigit, Option.elim_some,
      if_neg (by decide), hpos, if_neg (by decide), if_pos rfl] at hrun
    cases hrun

end Perp.RuntoolFdset
