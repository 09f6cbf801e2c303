import Mathlib.Algebra.Order.Ring.Nat
import Perp.Inplace
import Perp.Nfmt
import Perp.OptionLoop
import Perp.Runlimit

set_option autoImplicit false

/-!
# The buffers of runchoom

`main()` up to `do_choom()`: the path and the setting are put together in two buffers of fixed
size.
-/
namespace Perp.Runchoom
open Cstr (Text)
open Inplace (store storeAll)
open Nextopt (Opt Final Seen parse)
open OptionLoop
open Refusal
open Runlimit (Fatal Piece optError)
open Stamp8601 (nfmtUint32)

/-! ## Copies -/

/-- A string and its NUL, copied to the place `i` of a buffer; none is a store outside it. -/
def copyTo (b : List UInt8) (i : ℕ) (s : List UInt8) : Option (List UInt8) :=
  (storeAll b i s).bind fun b => store b (i + s.length) 0

/-- `cstr_vcopy()` from the place `i` on -/
def cstrVcopy : List UInt8 → ℕ → List (List UInt8) → Option (List UInt8)
  | b, _, [] => some b
  | b, i, s :: strs => (copyTo b i s).bind fun b => cstrVcopy b (i + s.length) strs

/-- `cstr_vlen()` -/
def cstrVlen (strs : List (List UInt8)) : UInt64 :=
  strs.foldl (fun n s => n + UInt64.ofNat s.length) 0

/-! ## The program -/

/-- What the program is run with -/
structure Input where
  prog : Text
  args : List Text
  getenv : List UInt8 → Option Text
  getpid : UInt32

structure Opts where
  optE : ℕ
  optV : ℕ
  base : Option (List UInt8)
  key : Option (List UInt8)
  set : Option (List UInt8)
  pid : UInt32
  deriving DecidableEq, Repr

/-- `":hVb:ek:p:s:v"` -/
def optlist : List UInt8 := [58, 104, 86, 98, 58, 101, 107, 58, 112, 58, 115, 58, 118]

def optPid (arg : List UInt8) (opt : UInt8) (st : Opts) : Res Fatal Opts :=
  if (Nuscan.nuscanUint32 arg).2 ≠ [] then
    .stopped (.usage [.text "bad numeric argument for -", .str [opt], .text ": ", .str arg])
  else .ok { st with pid := (Nuscan.nuscanUint32 arg).1 }

def optCase (e : Seen) (st : Opts) : Res Fatal Opts :=
  if e.ret = 86 ∨ e.ret = 104 then .stopped (.exit 0)
  else if e.ret = 98 then Res.reading e.arg fun arg => .ok { st with base := some arg }
  else if e.ret = 101 then .ok { st with optE := st.optE + 1 }
  else if e.ret = 107 then Res.reading e.arg fun arg => .ok { st with key := some arg }
  else if e.ret = 112 then Res.reading e.arg fun arg => optPid arg e.got st
  else if e.ret = 115 then Res.reading e.arg fun arg => .ok { st with set := some arg }
  else if e.ret = 118 then .ok { st with optV := st.optV + 1 }
  else .stopped (optError e)

/-- `"CHOOM_BASE"` and `"/proc"` -/
def baseNames : List UInt8 × List UInt8 :=
  ([67, 72, 79, 79, 77, 95, 66, 65, 83, 69], [47, 112, 114, 111, 99])

/-- `"CHOOM_KEY"` and `"oom_adj"` -/
def keyNames : List UInt8 × List UInt8 :=
  ([67, 72, 79, 79, 77, 95, 75, 69, 89], [111, 111, 109, 95, 97, 100, 106])

/-- `"CHOOM_SET"` and `"-17"` -/
def setNames : List UInt8 × List UInt8 := ([67, 72, 79, 79, 77, 95, 83, 69, 84], [45, 49, 55])

/-- A string of an option, or of the environment, or the default -/
def chosen (i : Input) (arg : Option (List UInt8)) (names : List UInt8 × List UInt8) : List UInt8 :=
  arg.getD (((i.getenv names.1).map Text.bytes).getD names.2)

/-- `arg_base, "/", pidfmt, "/", arg_key` -/
def pathParts (i : Input) (st : Opts) : List (List UInt8) :=
  [chosen i st.base baseNames, [47], nfmtUint32 (if st.pid = 0 then i.getpid else st.pid), [47],
    chosen i st.key keyNames]

/-- `arg_set, "\n"` -/
def setParts (i : Input) (st : Opts) : List (List UInt8) := [chosen i st.set setNames, [10]]

/-- `pathbuf` and `setbuf` -/
structure Bufs where
  path : List UInt8
  set : List UInt8
  deriving DecidableEq, Repr

/-- `sizeof pathbuf` and `sizeof setbuf` -/
def bufSize : ℕ := 256

/-- A buffer is filled after a test of the length; `slack` is what the test compares with. -/
def fillBuf (slack : UInt64) (e : Fatal) (parts : List (List UInt8)) : Res Fatal (List UInt8) :=
  if UInt64.ofNat bufSize - cstrVlen parts < slack then .stopped e
  else Res.reading (cstrVcopy (List.replicate bufSize 0) 0 parts) .ok

/-- What follows the options, up to `do_choom()` -/
def afterOptions (i : Input) (out : Opts × List (List UInt8)) : Res Fatal Bufs :=
  let st := out.1
  let base := chosen i st.base baseNames
  if out.2 = [] then .stopped (.usage [.text "missing required program argument"])
  else if base.head? ≠ some 47 then
    .stopped (.usage [.text "path base is not absolute (must begin with `/'): ", .str base])
  else
    (fillBuf 5 (.syserr (.text "path too long: " :: (pathParts i st).map .str))
      (pathParts i st)).bind fun path =>
        (fillBuf 1 (.usage [.text "setting too long: ", .str (chosen i st.set setNames)])
          (setParts i st)).bind fun set => .ok ⟨path, set⟩

def main (i : Input) : Res Fatal Bufs :=
  (options optCase ⟨optlist, by decide⟩ i.prog i.args ⟨0, 0, none, none, none, 0⟩).bind
    (afterOptions i)

/-! ## What it is for -/

/-- A buffer holds the strings and their terminator, and has kept its size. -/
def Holds (b : List UInt8) (parts : List (List UInt8)) : Prop :=
  b.length = bufSize ∧ parts.flatten ++ [0] <+: b

/-- What an option makes of the settings -/
def setting (st : Opts) (o : Opt) : Opts :=
  if o.1 = 98 then { st with base := o.2 }
  else if o.1 = 101 then { st with optE := st.optE + 1 }
  else if o.1 = 107 then { st with key := o.2 }
  else if o.1 = 112 then { st with pid := o.2.elim st.pid fun arg => (Nuscan.nuscanUint32 arg).1 }
  else if o.1 = 115 then { st with set := o.2 }
  else if o.1 = 118 then { st with optV := st.optV + 1 }
  else st

def cmdline (i : Input) : List Opt × Final := parse optlist (i.args.map Text.bytes)

/-- What the options ask for -/
def asked (i : Input) : Opts := (cmdline i).1.foldl setting ⟨0, 0, none, none, none, 0⟩

/-- The program ends before it copies what does not fit. -/
def Right (i : Input) (r : Res Fatal Bufs) : Prop :=
  (∃ e, r = .stopped e) ∨ ∃ bufs, r = .ok bufs ∧ Holds bufs.path (pathParts i (asked i)) ∧
    Holds bufs.set (setParts i (asked i))

/-- An option that ends the program -/
def BadOption (o : Opt) : Prop :=
  (o.1 = 86 ∨ o.1 = 104) ∨ o.1 = 112 ∧ ∃ arg, o.2 = some arg ∧ (Nuscan.nuscanUint32 arg).2 ≠ []

/-- The program ends before the first test of a length. -/
inductive Refused (i : Input) : Prop where
  | option (o : Opt) (h : o ∈ (cmdline i).1) (hbad : BadOption o)
  | usage (h : ∀ arg rest, (cmdline i).2 ≠ .operands (arg :: rest))
  | base (h : (chosen i (asked i).base baseNames).head? ≠ some 47)

/-- The test finds `n` bytes too long: it does so up to the size of the buffer. -/
def TooLong (slack n : ℕ) : Prop := n % 2 ^ 64 ≤ bufSize ∧ bufSize < n % 2 ^ 64 + slack

/-! ## The buffers -/

section
variable {pre rest s b : List UInt8} {parts : List (List UInt8)}

theorem copyTo_eq (pre : List UInt8) (h : s.length ≤ rest.length) :
    ∃ rest', rest'.length + s.length = rest.length ∧
    copyTo (pre ++ 0 :: rest) pre.length s = some (pre ++ s ++ 0 :: rest') := by
  have hold : ((0 :: rest).take s.length).length = s.length := by
    rw [List.length_take, List.length_cons]
    omega
  have hmore : s.length < (0 :: rest).length := Nat.lt_succ_of_le h
  obtain ⟨c, post, hpost⟩ :=
    List.exists_cons_of_ne_nil (List.drop_eq_nil_iff.not.mpr (Nat.not_le.mpr hmore))
  have hall := Inplace.storeAll_at pre ((0 :: rest).take s.length) ((0 :: rest).drop s.length) s hold
  rw [List.append_assoc, List.take_append_drop] at hall
  refine ⟨post, ?_, ?_⟩
  · have hlen := congrArg List.length hpost
    rw [List.length_drop, List.length_cons, List.length_cons] at hlen
    omega
  · rw [copyTo, hall, Option.bind_some, hpost, ← List.length_append, Inplace.store_at]

theorem copyTo_outside (h : rest.length < s.length) : copyTo (pre ++ 0 :: rest) pre.length s = none := by
  rw [copyTo]
  by_cases hfull : s.length = rest.length + 1
  · have hall := Inplace.storeAll_at pre (0 :: rest) [] s hfull.symm
    rw [List.append_nil, List.append_nil] at hall
    rw [hall, Option.bind_some]
    apply Inplace.store_outside
    rw [List.length_append]
  · rw [Inplace.storeAll_outside, Option.bind_none]
    · rw [List.length_append]
      exact Nat.le_add_right _ _
    · rw [List.length_append, List.length_cons]
      omega

theorem vcopy_eq (pre rest : List UInt8) (h : parts.flatten.length ≤ rest.length) :
    ∃ rest', rest'.length + parts.flatten.length = rest.length ∧
      cstrVcopy (pre ++ 0 :: rest) pre.length parts = some (pre ++ parts.flatten ++ 0 :: rest') := by
  induction parts generalizing pre rest with
  | nil => exact ⟨rest, rfl, by rw [List.flatten_nil, List.append_nil, cstrVcopy]⟩
  | cons s parts ih =>
    rw [List.flatten_cons, List.length_append] at h ⊢
    have hs : s.length ≤ rest.length := by omega
    obtain ⟨rest₁, hlen, hcopy⟩ := copyTo_eq pre hs
    obtain ⟨rest', hlen', hmore⟩ := ih (pre ++ s) rest₁ (by omega)
    refine ⟨rest', by omega, ?_⟩
    rw [List.length_append] at hmore
    rw [cstrVcopy, hcopy, Option.bind_some, hmore, List.append_assoc pre]

theorem vcopy_outside (pre rest : List UInt8) (h : rest.length < parts.flatten.length) :
    cstrVcopy (pre ++ 0 :: rest) pre.length parts = none := by
  induction parts generalizing pre rest with
  | nil => exact absurd h (Nat.not_lt_zero _)
  | cons s parts ih =>
    rw [List.flatten_cons, List.length_append] at h
    by_cases hs : s.length ≤ rest.length
    · obtain ⟨rest₁, hlen, hcopy⟩ := copyTo_eq pre hs
      have hmore := ih (pre ++ s) rest₁ (by omega)
      rw [List.length_append] at hmore
      rw [cstrVcopy, hcopy, Option.bind_some, hmore]
    · rw [cstrVcopy, copyTo_outside (Nat.not_le.mp hs), Option.bind_none]

theorem vlen_eq (parts : List (List UInt8)) :
    (cstrVlen parts).toNat = parts.flatten.length % 2 ^ 64 := by
  have hfold : ∀ n : UInt64, (parts.foldl (fun n s => n + UInt64.ofNat s.length) n).toNat =
      (n.toNat + parts.flatten.length) % 2 ^ 64 := by
    induction parts with
    | nil =>
      intro n
      exact (Nat.mod_eq_of_lt n.toNat_lt).symm
    | cons s parts ih =>
      intro n
      rw [List.foldl_cons, ih, UInt64.toNat_add, UInt64.toNat_ofNat', List.flatten_cons,
        List.length_append]
      omega
  rw [cstrVlen, hfold]
  exact congrArg (· % 2 ^ 64) (Nat.zero_add _)

theorem guard_iff {slack : UInt64} (hslack : slack.toNat ≤ bufSize) :
    UInt64.ofNat bufSize - cstrVlen parts < slack ↔ TooLong slack.toNat parts.flatten.length := by
  have hn := (cstrVlen parts).toNat_lt
  have hsize : (UInt64.ofNat bufSize).toNat = 256 := rfl
  rw [UInt64.lt_iff_toNat_lt, UInt64.toNat_sub, hsize, TooLong, ← vlen_eq]
  rw [bufSize] at hslack ⊢
  omega

theorem fillBuf_cases {slack : UInt64} (hslack : slack.toNat ≤ bufSize) (e : Fatal)
    (parts : List (List UInt8)) :
    TooLong slack.toNat parts.flatten.length ∧ fillBuf slack e parts = .stopped e ∨
      ¬ TooLong slack.toNat parts.flatten.length ∧
        (parts.flatten.length < bufSize ∧ (∃ b, fillBuf slack e parts = .ok b ∧ Holds b parts) ∨
          bufSize ≤ parts.flatten.length ∧ fillBuf slack e parts = .outside) := by
  rw [fillBuf]
  have hbuf : List.replicate bufSize (0 : UInt8) = [] ++ 0 :: List.replicate 255 0 := rfl
  by_cases hlong : TooLong slack.toNat parts.flatten.length
  · rw [if_pos ((guard_iff hslack).mpr hlong)]
    exact .inl ⟨hlong, rfl⟩
  · rw [if_neg fun h => hlong ((guard_iff hslack).mp h), hbuf]
    refine .inr ⟨hlong, ?_⟩
    have hcell : (List.replicate 255 (0 : UInt8)).length = 255 := List.length_replicate
    by_cases hfits : parts.flatten.length < bufSize
    · have hroom : parts.flatten.length ≤ (List.replicate 255 (0 : UInt8)).length := by
        rw [hcell]
        exact Nat.lt_succ_iff.mp hfits
      obtain ⟨rest', hlen, hcopy⟩ := vcopy_eq [] _ hroom
      rw [List.length_nil] at hcopy
      rw [hcopy]
      refine .inl ⟨hfits, _, rfl, ?_, ?_⟩
      · rw [List.length_append, List.length_cons, List.nil_append, bufSize]
        omega
      · exact ⟨rest', by simp⟩
    · have hover : (List.replicate 255 (0 : UInt8)).length < parts.flatten.length := by
        rw [hcell]
        exact Nat.not_lt.mp hfits
      have hout := vcopy_outside [] _ hover
      rw [List.length_nil] at hout
      rw [hout]
      exact .inr ⟨Nat.not_lt.mp hfits, rfl⟩

end

/-! ## The options -/

section
variable {i : Input}

theorem optCase_stops : Stops optCase := by
  rintro ⟨ret, got, arg⟩ st (rfl | rfl)
  · exact ⟨_, rfl⟩
  · exact ⟨_, rfl⟩

theorem option_letters {c : UInt8} {b : Bool} (h : Nextopt.takes optlist c = some b) :
    ((c = 86 ∨ c = 104) ∨ c = 101 ∨ c = 118) ∧ b = false ∨
      (c = 98 ∨ c = 107 ∨ c = 112 ∨ c = 115) ∧ b = true :=
  Nextopt.takes_all
    (P := fun c b =>
      ((c = 86 ∨ c = 104) ∨ c = 101 ∨ c = 118) ∧ b = false ∨
        (c = 98 ∨ c = 107 ∨ c = 112 ∨ c = 115) ∧ b = true)
    (by decide) h

theorem not_bad {o : Opt} (h : o.1 ≠ 86 ∧ o.1 ≠ 104 ∧ o.1 ≠ 112) : ¬ BadOption o := by
  rintro ((h86 | h104) | ⟨h112, -⟩)
  · exact h.1 h86
  · exact h.2.1 h104
  · exact h.2.2 h112

theorem optCase_steps :
    Steps optCase ⟨optlist, by decide⟩ (fun _ => BadOption) setting Eq := by
  rintro st _ ⟨c, arg⟩ h rfl
  rcases option_letters h with ⟨hc, -⟩ | ⟨hc, hsome⟩
  · rcases hc with (rfl | rfl) | rfl | rfl
    · exact Res.meets_stopped _ (.inl (.inl rfl))
    · exact Res.meets_stopped _ (.inl (.inr rfl))
    · exact Res.meets_ok (not_bad (by simp)) rfl
    · exact Res.meets_ok (not_bad (by simp)) rfl
  · obtain ⟨value, rfl⟩ : ∃ value, arg = some value := Option.isSome_iff_exists.mp hsome
    rcases hc with rfl | rfl | rfl | rfl
    · exact Res.meets_ok (not_bad (by simp)) rfl
    · exact Res.meets_ok (not_bad (by simp)) rfl
    · change (optPid value 112 st).Meets _ _
      rw [optPid]
      by_cases hscan : (Nuscan.nuscanUint32 value).2 = []
      · rw [if_neg (not_not.mpr hscan)]
        refine Res.meets_ok ?_ rfl
        rintro (hno | ⟨-, arg, harg, hbad⟩)
        · simp at hno
        · obtain rfl := Option.some.inj harg
          exact hbad hscan
      · rw [if_pos hscan]
        exact Res.meets_stopped _ (.inr ⟨rfl, value, rfl, hscan⟩)
    · exact Res.meets_ok (not_bad (by simp)) rfl

/-! ## The program -/

/-- The bytes of the path, and of the setting with its newline -/
def pathLen (i : Input) : ℕ := (pathParts i (asked i)).flatten.length

def setLen (i : Input) : ℕ := (setParts i (asked i)).flatten.length

theorem five_le : (5 : UInt64).toNat ≤ bufSize := by decide

theorem one_le : (1 : UInt64).toNat ≤ bufSize := by decide

theorem right_stopped (e : Fatal) : Right i (.stopped e) := .inl ⟨e, rfl⟩

theorem not_right_outside : ¬ Right i .outside := by
  rintro (⟨e, he⟩ | ⟨bufs, hbufs, -⟩)
  · cases he
  · cases hbufs

theorem afterOptions_right {arg : List UInt8} {rest : List (List UInt8)}
    (hbase : (chosen i (asked i).base baseNames).head? = some 47) :
    Right i (afterOptions i (asked i, arg :: rest)) ↔
      TooLong 5 (pathLen i) ∨
        pathLen i < bufSize ∧ (TooLong 1 (setLen i) ∨ setLen i < bufSize) := by
  have hpath := fillBuf_cases five_le (.syserr (.text "path too long: " ::
    (pathParts i (asked i)).map .str)) (pathParts i (asked i))
  have hset := fillBuf_cases one_le (.usage [.text "setting too long: ",
    .str (chosen i (asked i).set setNames)]) (setParts i (asked i))
  rw [afterOptions, if_neg (List.cons_ne_nil arg rest), if_neg (not_not.mpr hbase)]
  rcases hpath with ⟨hlong, hstop⟩ | ⟨hnot, ⟨hfits, path, hok, hholds⟩ | ⟨hover, hout⟩⟩
  · rw [hstop]
    exact iff_of_true (right_stopped _) (.inl hlong)
  · rw [hok]
    rcases hset with ⟨hlong, hstop⟩ | ⟨hnot', ⟨hfits', set, hok', hholds'⟩ | ⟨hover, hout⟩⟩
    · simp only [hstop, Res.bind]
      exact iff_of_true (right_stopped _) (.inr ⟨hfits, .inl hlong⟩)
    · simp only [hok', Res.bind]
      exact iff_of_true (.inr ⟨_, rfl, hholds, hholds'⟩) (.inr ⟨hfits, .inr hfits'⟩)
    · simp only [hout, Res.bind]
      apply iff_of_false not_right_outside
      rintro (hlong | ⟨-, hlong | hfits'⟩)
      · exact hnot hlong
      · exact hnot' hlong
      · exact absurd hfits' (Nat.not_lt.mpr hover)
  · rw [hout]
    apply iff_of_false not_right_outside
    rintro (hlong | ⟨hfits, -⟩)
    · exact hnot hlong
    · exact absurd hfits (Nat.not_lt.mpr hover)

/-- The buffers are kept within their sizes if the program is refused before, or the lengths are
in reach of the two tests. -/
theorem runchoom_buffers_iff (i : Input) : Right i (main i) ↔
    Refused i ∨ TooLong 5 (pathLen i) ∨
      pathLen i < bufSize ∧ (TooLong 1 (setLen i) ∨ setLen i < bufSize) := by
  rw [main]
  rcases options_meets optCase_stops (by decide) optCase_steps i.prog i.args rfl with
    ⟨hfault, e, he⟩ | ⟨hgo, ⟨st, args⟩, hok, hst, hargs⟩
  · rw [he]
    apply iff_of_true (right_stopped e)
    apply Or.inl
    rw [faulty_const] at hfault
    rcases hfault with ⟨o, ho, hbad⟩ | hno
    · exact .option o ho hbad
    · exact .usage fun arg rest => hno (arg :: rest)
  · rw [faulty_const, not_or] at hgo
    obtain rfl : st = asked i := hst
    rw [hok, Res.bind]
    cases args with
    | nil =>
      apply iff_of_true (right_stopped _)
      apply Or.inl
      apply Refused.usage
      intro arg rest hmore
      cases hmore.symm.trans hargs
    | cons arg rest =>
      by_cases hbase : (chosen i (asked i).base baseNames).head? = some 47
      · rw [afterOptions_right hbase]
        apply (or_iff_right _).symm
        rintro (⟨o, ho, hbad⟩ | husage | hno)
        · exact hgo.1 ⟨o, ho, hbad⟩
        · exact husage arg rest hargs
        · exact hno hbase
      · rw [afterOptions, if_neg (List.cons_ne_nil arg rest), if_pos hbase]
        exact iff_of_true (right_stopped _) (.inl (.base hbase))

/-- A setting of 256 bytes from the environment -/
def longSetting : Input where
  prog := ⟨[114, 117, 110, 99, 104, 111, 111, 109], by decide⟩
  args := [⟨[120], by decide⟩]
  getenv := fun name =>
    if name = setNames.1 then
      some ⟨List.replicate 256 97, fun h => absurd (List.eq_of_mem_replicate h) (by decide)⟩
    else none
  getpid := 1

theorem runchoom_overruns : ¬ ∀ i, Right i (main i) := by
  intro h
  have hparts : (setParts longSetting (asked longSetting)).flatten =
      List.replicate 256 97 ++ [10] := rfl
  have hset : setLen longSetting = 257 := by
    rw [setLen, hparts, List.length_append, List.length_replicate]
    rfl
  rcases (runchoom_buffers_iff longSetting).mp (h longSetting) with
    (⟨o, ho, -⟩ | husage | hbase) | hlong | ⟨-, hlong | hfits⟩
  · exact absurd ho (List.not_mem_nil (a := o))
  · exact husage [120] [] rfl
  · exact hbase (by decide)
  · exact absurd hlong (by unfold TooLong; decide)
  · rw [hset] at hlong
    exact absurd hlong (by unfold TooLong; decide)
  · rw [hset] at hfits
    exact absurd hfits (by decide)

end

end Perp.Runchoom
