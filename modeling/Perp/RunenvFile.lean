import Perp.CstrTrim
import Perp.FileLines
import Perp.Newenv
import Perp.Runlimit
import Perp.ValUnescape

set_option autoImplicit false

/-!
# The environment file of runenv

`do_envfile()`: the lines of a file, each cut into a name and a value in its memory, and the calls
of `newenv_set()` they come to.
-/
namespace Perp.RunenvFile
open Cstr (Text cstrPos)
open CstrTrim
open FileLines
open IoqGet (ReadAns)
open IoqGetln (Mem State)
open Newenv (newenvSet)
open Refusal
open Runlimit (Fatal)
open RunlimitFile (text text_eq head_nul not_mem_trimmed rtrimKept_key trimmed_newline)
open ValUnescape

/-! ## The function -/

/-- What `newenv_set()` is called with. Without a value a variable is deleted. -/
structure Setting where
  key : List UInt8
  val : Option (List UInt8)
  deriving DecidableEq, Repr

/-- The key and the value around the `=`: the memory they leave, and what is set if the key is
not empty -/
def cutSetting (b : List UInt8) (split : ℕ) : Option (List UInt8 × Option Setting) :=
  (Inplace.store b split 0).bind fun b =>
    (cstrRtrim b).bind fun b =>
      (cstrLtrim (b.drop (split + 1))).bind fun val =>
        (runenvValUnescape val).bind fun val =>
          let b := b.take (split + 1) ++ val
          b.head?.bind fun c =>
            some (b, if c = 0 then none else some ⟨text b, some (text val)⟩)

/-- The parse of a line, in its memory -/
def parseLine (b : List UInt8) : Option (List UInt8 × Option Setting) :=
  (cstrTrim b).bind fun b =>
    b.head?.bind fun c =>
      if c = 0 ∨ c = 35 then some (b, none)
      else b[cstrPos (text b) 61]?.bind fun c =>
        if c = 61 then cutSetting b (cstrPos (text b) 61) else some (b, some ⟨text b, none⟩)

/-- The calls of `newenv_set()` that have been made, and the strings that it has pushed -/
structure Env where
  calls : List Setting
  newenv : List (List UInt8)
  deriving DecidableEq, Repr

/-- How the function ends the program, and the calls it has made until then -/
structure Stop where
  mesg : Fatal
  calls : List Setting
  deriving DecidableEq, Repr

/-- The work on a line -/
def doLine : DoLine Stop Env := fun b mem t =>
  Res.reading (parseLine b) fun out =>
    out.2.elim (.ok (out.1, mem, t)) fun c =>
      let set := newenvSet (mem.headD true) t.newenv c.key c.val
      let t : Env := ⟨t.calls ++ [c], set.2⟩
      if set.1 = -1 then .stopped ⟨.syserr [.text "failure allocating new environment"], t.calls⟩
      else .ok (out.1, mem.tail, t)

/-- An open file: its name in messages, what is in it and how it will be read, and the memory
behind the buffer of the queue -/
structure File where
  name : List UInt8
  text : Text
  answers : List ReadAns
  quiet : .error ∉ answers
  behind : List UInt8

/-- `do_envfile()` from `ioq_init()` on -/
def doEnvfile (f : File) (mem : Mem) : Res Stop (Mem × Env) :=
  readLoop f.behind (fun t => ⟨.syserr [.text "error reading ", .str f.name], t.calls⟩) doLine
    (f.text.bytes.length + 1) (opened f.text.bytes f.answers mem) ⟨[], []⟩

/-! ## What it is for -/

/-- The name in a line that is trimmed, and what stands behind the `=` -/
def keyOf (t : List UInt8) : List UInt8 := rtrimmed (t.take (cstrPos t 61))

def rawValue (t : List UInt8) : List UInt8 := t.drop (cstrPos t 61 + 1)

def valueOf (t : List UInt8) : List UInt8 := ltrimmed (rawValue t)

/-- What a line says -/
def lineSetting (l : List UInt8) : Option Setting :=
  let t := trimmed l
  if t = [] ∨ t.head? = some 35 then none
  else if 61 ∈ t then
    if keyOf t = [] then none else some ⟨keyOf t, some (translate (valueOf t))⟩
  else some ⟨t, none⟩

/-- The parse of a file -/
def reference (s : List UInt8) : List Setting := (s.splitOn 10).filterMap lineSetting

/-- A name has no blanks around it and no `=`. -/
def Clean (name : List UInt8) : Prop := name ≠ [] ∧ 61 ∉ name ∧ trimmed name = name

/-- The calls are those of the parse, or as many as there was memory for. -/
def Right (f : File) (mem : Mem) (r : Res Stop (Mem × Env)) : Prop :=
  (∃ e, r = .stopped e ∧ false ∈ mem ∧ e.calls <+: reference f.text.bytes ∧
      ∀ c ∈ e.calls, Clean c.key) ∨
    ∃ m t, r = .ok (m, t) ∧ t.calls = reference f.text.bytes ∧ ∀ c ∈ t.calls, Clean c.key

/-- What stands behind the NUL of the value of a line: what trimming has left there of the value
and of the line, and behind these what the line's memory held before -/
def behindValue (l stale : List UInt8) : List UInt8 :=
  leftBehind (rawValue (trimmed l)) ++ (trimBehind l ++ stale)

/-- A backslash at the end of the value does no harm: the next byte is another NUL; or there is no
name, and the memory has a NUL where the loop ends. -/
def Harmless (l stale : List UInt8) : Prop :=
  (behindValue l stale).head? = some 0 ∨ keyOf (trimmed l) = [] ∧ Ends (behindValue l stale)

/-- The value of the line in this memory, if it has one, does not end in a backslash of its own,
or this does no harm. -/
def Plain (b : List UInt8) : Prop :=
  (trimmed (text b)).head? ≠ some 35 → 61 ∈ trimmed (text b) →
    ¬ Dangling (valueOf (trimmed (text b))) ∨
      Harmless (text b) (b.drop ((text b).length + 1))

/-! ## A line -/

variable {l k v rest stale : List UInt8}

theorem parts_eq (h : trimmed l = k ++ 61 :: v) (hk : 61 ∉ k) :
    keyOf (trimmed l) = rtrimmed k ∧ rawValue (trimmed l) = v := by
  rw [keyOf, rawValue, h, Cstr.cstrPos_append hk, List.take_left, ← List.drop_drop, List.drop_left]
  exact ⟨rfl, rfl⟩

theorem cutSetting_eq (hkept : rtrimKept k = rtrimmed k) (hk : 0 ∉ k) (hv : 0 ∉ v)
    (rest : List UInt8) : cutSetting (k ++ 61 :: v ++ 0 :: rest) k.length =
      (valUnescape (ltrimmed v ++ 0 :: (leftBehind v ++ rest))).map fun val =>
        (rtrimmed k ++ 0 :: cleared k ++ val,
          if rtrimmed k = [] then none else some ⟨rtrimmed k, some (text val)⟩) := by
  have hknul := not_mem_rtrimmed hk
  have hplace : k.length + 1 = (rtrimmed k ++ 0 :: cleared k).length := by
    have hlen := cleared_length k
    rw [hkept] at hlen
    rw [List.length_append, List.length_cons]
    omega
  have hsplit : rtrimmed k ++ 0 :: (cleared k ++ (v ++ 0 :: rest)) =
      (rtrimmed k ++ 0 :: cleared k) ++ (v ++ 0 :: rest) := by simp
  rw [cutSetting, List.append_assoc, List.cons_append, Inplace.store_at, Option.bind_some,
    rtrim_exact hk, Option.bind_some, hkept, hsplit, hplace, List.drop_left, ltrim_exact hv,
    Option.bind_some, runenvValUnescape, List.take_left]
  cases valUnescape (ltrimmed v ++ 0 :: (leftBehind v ++ rest)) with
  | none => rfl
  | some val =>
    obtain ⟨c, hhead, hzero, -⟩ := head_nul hknul (cleared k ++ val)
    have hcells : rtrimmed k ++ 0 :: cleared k ++ val = rtrimmed k ++ 0 :: (cleared k ++ val) := by simp
    simp only [hcells, hhead, Option.bind_some, Option.map_some, text_eq hknul, hzero]

theorem parse_short (hl : 0 ∉ l) (h : (trimmed l).head? = some 35 ∨ 61 ∉ trimmed l) (stale : List UInt8) :
    parseLine (l ++ 0 :: stale) = some (trimmed l ++ 0 :: (trimBehind l ++ stale), lineSetting l) := by
  have hnul := not_mem_trimmed hl
  obtain ⟨c, hhead, hzero, hmark⟩ := head_nul hnul (trimBehind l ++ stale)
  rw [parseLine, trim_exact hl, Option.bind_some, hhead, Option.bind_some, lineSetting]
  by_cases hskip : trimmed l = [] ∨ (trimmed l).head? = some 35
  · have hc : c = 0 ∨ c = 35 := hskip.imp hzero.mpr hmark.mpr
    rw [if_pos hc, if_pos hskip]
  · have hc : ¬ (c = 0 ∨ c = 35) := fun hc => hskip (hc.imp hzero.mp hmark.mp)
    have hsplit : 61 ∉ trimmed l := h.resolve_left fun h35 => hskip (.inr h35)
    have hend : (trimmed l ++ 0 :: (trimBehind l ++ stale))[cstrPos (trimmed l) 61]? = some 0 := by
      rw [Cstr.cstrPos_self hsplit]
      exact Inplace.get_at _ _ 0
    have hne : ¬ (0 : UInt8) = 61 := by decide
    rw [if_neg hc, if_neg hskip, if_neg hsplit, text_eq hnul, hend, Option.bind_some, if_neg hne]

theorem parse_value (hl : 0 ∉ l) (h : (trimmed l).head? ≠ some 35) (hsplit : 61 ∈ trimmed l)
    (stale : List UInt8) : ∃ pre, pre.length + (valueOf (trimmed l) ++ 0 :: behindValue l stale).length =
        (l ++ 0 :: stale).length ∧
      parseLine (l ++ 0 :: stale) =
        (valUnescape (valueOf (trimmed l) ++ 0 :: behindValue l stale)).map fun val =>
          (pre ++ val, if keyOf (trimmed l) = [] then none
            else some ⟨keyOf (trimmed l), some (text val)⟩) := by
  have hnul := not_mem_trimmed hl
  obtain ⟨c, hhead, hzero, hmark⟩ := head_nul hnul (trimBehind l ++ stale)
  obtain ⟨k, v, ht, hk⟩ := List.eq_append_cons_of_mem hsplit
  obtain ⟨hkey, hraw⟩ := parts_eq ht hk
  have hkept := rtrimKept_key ht
  have hknul : 0 ∉ k := fun hmem => hnul (ht ▸ List.mem_append_left _ hmem)
  have hvnul : 0 ∉ v := fun hmem =>
    hnul (ht ▸ List.mem_append_right _ (List.mem_cons_of_mem 61 hmem))
  have hc : ¬ (c = 0 ∨ c = 35) := by
    rw [hzero, hmark, ht]
    rintro (hnil | h35)
    · exact absurd hnil (by simp)
    · exact h (ht ▸ h35)
  have hfound : (k ++ 61 :: v ++ 0 :: (trimBehind l ++ stale))[k.length]? = some 61 := by
    rw [List.append_assoc, List.cons_append, Inplace.get_at]
  refine ⟨rtrimmed k ++ 0 :: cleared k, ?_, ?_⟩
  · have htrim := trimBehind_length l
    have hclear := cleared_length k
    have hleft := leftBehind_length v
    rw [ht, List.length_append, List.length_cons] at htrim
    rw [hkept] at hclear
    rw [valueOf, behindValue, hraw]
    simp only [List.length_append, List.length_cons]
    omega
  · rw [parseLine, trim_exact hl, Option.bind_some, hhead, Option.bind_some, if_neg hc, text_eq hnul,
      valueOf, behindValue, hkey, hraw]
    rw [ht, Cstr.cstrPos_append hk, hfound, Option.bind_some, if_pos rfl,
      cutSetting_eq hkept hknul hvnul]

theorem text_append (h : 0 ∉ v) {out : List UInt8} (hne : out ≠ []) :
    text (v ++ out) = v ↔ out.head? = some 0 := by
  have hall : ∀ c ∈ v, decide (c ≠ 0) = true := by
    intro c hc
    rw [decide_eq_true_iff]
    rintro rfl
    exact h hc
  rw [text, List.takeWhile_append_of_pos hall, List.append_right_eq_self]
  cases out with
  | nil => exact absurd rfl hne
  | cons c out =>
    rw [List.head?_cons, Option.some.injEq]
    by_cases hc : c = 0
    · rw [List.takeWhile_cons_of_neg (by simp [hc])]
      exact iff_of_true rfl hc
    · rw [List.takeWhile_cons_of_pos (by simp [hc])]
      exact iff_of_false (List.cons_ne_nil _ _) hc

/-- A value is set, its translation or not, by how the loop of `val_unescape()` ends. -/
theorem value_cases (hv : 0 ∉ v) (rest : List UInt8) :
    (∃ val, valUnescape (v ++ 0 :: rest) = some val ∧ val.length = (v ++ 0 :: rest).length ∧
        (text val = translate v ↔ ¬ Dangling v ∨ rest.head? = some 0) ∧ (¬ Dangling v ∨ Ends rest)) ∨
      valUnescape (v ++ 0 :: rest) = none ∧ Dangling v ∧ ¬ Ends rest := by
  rcases valUnescape_cases hv rest with ⟨hends, out, hout, hlen, hhead⟩ | ⟨hno, hnone⟩
  · refine .inl ⟨_, hout, hlen, ?_, hends⟩
    have hne : out ≠ [] := by
      rintro rfl
      have hle := translate_length v
      rw [List.append_nil, List.length_append, List.length_cons] at hlen
      omega
    rw [text_append (not_mem_translate hv) hne, hhead]
  · rw [not_or, not_not] at hno
    exact .inr ⟨hnone, hno⟩

theorem ends_of_head (h : rest.head? = some 0) : Ends rest := by
  cases rest with
  | nil => cases h
  | cons c rest =>
    obtain rfl : c = 0 := Option.some.inj h
    cases rest with
    | nil => rfl
    | cons d rest => exact .inl rfl

theorem plain_line (hl : 0 ∉ l) (stale : List UInt8) : Plain (l ++ 0 :: stale) ↔
    ((trimmed l).head? ≠ some 35 → 61 ∈ trimmed l → ¬ Dangling (valueOf (trimmed l)) ∨ Harmless l stale) := by
  have hdrop : (l ++ 0 :: stale).drop (l.length + 1) = stale := by
    rw [← List.drop_drop, List.drop_left]
    rfl
  rw [Plain, text_eq hl, hdrop]

theorem value_nul (hl : 0 ∉ l) : 0 ∉ valueOf (trimmed l) := by
  intro hmem
  exact not_mem_trimmed hl (List.drop_subset _ _ (List.dropWhile_subset isspace hmem))

/-- A line is parsed as it is to be exactly where it is plain. -/
theorem parse_cases (hl : 0 ∉ l) (stale : List UInt8) :
    (Plain (l ++ 0 :: stale) ∧ ∃ b, parseLine (l ++ 0 :: stale) = some (b, lineSetting l) ∧
        b.length = (l ++ 0 :: stale).length) ∨
      ¬ Plain (l ++ 0 :: stale) ∧ (parseLine (l ++ 0 :: stale) = none ∨
        ∃ b c c', parseLine (l ++ 0 :: stale) = some (b, some c') ∧ lineSetting l = some c ∧
          c'.key = c.key ∧ c' ≠ c) := by
  rw [plain_line hl]
  by_cases hshort : (trimmed l).head? = some 35 ∨ 61 ∉ trimmed l
  · refine .inl ⟨fun hno hmem => absurd hshort (not_or.mpr ⟨hno, not_not.mpr hmem⟩), _,
      parse_short hl hshort stale, ?_⟩
    have htrim := trimBehind_length l
    simp only [List.length_append, List.length_cons]
    omega
  · rw [not_or, not_not] at hshort
    obtain ⟨pre, hpre, hparse⟩ := parse_value hl hshort.1 hshort.2 stale
    have hskip : ¬ (trimmed l = [] ∨ (trimmed l).head? = some 35) := by
      rintro (hnil | h35)
      · exact absurd hshort.2 (by simp [hnil])
      · exact hshort.1 h35
    have hsetting : lineSetting l = if keyOf (trimmed l) = [] then none
        else some ⟨keyOf (trimmed l), some (translate (valueOf (trimmed l)))⟩ := by
      rw [lineSetting, if_neg hskip, if_pos hshort.2]
    have hplain : ((trimmed l).head? ≠ some 35 → 61 ∈ trimmed l →
        ¬ Dangling (valueOf (trimmed l)) ∨ Harmless l stale) ↔
          ¬ Dangling (valueOf (trimmed l)) ∨ Harmless l stale :=
      ⟨fun h => h hshort.1 hshort.2, fun h _ _ => h⟩
    rw [hplain, hparse, hsetting, Harmless]
    rcases value_cases (value_nul hl) (behindValue l stale) with
      ⟨val, hval, hlen, htext, hends⟩ | ⟨hnone, hdangling, hno⟩
    · rw [hval, Option.map_some]
      by_cases hkey : keyOf (trimmed l) = []
      · refine .inl ⟨hends.imp_right fun h => .inr ⟨hkey, h⟩, pre ++ val, ?_, ?_⟩
        · rw [if_pos hkey, if_pos hkey]
        · rw [List.length_append, hlen, hpre]
      · rw [if_neg hkey, if_neg hkey]
        by_cases hright : text val = translate (valueOf (trimmed l))
        · refine .inl ⟨(htext.mp hright).imp_right .inl, pre ++ val, ?_, ?_⟩
          · rw [hright]
          · rw [List.length_append, hlen, hpre]
        · refine .inr ⟨?_, .inr ⟨_, _, _, rfl, rfl, rfl, ?_⟩⟩
          · rintro (hnot | hhead | ⟨hnil, -⟩)
            · exact hright (htext.mpr (.inl hnot))
            · exact hright (htext.mpr (.inr hhead))
            · exact hkey hnil
          · intro hsame
            exact hright (Option.some.inj (congrArg Setting.val hsame))
    · refine .inr ⟨?_, .inl (by rw [hnone]; rfl)⟩
      rintro (hnot | hhead | ⟨-, hends⟩)
      · exact hnot hdangling
      · exact hno (ends_of_head hhead)
      · exact hno hends

/-! ## The names -/

theorem key_prefix (t : List UInt8) : keyOf t <+: t :=
  (List.rdropWhile_prefix isspace _).trans (List.take_prefix _ t)

theorem key_split (t : List UInt8) : 61 ∉ keyOf t := by
  intro hmem
  have htake : 61 ∈ t.take (cstrPos t 61) := (List.rdropWhile_prefix isspace _).subset hmem
  have ht : 61 ∈ t := List.take_subset _ t htake
  obtain ⟨k, v, rfl, hk⟩ := List.eq_append_cons_of_mem ht
  rw [Cstr.cstrPos_append hk, List.take_left] at htake
  exact hk htake

/-- A name begins as its line does, and so with no blank. -/
theorem trimmed_key (l : List UInt8) : trimmed (keyOf (trimmed l)) = keyOf (trimmed l) := by
  obtain ⟨rest, hrest⟩ := key_prefix (trimmed l)
  have hright : rtrimmed (keyOf (trimmed l)) = keyOf (trimmed l) := rtrimmed_idempotent _
  rw [trimmed, hright]
  cases hkey : keyOf (trimmed l) with
  | nil => rfl
  | cons c s =>
    rw [hkey] at hrest
    have hhead : c ∈ (trimmed l).head? := by
      rw [← hrest]
      rfl
    have hspace : ¬ isspace c = true := by
      rw [RunlimitFile.trimmed_head hhead]
      exact Bool.false_ne_true
    exact List.dropWhile_cons_of_neg hspace

theorem setting_clean {c : Setting} (h : lineSetting l = some c) : Clean c.key := by
  rw [lineSetting] at h
  by_cases hskip : trimmed l = [] ∨ (trimmed l).head? = some 35
  · rw [if_pos hskip] at h
    cases h
  · rw [if_neg hskip] at h
    by_cases hsplit : 61 ∈ trimmed l
    · rw [if_pos hsplit] at h
      by_cases hkey : keyOf (trimmed l) = []
      · rw [if_pos hkey] at h
        cases h
      · rw [if_neg hkey] at h
        obtain rfl := Option.some.inj h
        exact ⟨hkey, key_split _, trimmed_key l⟩
    · rw [if_neg hsplit] at h
      obtain rfl := Option.some.inj h
      exact ⟨fun hnil => hskip (.inl hnil), hsplit, trimmed_idempotent l⟩

theorem reference_clean {s : List UInt8} {c : Setting} (h : c ∈ reference s) : Clean c.key := by
  obtain ⟨l, -, hl⟩ := List.mem_filterMap.mp h
  exact setting_clean hl

/-! ## The lines -/

variable {behind : List UInt8} {fuel : ℕ} {s : State} {t : Env} {mem : Mem}

theorem setting_newline (l : List UInt8) : lineSetting (l ++ [10]) = lineSetting l := by
  rw [lineSetting, trimmed_newline, lineSetting]

theorem newenvSet_eq (got : Bool) (newenv : List (List UInt8)) {key : List UInt8}
    (val : Option (List UInt8)) (h : key ≠ []) : (newenvSet got newenv key val).1 = -1 ↔ got = false := by
  rw [newenvSet, if_neg h]
  cases got <;> simp

theorem doLine_eq {b b' : List UInt8} {c : Option Setting} (hparse : parseLine b = some (b', c))
    (hkey : ∀ d ∈ c, d.key ≠ []) (mem : Mem) (t : Env) :
    (∃ e, doLine b mem t = .stopped e ∧ e.calls = t.calls ++ c.toList ∧ false ∈ mem) ∨
      ∃ m t', doLine b mem t = .ok (b', m, t') ∧ m <:+ mem ∧ t'.calls = t.calls ++ c.toList := by
  rw [doLine, hparse, Res.reading, Option.elim_some]
  cases c with
  | none => exact .inr ⟨mem, t, rfl, List.suffix_rfl, (List.append_nil _).symm⟩
  | some d =>
    rw [Option.elim_some]
    have hset := newenvSet_eq (mem.headD true) t.newenv d.val (hkey d rfl)
    by_cases hgot : mem.headD true = false
    · rw [if_pos (hset.mpr hgot)]
      refine .inl ⟨_, rfl, rfl, ?_⟩
      rw [IoqGetln.headD_false hgot]
      exact List.mem_cons_self
    · rw [if_neg fun h => hgot (hset.mp h)]
      exact .inr ⟨_, _, rfl, List.tail_suffix mem, rfl⟩

theorem setting_key {c : Setting} (h : c ∈ lineSetting l) : c.key ≠ [] := (setting_clean h).1

theorem lines_follow (mesg : Fatal) : Follows (fun t => Stop.mk mesg t.calls) doLine Plain
    (fun t b => t.calls = b) (fun e b => e.calls <+: b) fun b l => b ++ (lineSetting l).toList := by
  have hplain : ∀ {l stale : List UInt8}, 0 ∉ l → Plain (l ++ 0 :: stale) →
      ∃ b, parseLine (l ++ 0 :: stale) = some (b, lineSetting l) ∧ b.length = (l ++ 0 :: stale).length :=
    fun hl h => ((parse_cases hl _).resolve_right fun hno => hno.1 h).2
  constructor
  · intro l stale mem t done hl h hdone
    obtain ⟨b, hparse, hlen⟩ := hplain hl h
    rcases doLine_eq hparse (fun d hd => setting_key hd) mem t with ⟨e, he, -⟩ | ⟨m, t', hrun, -⟩
    · cases he.symm.trans hdone
    · cases hrun.symm.trans hdone
      exact hlen
  · rintro l stale mem t _ hl h rfl
    obtain ⟨b, hparse, -⟩ := hplain hl h
    rcases doLine_eq hparse (fun d hd => setting_key hd) mem t with
      ⟨e, he, hcalls, hmem⟩ | ⟨m, t', hrun, hleft, hcalls⟩
    · exact .inl ⟨e, he, hcalls ▸ List.prefix_rfl, hmem⟩
    · exact .inr ⟨_, hrun, hleft, hcalls⟩
  · rintro t _ rfl
    exact List.prefix_rfl
  · exact fun e b l h => h.trans (List.prefix_append _ _)
  · intro b l
    rw [setting_newline]
  · intro b
    exact List.append_nil b

theorem foldl_settings (ls : List (List UInt8)) (b : List Setting) :
    ls.foldl (fun b l => b ++ (lineSetting l).toList) b = b ++ ls.filterMap lineSetting := by
  induction ls generalizing b with
  | nil => exact (List.append_nil b).symm
  | cons l ls ih =>
    rw [List.foldl_cons, ih, List.append_assoc]
    cases h : lineSetting l with
    | none => rw [List.filterMap_cons_none h, Option.toList_none, List.nil_append]
    | some c => rw [List.filterMap_cons_some h, Option.toList_some, List.singleton_append]

/-- Where a run has come to, when it is to make these calls -/
def Made (calls : List Setting) (r : Res Stop (Mem × Env)) : Prop :=
  (∃ e, r = .stopped e ∧ e.calls <+: calls) ∨ ∃ a, r = .ok a ∧ a.2.calls = calls

theorem doLine_grows (b : List UInt8) (mem : Mem) (t : Env) :
    (∀ e, doLine b mem t = .stopped e → t.calls <+: e.calls) ∧
      ∀ done, doLine b mem t = .ok done → t.calls <+: done.2.2.calls := by
  rw [doLine]
  cases parseLine b with
  | none => exact ⟨fun e he => (by cases he), fun done hdone => (by cases hdone)⟩
  | some out =>
    rw [Res.reading, Option.elim_some]
    cases out.2 with
    | none => exact ⟨fun e he => (by cases he), fun done hdone => (by cases hdone; exact List.prefix_rfl)⟩
    | some c =>
      rw [Option.elim_some]
      by_cases hset : (newenvSet (mem.headD true) t.newenv c.key c.val).1 = -1
      · simp only [if_pos hset]
        exact ⟨fun e he => (by cases he; exact List.prefix_append _ _), fun done hdone => (by cases hdone)⟩
      · simp only [if_neg hset]
        exact ⟨fun e he => (by cases he), fun done hdone => (by cases hdone; exact List.prefix_append _ _)⟩

theorem calls_stay {calls : List Setting} (mesg : Fatal) (h : calls <+: t.calls) :
    (∀ e, readLoop behind (fun t => Stop.mk mesg t.calls) doLine fuel s t = .stopped e →
        calls <+: e.calls) ∧
      ∀ a, readLoop behind (fun t => Stop.mk mesg t.calls) doLine fuel s t = .ok a →
        calls <+: a.2.calls := by
  apply readLoop_keeps (I := fun t : Env => calls <+: t.calls) (J := fun e : Stop => calls <+: e.calls)
  · exact fun t ht => ht
  · exact fun b mem t e ht he => ht.trans ((doLine_grows b mem t).1 e he)
  · exact fun b mem t done ht hdone => ht.trans ((doLine_grows b mem t).2 done hdone)
  · exact h

theorem wrong_stays {calls more : List Setting} {c c' : Setting} {r : Res Stop (Mem × Env)}
    (hne : c' ≠ c) (hstop : ∀ e, r = .stopped e → calls ++ [c'] <+: e.calls)
    (hok : ∀ a, r = .ok a → calls ++ [c'] <+: a.2.calls) : ¬ Made (calls ++ c :: more) r := by
  have hnot : ¬ calls ++ [c'] <+: calls ++ c :: more := by
    rw [List.prefix_append_right_inj, List.cons_prefix_cons]
    exact fun h => hne h.1
  rintro (⟨e, he, hprefix⟩ | ⟨a, ha, hsame⟩)
  · exact hnot ((hstop e he).trans hprefix)
  · exact hnot (hsame ▸ hok a ha)

/-- What comes after a line keeps the calls that have been made. -/
def Keeps (next : List UInt8 × Mem × Env → Res Stop (Mem × Env)) : Prop :=
  ∀ done, (∀ e, next done = .stopped e → done.2.2.calls <+: e.calls) ∧
    ∀ a, next done = .ok a → done.2.2.calls <+: a.2.calls

/-- Where the calls are to be right in the end, the line is plain, and they are right until then. -/
theorem plain_of_made {next : List UInt8 × Mem × Env → Res Stop (Mem × Env)} {more : List Setting}
    (hnext : Keeps next) (hl : 0 ∉ l) (h : Made (t.calls ++ ((lineSetting l).toList ++ more))
      ((doLine (l ++ 0 :: stale) mem t).bind next)) :
    Plain (l ++ 0 :: stale) ∧ ∀ done, doLine (l ++ 0 :: stale) mem t = .ok done →
      done.1.length = (l ++ 0 :: stale).length ∧ Made (done.2.2.calls ++ more) (next done) := by
  rcases parse_cases hl stale with ⟨hplain, b, hparse, hlen⟩ | ⟨-, hnone | ⟨b, c, c', hparse, hc, hkey, hne⟩⟩
  · refine ⟨hplain, fun done hdone => ?_⟩
    rcases doLine_eq hparse (fun d hd => setting_key hd) mem t with ⟨e, he, -⟩ | ⟨m, t', hrun, -, hcalls⟩
    · cases he.symm.trans hdone
    · obtain rfl := Res.ok.inj (hrun.symm.trans hdone)
      rw [hrun, Res.bind, ← List.append_assoc, ← hcalls] at h
      exact ⟨hlen, h⟩
  · rw [doLine, hnone] at h
    rcases h with ⟨e, he, -⟩ | ⟨a, ha, -⟩
    · cases he
    · cases ha
  · have hkey' : ∀ d ∈ some c', d.key ≠ [] := by
      intro d hd
      obtain rfl := Option.some.inj hd
      rw [hkey]
      exact setting_key hc
    rw [hc, Option.toList_some, List.singleton_append] at h
    rcases doLine_eq hparse hkey' mem t with ⟨e, he, hcalls, -⟩ | ⟨m, t', hrun, -, hcalls⟩
    · rw [he] at h
      refine absurd h (wrong_stays hne (fun e' he' => ?_) fun a ha => by cases ha)
      cases he'
      exact hcalls ▸ List.prefix_rfl
    · rw [hrun] at h
      obtain ⟨hstop, hok⟩ := hnext (b, m, t')
      exact absurd h (wrong_stays hne (fun e he => hcalls ▸ hstop e he) fun a ha => hcalls ▸ hok a ha)

theorem reference_line (hl : 10 ∉ l) (rest : List UInt8) :
    reference (l ++ 10 :: rest) = (lineSetting (l ++ [10])).toList ++ reference rest := by
  rw [reference, List.splitOn_append_cons_self_of_not_mem hl, setting_newline, reference]
  cases h : lineSetting l with
  | none => rw [List.filterMap_cons_none h, Option.toList_none, List.nil_append]
  | some c => rw [List.filterMap_cons_some h, Option.toList_some, List.singleton_append]

theorem reference_last (hl : 10 ∉ l) : reference l = (lineSetting l).toList ++ [] := by
  rw [reference, List.splitOn_eq_singleton hl]
  cases h : lineSetting l with
  | none => rw [List.filterMap_cons_none h]; rfl
  | some c => rw [List.filterMap_cons_some h]; rfl

/-- Where all calls are as they are to be, all lines are plain. -/
theorem allLines_of_made (mesg : Fatal) (hs : Ready s) (hnul : 0 ∉ s.unread) (hbehind : 0 ∈ behind)
    (h : Made (t.calls ++ reference s.unread)
      (readLoop behind (fun t => Stop.mk mesg t.calls) doLine fuel s t)) :
    AllLines behind doLine Plain fuel s t := by
  induction fuel generalizing s t with
  | zero => trivial
  | succ fuel ih =>
    obtain ⟨S, r, s', hclear, hcall, hnext⟩ := next_turn hs hnul hbehind
    rw [readLoop_turn hclear hcall] at h
    rw [allLines_turn hclear hcall]
    intro hgot hmore
    simp only at hgot hmore
    rw [if_neg hgot, if_neg hmore] at h
    cases hnext with
    | denied _ hmem => exact absurd rfl hgot
    | done _ hunread hmem hend => exact absurd ⟨rfl, hend⟩ hmore
    | line l rest stale _ hunread hl hready hrest hmem hheld =>
      have hone : ¬ (1 : ℤ) = 0 := by decide
      obtain ⟨hlnul, hrnul⟩ := line_nul hunread hnul
      simp only [if_neg hone] at h
      rw [hunread, reference_line hl, hheld] at h
      obtain ⟨hplain, hdone⟩ := plain_of_made (fun done => calls_stay mesg List.prefix_rfl) hlnul h
      simp only [hheld]
      refine ⟨hplain, fun done hok _ => ?_⟩
      obtain ⟨hlen, hmade⟩ := hdone done hok
      rw [← hheld] at hlen
      apply ih (putBack_ready hready hlen done.2.1)
      · rw [← hrest] at hrnul
        exact hrnul
      · rw [← hrest] at hmade
        exact hmade
    | last stale _ hunread hl hmore' hmem hheld =>
      simp only [if_pos] at h
      rw [reference_last hl, hheld] at h
      obtain ⟨hplain, -⟩ := plain_of_made
        (fun done => ⟨fun e he => (by cases he), fun a ha => (by cases ha; exact List.prefix_rfl)⟩) hnul h
      rw [hheld]
      exact ⟨hplain, fun done _ hno => absurd rfl hno⟩

/-! ## The file -/

/-- All lines that the function works on are plain. -/
def AllPlain (f : File) (mem : Mem) : Prop :=
  AllLines f.behind doLine Plain (f.text.bytes.length + 1) (opened f.text.bytes f.answers mem) ⟨[], []⟩

theorem Right.made {f : File} {r : Res Stop (Mem × Env)} (h : Right f mem r) :
    Made (reference f.text.bytes) r := by
  rcases h with ⟨e, he, -, hcalls, -⟩ | ⟨m, t, ht, hcalls, -⟩
  · exact .inl ⟨e, he, hcalls⟩
  · exact .inr ⟨(m, t), ht, hcalls⟩

theorem right_of_comes {f : File} {r : Res Stop (Mem × Env)}
    (h : Comes (fun e b => e.calls <+: b) (fun (t : Env) b => t.calls = b) (reference f.text.bytes) mem
      id r) : Right f mem r := by
  rcases h with ⟨e, he, hcalls, hmem⟩ | ⟨a, ha, -, hcalls⟩
  · exact .inl ⟨e, he, hmem, hcalls, fun c hc => reference_clean (hcalls.subset hc)⟩
  · have hsame : a.2.calls = reference f.text.bytes := hcalls
    exact .inr ⟨a.1, a.2, ha, hsame, fun c hc => reference_clean (hsame ▸ hc)⟩

/-- The calls are those of the parse if the file is empty, or there is a NUL behind the buffer and
no value ends in a backslash that does harm. -/
theorem runenv_file_iff (f : File) (mem : Mem) : Right f mem (doEnvfile f mem) ↔
    f.text.bytes = [] ∨ 0 ∈ f.behind ∧ AllPlain f mem := by
  have hready := opened_ready f.text.bytes f.quiet mem
  have hunread := opened_unread f.text.bytes f.answers mem
  have hnul : 0 ∉ (opened f.text.bytes f.answers mem).unread := hunread ▸ f.text.nul
  by_cases hnil : f.text.bytes = []
  · apply iff_of_true _ (.inl hnil)
    have hnone : reference [] = [] := by decide
    rw [doEnvfile, readLoop_empty hready (hunread.trans hnil)]
    refine .inr ⟨_, _, rfl, ?_, fun c hc => absurd hc List.not_mem_nil⟩
    rw [hnil, hnone]
  · rw [or_iff_right hnil]
    have hne : (opened f.text.bytes f.answers mem).unread ≠ [] := hunread ▸ hnil
    constructor
    · intro h
      by_cases hbehind : 0 ∈ f.behind
      · have hmade := h.made
        rw [← hunread] at hmade
        exact ⟨hbehind, allLines_of_made _ hready hnul hbehind hmade⟩
      · rw [doEnvfile, readLoop_overruns hready hnul hne hbehind] at h
        rcases h.made with ⟨e, he, -⟩ | ⟨a, ha, -⟩
        · cases he
        · cases ha
    · rintro ⟨hbehind, hall⟩
      have hfuel : (opened f.text.bytes f.answers mem).unread.length < f.text.bytes.length + 1 := by
        rw [hunread]
        exact Nat.lt_succ_self _
      have hrun := fun mesg => readLoop_comes (lines_follow mesg) hready hnul hbehind hfuel rfl hall
      simp only [hunread, foldl_settings, List.nil_append] at hrun
      exact right_of_comes (hrun _)

/-- A file of one line without a newline: that line is plain, whatever is behind it. -/
theorem plain_alone {f : File} (hne : f.text.bytes ≠ []) (hline : 10 ∉ f.text.bytes)
    (hbehind : 0 ∈ f.behind) (h : AllPlain f []) : ∃ stale, Plain (f.text.bytes ++ 0 :: stale) := by
  have hready := opened_ready f.text.bytes f.quiet []
  have hunread := opened_unread f.text.bytes f.answers []
  have hnul : 0 ∉ (opened f.text.bytes f.answers []).unread := hunread ▸ f.text.nul
  obtain ⟨S, r, s', hclear, hcall, hnext⟩ := next_turn hready hnul hbehind
  rw [AllPlain, allLines_turn hclear hcall] at h
  cases hnext with
  | denied _ hmem => exact absurd hmem List.not_mem_nil
  | done _ hnil _ _ => exact absurd (hunread.symm.trans hnil) hne
  | line l rest stale _ hl _ _ _ _ _ =>
    rw [hunread] at hl
    exact absurd (hl ▸ List.mem_append_right l List.mem_cons_self) hline
  | last stale _ _ _ hmore _ hheld =>
    have hgot : ((0 : ℤ), s').1 ≠ -1 := fun hno => absurd hno (by decide : ¬ (0 : ℤ) = -1)
    have hplain := (h hgot fun hend => hmore hend.2).1
    rw [hheld, hunread] at hplain
    exact ⟨stale, hplain⟩

/-- The line `k=  v\` -/
def backslash : File where
  name := [102]
  text := ⟨[107, 61, 32, 32, 118, 92], by decide⟩
  answers := []
  quiet := List.not_mem_nil
  behind := [0]

theorem runenv_runs_on : ¬ ∀ f mem, Right f mem (doEnvfile f mem) := by
  intro h
  obtain hnil | ⟨hbehind, hall⟩ := (runenv_file_iff backslash []).mp (h backslash [])
  · cases hnil
  · obtain ⟨stale, hplain⟩ := plain_alone (f := backslash) (by decide) (by decide) hbehind hall
    have hleft : leftBehind (rawValue (trimmed backslash.text.bytes)) = [92, 0] := by decide
    rw [plain_line backslash.text.nul] at hplain
    rcases hplain (by decide) (by decide) with hnot | hhead | ⟨hkey, -⟩
    · exact hnot ((dangling_iff _).mpr (by decide))
    · rw [behindValue, hleft] at hhead
      cases hhead
    · exact absurd hkey (by decide)

end Perp.RunenvFile
