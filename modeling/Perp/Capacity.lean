import Mathlib.Algebra.Order.Ring.Nat
import Perp.IoqGetln

set_option autoImplicit false

/-!
# The sizes of growable containers

`dynstuf_grow()`, `dynbuf_grow()` and `dynstr_grow()` on the 64 bits of a `size_t`. Of a block
of memory only its size is kept, as it was passed to `realloc()`.
-/
namespace Perp.Capacity

/-! ## The functions -/

/-- `struct dynstuf`. Pointers are the sizes in bytes of their blocks; `none` is NULL. -/
structure Dynstuf where
  stuf : Option UInt64
  slots : UInt64
  items : UInt64
  deriving DecidableEq, Repr

structure Dynbuf where
  buf : Option UInt64
  n : UInt64
  p : UInt64
  deriving DecidableEq, Repr

structure Dynstr where
  s : Option UInt64
  n : UInt64
  k : UInt64
  deriving DecidableEq, Repr

/-- `got` tells whether a call of `realloc()` would succeed. -/
def dynstufGrow (got : Bool) (S : Dynstuf) (add : UInt64) : ℤ × Dynstuf :=
  let have_ := S.slots
  let need := S.items + add
  if need < S.items then (-1, S)
  else if S.stuf = none ∨ have_ < need then
    let checkNeed := need <<< 1
    if checkNeed < need then (-1, S)
    else
      let need := checkNeed
      let checkNeed := need * 8
      if checkNeed < need then (-1, S)
      else if got then (0, { S with stuf := some checkNeed, slots := need })
      else (-1, S)
  else (0, S)

def dynbufNeed (got : Bool) (d : Dynbuf) (need : UInt64) : ℤ × Dynbuf :=
  let have_ := d.n
  if d.buf = none ∨ have_ < need then
    let need := need + ((need >>> 2) + 8)
    if got then (0, { d with buf := some need, n := need }) else (-1, d)
  else (0, d)

def dynbufGrow (got : Bool) (d : Dynbuf) (add : UInt64) : ℤ × Dynbuf :=
  let add := if d.buf ≠ none then add + d.p else add
  dynbufNeed got d add

def dynstrNeed (got : Bool) (S : Dynstr) (need : UInt64) : ℤ × Dynstr :=
  let have_ := S.k
  let need := need + 1
  if S.s = none ∨ have_ < need then
    if got then (0, { S with s := some need, k := need }) else (-1, S)
  else (0, S)

def dynstrGrow (got : Bool) (S : Dynstr) (grow : UInt64) : ℤ × Dynstr :=
  let have_ := S.k
  let need := S.n + grow + 1
  if have_ < need then dynstrNeed got S need else (0, S)

/-! ## What they are for -/

/-- What a container keeps of its memory: the block, its recorded size, and how much is used -/
structure Held where
  block : Option UInt64
  cap : UInt64
  used : UInt64
  deriving DecidableEq, Repr

def Dynstuf.held (S : Dynstuf) : Held := ⟨S.stuf, S.slots, S.items⟩

def Dynbuf.held (d : Dynbuf) : Held := ⟨d.buf, d.n, d.p⟩

def Dynstr.held (S : Dynstr) : Held := ⟨S.s, S.k, S.n⟩

/-- The recorded size is that of the block, whose elements take `size` bytes each. -/
def Held.Recorded (h : Held) (size : ℕ) : Prop := ∃ b, h.block = some b ∧ b.toNat = size * h.cap.toNat

/-- The container is the initial empty one, or has room for `room` more than it uses. -/
def Held.Sound (h : Held) (size room : ℕ) : Prop :=
  h = ⟨none, 0, 0⟩ ∨ h.Recorded size ∧ h.used.toNat + room ≤ h.cap.toNat

/-- What `h` uses, the request and `room` more, as numbers without a bound -/
def Held.wanted (h : Held) (request : UInt64) (room : ℕ) : ℕ := h.used.toNat + request.toNat + room

/-- A call made room for the request, or failed and changed nothing. -/
def Answers (h : Held) (size wanted : ℕ) (ret : ℤ) (h' : Held) : Prop :=
  (ret = 0 ∧ h'.used = h.used ∧ h'.Recorded size ∧ wanted ≤ h'.cap.toNat) ∨ (ret = -1 ∧ h' = h)

theorem Answers.unchanged {h : Held} {size wanted : ℕ} : Answers h size wanted (-1) h :=
  Or.inr ⟨rfl, rfl⟩

theorem Answers.enough {h : Held} {size room wanted : ℕ} (hs : h.Sound size room)
    (hb : h.block ≠ none) (hw : wanted ≤ h.cap.toNat) : Answers h size wanted 0 h := by
  apply Or.inl
  cases hs with
  | inl h0 =>
    subst h0
    exact absurd rfl hb
  | inr h1 => exact ⟨rfl, rfl, h1.1, hw⟩

theorem Answers.fits {h h' : Held} {size wanted : ℕ} (ha : Answers h size wanted 0 h') :
    wanted ≤ h'.cap.toNat := by
  rcases ha with h0 | h1
  · exact h0.2.2.2
  · exact absurd h1.1 (by decide)

theorem Answers.recorded {h h' : Held} {size wanted : ℕ} (ha : Answers h size wanted 0 h') :
    h'.Recorded size := by
  rcases ha with h0 | h1
  · exact h0.2.2.1
  · exact absurd h1.1 (by decide)

/-! ## `dynstuf_grow()` -/

section Dynstuf
variable {S : Dynstuf} {add : UInt64}

def Dynstuf.total (S : Dynstuf) (add : UInt64) : ℕ := S.held.wanted add 0

/-- A vector of pointers has memory, and slots for the items and the request. -/
def Dynstuf.Enough (S : Dynstuf) (add : UInt64) : Prop :=
  S.stuf ≠ none ∧ S.total add ≤ S.slots.toNat

/-- The bytes of twice the slots that are needed do not wrap, or are refused: as less than the
slots, or since those wrap. -/
def Dynstuf.Safe (S : Dynstuf) (add : UInt64) : Prop :=
  S.Enough add ∨ 16 * S.total add < 2 ^ 64 ∨ 16 * S.total add % 2 ^ 64 < 2 * S.total add ∨
    2 ^ 63 ≤ S.total add

theorem total_eq : S.total add = S.items.toNat + add.toNat := rfl

theorem need_eq (h : S.total add < 2 ^ 64) : (S.items + add).toNat = S.total add := by
  rw [UInt64.toNat_add, ← total_eq, Nat.mod_eq_of_lt h]

theorem need_lt_items : S.items + add < S.items ↔ 2 ^ 64 ≤ S.total add := by
  have hi := S.items.toNat_lt
  have ha := add.toNat_lt
  rw [UInt64.lt_iff_toNat_lt, UInt64.toNat_add, total_eq]
  omega

theorem double_eq (x : UInt64) : (x <<< 1).toNat = 2 * x.toNat % 2 ^ 64 := by
  simp [UInt64.toNat_shiftLeft, Nat.shiftLeft_eq, Nat.mul_comm]

theorem double_lt (x : UInt64) : x <<< 1 < x ↔ 2 ^ 63 ≤ x.toNat := by
  have hx := x.toNat_lt
  rw [UInt64.lt_iff_toNat_lt, double_eq]
  omega

theorem eight_eq (x : UInt64) : (x * 8).toNat = 8 * x.toNat % 2 ^ 64 := by
  simp only [UInt64.toNat_mul, UInt64.reduceToNat]
  omega

theorem slots_eq (hd : S.total add < 2 ^ 63) :
    ((S.items + add) <<< 1).toNat = 2 * S.total add := by
  rw [double_eq, need_eq (by omega)]
  omega

theorem bytes_eq (hd : S.total add < 2 ^ 63) :
    ((S.items + add) <<< 1 * 8).toNat = 16 * S.total add % 2 ^ 64 := by
  rw [eight_eq, slots_eq hd, ← Nat.mul_assoc]

theorem stuf_enough (h : S.Enough add) (got : Bool) : dynstufGrow got S add = (0, S) := by
  have hs := S.slots.toNat_lt
  have hfit : S.total add < 2 ^ 64 := lt_of_le_of_lt h.2 hs
  have hlt : ¬ S.slots < S.items + add := by
    rw [UInt64.lt_iff_toNat_lt, need_eq hfit]
    exact Nat.not_lt.mpr h.2
  rw [dynstufGrow, if_neg (by rw [need_lt_items]; omega), if_neg]
  simp [h.1, hlt]

theorem stuf_grows (h : ¬ S.Enough add) (hfit : S.total add < 2 ^ 64) :
    S.stuf = none ∨ S.slots < S.items + add := by
  rw [UInt64.lt_iff_toNat_lt, need_eq hfit]
  by_cases hn : S.stuf = none
  · exact Or.inl hn
  · apply Or.inr
    by_contra hle
    exact h ⟨hn, Nat.not_lt.mp hle⟩

theorem stuf_refused (h : ¬ S.Enough add) (hr : 16 * S.total add % 2 ^ 64 < 2 * S.total add ∨
    2 ^ 63 ≤ S.total add) (got : Bool) : dynstufGrow got S add = (-1, S) := by
  by_cases hfit : S.total add < 2 ^ 64
  · rw [dynstufGrow, if_neg (by rw [need_lt_items]; omega), if_pos (stuf_grows h hfit)]
    by_cases hd : 2 ^ 63 ≤ S.total add
    · rw [if_pos (by rw [double_lt, need_eq hfit]; exact hd)]
    · rw [if_neg (by rw [double_lt, need_eq hfit]; exact hd), if_pos]
      have hlt := Nat.not_le.mp hd
      rw [UInt64.lt_iff_toNat_lt, bytes_eq hlt, slots_eq hlt]
      omega
  · rw [dynstufGrow, if_pos (by rw [need_lt_items]; omega)]

theorem stuf_grown (h : ¬ S.Enough add) (hd : S.total add < 2 ^ 63)
    (hr : 2 * S.total add ≤ 16 * S.total add % 2 ^ 64) : ∃ slots bytes : UInt64,
      slots.toNat = 2 * S.total add ∧ bytes.toNat = 16 * S.total add % 2 ^ 64 ∧
      ∀ got, dynstufGrow got S add =
        if got then (0, { S with stuf := some bytes, slots := slots }) else (-1, S) := by
  have hfit : S.total add < 2 ^ 64 := by omega
  refine ⟨_, _, slots_eq hd, bytes_eq hd, fun got => ?_⟩
  rw [dynstufGrow, if_neg (by rw [need_lt_items]; omega), if_pos (stuf_grows h hfit),
    if_neg (by rw [double_lt, need_eq hfit]; omega), if_neg]
  rw [UInt64.lt_iff_toNat_lt, slots_eq hd, bytes_eq hd]
  omega

theorem dynstuf_answers (hs : S.held.Sound 8 0) :
    (∀ got, Answers S.held 8 (S.total add) (dynstufGrow got S add).1
      (dynstufGrow got S add).2.held) ↔ S.Safe add := by
  by_cases he : S.Enough add
  · refine iff_of_true (fun got => ?_) (Or.inl he)
    rw [stuf_enough he]
    exact Answers.enough hs he.1 he.2
  · by_cases hr : 16 * S.total add % 2 ^ 64 < 2 * S.total add ∨ 2 ^ 63 ≤ S.total add
    · refine iff_of_true (fun got => ?_) (Or.inr (Or.inr hr))
      rw [stuf_refused he hr]
      exact Answers.unchanged
    · rw [not_or, Nat.not_lt, Nat.not_le] at hr
      obtain ⟨slots, bytes, hslots, hbytes, hgrow⟩ := stuf_grown he hr.2 hr.1
      constructor
      · intro h
        have hgot := h true
        rw [hgrow, if_pos rfl] at hgot
        obtain ⟨b, hb, heq⟩ := hgot.recorded
        cases hb
        have hexact : bytes.toNat = 8 * slots.toNat := heq
        apply Or.inr
        apply Or.inl
        omega
      · intro hsafe got
        have hfit : 16 * S.total add < 2 ^ 64 := by
          rcases hsafe with h | h | h | h
          · exact absurd h he
          · exact h
          · omega
          · omega
        rw [hgrow]
        cases got with
        | false => exact Answers.unchanged
        | true =>
          apply Or.inl
          refine ⟨rfl, rfl, ⟨bytes, rfl, ?_⟩, ?_⟩
          · change bytes.toNat = 8 * slots.toNat
            omega
          · change S.total add ≤ slots.toNat
            omega

end Dynstuf

/-! ## `dynbuf_grow()` -/

section Dynbuf
variable {d : Dynbuf} {add : UInt64}

def Dynbuf.total (d : Dynbuf) (add : UInt64) : ℕ := d.held.wanted add 0

def Dynbuf.Enough (d : Dynbuf) (add : UInt64) : Prop := d.buf ≠ none ∧ d.total add ≤ d.n.toNat

/-- A quarter more than what is needed, and eight bytes, do not wrap. -/
def Dynbuf.Safe (d : Dynbuf) (add : UInt64) : Prop :=
  d.Enough add ∨ d.total add + d.total add / 4 + 8 < 2 ^ 64

theorem quarter_eq (x : UInt64) :
    (x + ((x >>> 2) + 8)).toNat = (x.toNat + x.toNat / 4 + 8) % 2 ^ 64 := by
  have hx := x.toNat_lt
  have hquarter : (x >>> 2).toNat = x.toNat / 4 := by
    simp [Nat.shiftRight_eq_div_pow]
  simp only [UInt64.toNat_add, hquarter, UInt64.reduceToNat]
  omega

/-- What is asked of `dynbuf_need()`; the position of an empty buffer is zero. -/
theorem asked_eq (hs : d.held.Sound 1 1) :
    (if d.buf ≠ none then add + d.p else add).toNat = d.total add % 2 ^ 64 := by
  have ha := add.toNat_lt
  simp only [Dynbuf.total, Held.wanted, Dynbuf.held]
  rcases hs with h0 | h1
  · have hp : d.p = 0 := congrArg Held.used h0
    have hb : d.buf = none := congrArg Held.block h0
    simp only [hb, hp, ne_eq, not_true_eq_false, if_false, UInt64.reduceToNat]
    omega
  · obtain ⟨b, hb, -⟩ := h1.1
    have hn : d.buf ≠ none := by
      have hblock : d.buf = some b := hb
      simp [hblock]
    rw [if_pos hn, UInt64.toNat_add]
    omega

theorem dynbuf_answers (hs : d.held.Sound 1 1) :
    (∀ got, Answers d.held 1 (d.total add) (dynbufGrow got d add).1
      (dynbufGrow got d add).2.held) ↔ d.Safe add := by
  have hn := d.n.toNat_lt
  have hasked : (if d.buf ≠ none then add + d.p else add).toNat = d.total add % 2 ^ 64 := asked_eq hs
  unfold dynbufGrow
  generalize (if d.buf ≠ none then add + d.p else add) = need at hasked
  have hlt : d.n < need ↔ d.n.toNat < d.total add % 2 ^ 64 := by
    rw [UInt64.lt_iff_toNat_lt, hasked]
  have hmore := quarter_eq need
  rw [hasked] at hmore
  unfold dynbufNeed
  by_cases hgrow : d.buf = none ∨ d.n < need
  · simp only [if_pos hgrow]
    constructor
    · intro h
      have hgot := h true
      rw [if_pos rfl] at hgot
      have hroom : d.total add ≤ (need + ((need >>> 2) + 8)).toNat := hgot.fits
      have hsize := (need + ((need >>> 2) + 8)).toNat_lt
      rw [Nat.mod_eq_of_lt (lt_of_le_of_lt hroom hsize)] at hmore
      apply Or.inr
      omega
    · intro hsafe got
      have hfit : d.total add + d.total add / 4 + 8 < 2 ^ 64 := by
        rcases hsafe with h | h
        · rw [hlt] at hgrow
          have hle := h.2
          have hnone := h.1
          rcases hgrow with hg | hg
          · exact absurd hg hnone
          · omega
        · exact h
      cases got with
      | false => exact Answers.unchanged
      | true =>
        apply Or.inl
        refine ⟨rfl, rfl, ⟨_, rfl, (Nat.one_mul _).symm⟩, ?_⟩
        change d.total add ≤ (need + ((need >>> 2) + 8)).toNat
        rw [hmore, Nat.mod_eq_of_lt (by omega : d.total add < 2 ^ 64), Nat.mod_eq_of_lt hfit]
        omega
  · simp only [if_neg hgrow]
    rw [not_or, hlt] at hgrow
    constructor
    · intro h
      exact Or.inl ⟨hgrow.1, (h true).fits⟩
    · intro hsafe got
      apply Answers.enough hs hgrow.1
      change d.total add ≤ d.n.toNat
      rcases hsafe with h | h
      · exact h.2
      · omega

end Dynbuf

/-! ## `dynstr_grow()` -/

section Dynstr
variable {S : Dynstr} {grow : UInt64}

/-- The terminator is part of it. -/
def Dynstr.total (S : Dynstr) (grow : UInt64) : ℕ := S.held.wanted grow 1

def Dynstr.Enough (S : Dynstr) (grow : UInt64) : Prop := S.total grow ≤ S.k.toNat

/-- A byte more than what is needed does not wrap. -/
def Dynstr.Safe (S : Dynstr) (grow : UInt64) : Prop :=
  S.Enough grow ∨ S.total grow + 1 < 2 ^ 64

theorem str_need_eq : (S.n + grow + 1).toNat = S.total grow % 2 ^ 64 := by
  simp only [UInt64.toNat_add, UInt64.reduceToNat, Dynstr.total, Held.wanted, Dynstr.held]
  omega

theorem one_more (x : UInt64) : (x + 1).toNat = (x.toNat + 1) % 2 ^ 64 := by
  simp only [UInt64.toNat_add, UInt64.reduceToNat]

theorem str_need_grows {need : UInt64} (hlt : S.k.toNat < need.toNat)
    (hfit : need.toNat + 1 < 2 ^ 64) (got : Bool) : dynstrNeed got S need =
      if got then (0, { S with s := some (need + 1), k := need + 1 }) else (-1, S) := by
  rw [dynstrNeed, if_pos]
  apply Or.inr
  rw [UInt64.lt_iff_toNat_lt, one_more, Nat.mod_eq_of_lt hfit]
  omega

/-- A string that all the room is asked for gets none: the byte more is number zero. -/
theorem str_need_wraps {need : UInt64} (hwrap : need + 1 = 0) :
    (dynstrNeed true S need).1 = 0 ∧ (dynstrNeed true S need).2.k.toNat ≤ S.k.toNat := by
  rw [dynstrNeed, hwrap]
  split
  · exact ⟨rfl, Nat.zero_le _⟩
  · exact ⟨rfl, Nat.le_refl _⟩

theorem str_grown_safe (hgot : Answers S.held 1 (S.total grow) (dynstrGrow true S grow).1
    (dynstrGrow true S grow).2.held) : S.Safe grow := by
  have hneed : (S.n + grow + 1).toNat = S.total grow % 2 ^ 64 := str_need_eq
  by_contra hunsafe
  rw [Dynstr.Safe, not_or, Dynstr.Enough, Nat.not_le, Nat.not_lt] at hunsafe
  rw [dynstrGrow] at hgot
  by_cases hlt : S.k < S.n + grow + 1
  · rw [if_pos hlt] at hgot
    rw [UInt64.lt_iff_toNat_lt, hneed] at hlt
    by_cases hwrap : S.n + grow + 1 + 1 = 0
    · have hless := str_need_wraps (S := S) hwrap
      rw [hless.1] at hgot
      have hroom : S.total grow ≤ (dynstrNeed true S (S.n + grow + 1)).2.k.toNat := hgot.fits
      omega
    · have hmore : (S.n + grow + 1).toNat + 1 < 2 ^ 64 := by
        have hsize := (S.n + grow + 1).toNat_lt
        have hone := one_more (S.n + grow + 1)
        have hne : (S.n + grow + 1 + 1).toNat ≠ 0 := fun h => hwrap (UInt64.toNat_inj.mp h)
        omega
      rw [str_need_grows (by rw [hneed]; exact hlt) hmore, if_pos rfl] at hgot
      have hroom : S.total grow ≤ (S.n + grow + 1 + 1).toNat := hgot.fits
      have hsize := (S.n + grow + 1 + 1).toNat_lt
      have heq : S.total grow = 2 ^ 64 - 1 := by omega
      omega
  · rw [if_neg hlt] at hgot
    have hroom : S.total grow ≤ S.k.toNat := hgot.fits
    omega

theorem dynstr_answers (hs : S.held.Sound 1 1) :
    (∀ got, Answers S.held 1 (S.total grow) (dynstrGrow got S grow).1
      (dynstrGrow got S grow).2.held) ↔ S.Safe grow := by
  have hneed : (S.n + grow + 1).toNat = S.total grow % 2 ^ 64 := str_need_eq
  have hk := S.k.toNat_lt
  refine ⟨fun h => str_grown_safe (h true), fun hsafe got => ?_⟩
  by_cases he : S.Enough grow
  · have hle : S.total grow ≤ S.k.toNat := he
    have hpos : 0 < S.total grow := Nat.succ_pos _
    have hblock : S.held.block ≠ none := by
      rcases hs with h0 | h1
      · have hzero : S.k = 0 := congrArg Held.cap h0
        simp only [hzero, UInt64.reduceToNat] at hle
        omega
      · obtain ⟨b, hb, -⟩ := h1.1
        simp [hb]
    rw [dynstrGrow, if_neg]
    · exact Answers.enough hs hblock hle
    · rw [UInt64.lt_iff_toNat_lt, hneed]
      omega
  · have hfit := hsafe.resolve_left he
    have hlt : S.k.toNat < S.total grow := Nat.not_le.mp he
    rw [Nat.mod_eq_of_lt (by omega)] at hneed
    rw [dynstrGrow, if_pos (by rw [UInt64.lt_iff_toNat_lt, hneed]; exact hlt),
      str_need_grows (by rw [hneed]; exact hlt) (by rw [hneed]; exact hfit)]
    cases got with
    | false => exact Answers.unchanged
    | true =>
      apply Or.inl
      refine ⟨rfl, rfl, ⟨_, rfl, (Nat.one_mul _).symm⟩, ?_⟩
      change S.total grow ≤ (S.n + grow + 1 + 1).toNat
      rw [one_more, hneed, Nat.mod_eq_of_lt hfit]
      omega

end Dynstr

/-! ## Sizes without a bound

While nothing wraps, the operations are those on buffers with numbers for sizes. -/

def cutBuf (d : Dynbufs.Dynbuf) : Dynbuf :=
  ⟨d.buf.map fun cells => .ofNat cells.length, .ofNat d.n, .ofNat d.p⟩

def cutStr (S : IoqGetln.Dynstr) : Dynstr :=
  ⟨S.s.map fun cells => .ofNat cells.length, .ofNat S.n, .ofNat S.k⟩

theorem realloc_length (cells : Dynbufs.Cells) (size : ℕ) :
    (Dynbufs.realloc cells size).length = size := by
  simp only [Dynbufs.realloc, List.length_append, List.length_take, List.length_replicate]
  omega

theorem toNat_cut {n : ℕ} (h : n < 2 ^ 64) : (UInt64.ofNat n).toNat = n := by
  rw [UInt64.toNat_ofNat', Nat.mod_eq_of_lt h]

theorem dynbufNeed_cut {d : Dynbufs.Dynbuf} {need : ℕ} (hn : d.n < 2 ^ 64)
    (hfit : need + need / 4 + 8 < 2 ^ 64) (got : Bool) :
    dynbufNeed got (cutBuf d) (.ofNat need) =
      ((Dynbufs.dynbufNeed got d need).1, cutBuf (Dynbufs.dynbufNeed got d need).2) := by
  have hneed := toNat_cut (n := need) (by omega)
  have hmore : UInt64.ofNat need + ((UInt64.ofNat need >>> 2) + 8) =
      .ofNat (need + (need / 4 + 8)) := by
    apply UInt64.toNat_inj.mp
    rw [quarter_eq, hneed, toNat_cut (by omega), Nat.mod_eq_of_lt hfit, Nat.add_assoc]
  have hgrow : ((cutBuf d).buf = none ∨ (cutBuf d).n < .ofNat need) ↔
      (d.buf = none ∨ d.n < need) := by
    simp only [cutBuf, Option.map_eq_none_iff, UInt64.lt_iff_toNat_lt, hneed, toNat_cut hn]
  simp only [dynbufNeed, Dynbufs.dynbufNeed, hgrow, hmore]
  split
  · cases got with
    | false => rfl
    | true => simp [cutBuf, realloc_length]
  · rfl

theorem dynbufGrow_cut {d : Dynbufs.Dynbuf} {add : ℕ} (hn : d.n < 2 ^ 64)
    (hfit : d.p + add + (d.p + add) / 4 + 8 < 2 ^ 64) (got : Bool) :
    dynbufGrow got (cutBuf d) (.ofNat add) =
      ((Dynbufs.dynbufGrow got d add).1, cutBuf (Dynbufs.dynbufGrow got d add).2) := by
  have hadd : (if (cutBuf d).buf ≠ none then UInt64.ofNat add + (cutBuf d).p else .ofNat add) =
      .ofNat (if d.buf = none then add else add + d.p) := by
    by_cases h : d.buf = none
    · simp [cutBuf, h]
    · simp [cutBuf, h, UInt64.ofNat_add]
  rw [dynbufGrow, hadd, Dynbufs.dynbufGrow]
  apply dynbufNeed_cut hn
  split <;> omega

theorem dynstrGrow_cut {S : IoqGetln.Dynstr} {grow : ℕ} {mem : IoqGetln.Mem} (hk : S.k < 2 ^ 64)
    (hfit : S.n + grow + 2 < 2 ^ 64) :
    dynstrGrow (mem.headD true) (cutStr S) (.ofNat grow) =
      ((IoqGetln.dynstrGrow mem S grow).1, cutStr (IoqGetln.dynstrGrow mem S grow).2.1) := by
  have hneed : (cutStr S).n + .ofNat grow + 1 = .ofNat (S.n + grow + 1) := by
    simp [cutStr, UInt64.ofNat_add]
  have hmore : UInt64.ofNat (S.n + grow + 1) + 1 = .ofNat (S.n + grow + 1 + 1) := by
    simp [UInt64.ofNat_add]
  have hlt : ∀ need < 2 ^ 64, ((cutStr S).k < .ofNat need) ↔ S.k < need := by
    intro need hsize
    simp only [cutStr, UInt64.lt_iff_toNat_lt, toNat_cut hk, toNat_cut hsize]
  have hnull : (cutStr S).s = none ↔ S.s = none := by
    simp [cutStr]
  simp only [dynstrGrow, IoqGetln.dynstrGrow, hneed, hlt _ (by omega : S.n + grow + 1 < 2 ^ 64),
    dynstrNeed, IoqGetln.dynstrNeed, hmore, hnull,
    hlt _ (by omega : S.n + grow + 1 + 1 < 2 ^ 64)]
  split
  · split
    · cases mem.headD true with
      | false => rfl
      | true => simp [cutStr, realloc_length]
    · rfl
  · rfl

/-! ## All three -/

/-- A container in one of the states that the calls may find it in -/
structure SoundStuf where
  S : Dynstuf
  sound : S.held.Sound 8 0

structure SoundBuf where
  d : Dynbuf
  sound : d.held.Sound 1 1

structure SoundStr where
  S : Dynstr
  sound : S.held.Sound 1 1

theorem grows_right (v : SoundStuf) (b : SoundBuf) (s : SoundStr) (request : UInt64) :
    ((∀ got, Answers v.S.held 8 (v.S.total request) (dynstufGrow got v.S request).1
        (dynstufGrow got v.S request).2.held) ↔ v.S.Safe request) ∧
      ((∀ got, Answers b.d.held 1 (b.d.total request) (dynbufGrow got b.d request).1
        (dynbufGrow got b.d request).2.held) ↔ b.d.Safe request) ∧
      ((∀ got, Answers s.S.held 1 (s.S.total request) (dynstrGrow got s.S request).1
        (dynstrGrow got s.S request).2.held) ↔ s.S.Safe request) :=
  ⟨dynstuf_answers v.sound, dynbuf_answers b.sound, dynstr_answers s.sound⟩

/-- An empty string that is to hold 2^64 - 1 bytes is said to hold them. -/
theorem dynstr_grow_wraps : ¬ ∀ (s : SoundStr) (grow : UInt64) (got : Bool),
    Answers s.S.held 1 (s.S.total grow) (dynstrGrow got s.S grow).1
      (dynstrGrow got s.S grow).2.held := by
  intro h
  have hat := h ⟨⟨none, 0, 0⟩, Or.inl rfl⟩ 18446744073709551615 true
  have hzero : dynstrGrow true ⟨none, 0, 0⟩ 18446744073709551615 = (0, ⟨none, 0, 0⟩) := by decide
  rw [hzero] at hat
  have hroom := hat.fits
  revert hroom
  decide

end Perp.Capacity
