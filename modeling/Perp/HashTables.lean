import Perp.HashAdded
import Perp.PktSplit

set_option autoImplicit false

/-!
# Hash tables of a database

What `cdbmk_finish()` computes of the sizes of its tables, and that none of it has
wrapped around when it returns 0.
-/
namespace Perp.HashTables
open Pkt ByteImage IoqPut HashFile HashImage HashAdded

/-! ## Counts -/

/-- The number of records whose subtable satisfies `P` -/
def cnt (F : Format) (rbase : ℕ) (recs : List Rec) (P : ℕ → Bool) : ℕ :=
  (layout F rbase recs).countP fun p => P (F.ntab (hashOf F p))

section counts
variable {F : Format} {rbase : ℕ} {recs : List Rec} {P Q R : ℕ → Bool}

theorem cnt_split (F : Format) (rbase : ℕ) (recs : List Rec) (hor : ∀ j, P j = (Q j || R j))
    (hdisj : ∀ j, Q j = true → R j = false) :
    cnt F rbase recs P = cnt F rbase recs Q + cnt F rbase recs R := by
  unfold cnt
  generalize layout F rbase recs = ps
  induction ps with
  | nil => rfl
  | cons p ps ih =>
    have hQR := hdisj (F.ntab (hashOf F p))
    rw [List.countP_cons, List.countP_cons, List.countP_cons, ih, hor]
    cases hQ : Q (F.ntab (hashOf F p)) with
    | false =>
      rw [Bool.false_or]
      simp only [Bool.false_eq_true, if_false]
      omega
    | true =>
      rw [hQR hQ]
      simp only [Bool.or_false, if_true, Bool.false_eq_true, if_false]
      omega

theorem cnt_mono (F : Format) (rbase : ℕ) (recs : List Rec) (h : ∀ j, P j = true → Q j = true) :
    cnt F rbase recs P ≤ cnt F rbase recs Q :=
  List.countP_mono_left fun p _ => h (F.ntab (hashOf F p))

theorem cnt_eq (F : Format) (rbase : ℕ) (recs : List Rec) (i : ℕ) :
    cnt F rbase recs (fun j => j = i) = (table F rbase recs i).length :=
  List.countP_eq_length_filter

theorem cnt_none (F : Format) (rbase : ℕ) (recs : List Rec) (h : ∀ j, P j = false) :
    cnt F rbase recs P = 0 := by
  simp [cnt, h]

/-- All slots together are as many as a `uint32_t` can count. -/
theorem two_cnt_lt (hpos : 0 < rbase) (heod : eod F rbase recs < 2 ^ 32) (P : ℕ → Bool) :
    2 * cnt F rbase recs P < 2 ^ 32 := by
  have hle : cnt F rbase recs P ≤ recs.length := by
    rw [← @layout_length F rbase recs]
    exact List.countP_le_length
  have hlen := @length_le_eod F rbase recs
  have hhdr : 2 ≤ F.hdr := by
    have := F.width_pos
    unfold Format.hdr
    omega
  have := Nat.mul_le_mul_right recs.length hhdr
  omega

theorem cnt_lt_succ (F : Format) (rbase : ℕ) (recs : List Rec) (i : ℕ) :
    cnt F rbase recs (fun j => j < i + 1) =
      cnt F rbase recs (fun j => j < i) + cnt F rbase recs (fun j => j = i) := by
  apply cnt_split
  · intro j
    rw [Bool.eq_iff_iff]
    simp only [Bool.or_eq_true, decide_eq_true_eq]
    omega
  · intro j hj
    simp only [decide_eq_true_eq] at hj
    simp only [decide_eq_false_iff_not]
    omega

/-- The subtables up to `i` in a list are those before it, and `i`. -/
theorem cnt_succ (F : Format) (rbase : ℕ) (recs : List Rec) {l i : ℕ} (hi : F.nlist i = l) :
    cnt F rbase recs (fun j => j < i + 1 && F.nlist j = l) =
      cnt F rbase recs (fun j => j < i && F.nlist j = l) + cnt F rbase recs (fun j => j = i) := by
  apply cnt_split
  · intro j
    rw [Bool.eq_iff_iff]
    simp only [Bool.or_eq_true, Bool.and_eq_true, decide_eq_true_eq]
    constructor
    · rintro ⟨hj, hjl⟩
      rcases Nat.lt_succ_iff_lt_or_eq.mp hj with hlt | heq
      · exact .inl ⟨hlt, hjl⟩
      · exact .inr heq
    · rintro (⟨hj, hjl⟩ | rfl)
      · exact ⟨Nat.lt_succ_of_lt hj, hjl⟩
      · exact ⟨Nat.lt_succ_self j, hi⟩
  · intro j hj
    simp only [Bool.and_eq_true, decide_eq_true_eq] at hj
    simp only [decide_eq_false_iff_not]
    omega

theorem cnt_skip (F : Format) (rbase : ℕ) (recs : List Rec) {l i : ℕ} (hi : F.nlist i ≠ l) :
    cnt F rbase recs (fun j => j < i + 1 && F.nlist j = l) =
      cnt F rbase recs (fun j => j < i && F.nlist j = l) := by
  congr 1
  funext j
  rw [Bool.eq_iff_iff]
  simp only [Bool.and_eq_true, decide_eq_true_eq]
  constructor
  · rintro ⟨hj, hjl⟩
    rcases Nat.lt_succ_iff_lt_or_eq.mp hj with hlt | rfl
    · exact ⟨hlt, hjl⟩
    · exact absurd hjl hi
  · rintro ⟨hj, hjl⟩
    exact ⟨Nat.lt_succ_of_lt hj, hjl⟩

end counts

section sizes
variable {F : Format} {f pre : List UInt8} {off rbase : ℕ} {recs : List Rec} {m : Mk}

theorem slots_eq (h : Added F f off pre rbase recs m) (hpos : 0 < rbase) (i : ℕ) :
    slots m i = tslotsOf F rbase recs i := by
  have hlt := two_cnt_lt hpos (h.fp ▸ h.fp_lt) fun j => j = i
  rw [cnt_eq] at hlt
  rw [slots, h.counts, tslotsOf, Nat.mul_comm]
  exact Nat.mod_eq_of_lt hlt

theorem sum_eq (h : Added F f off pre rbase recs m) (hpos : 0 < rbase) (i : ℕ) :
    sum m i = 2 * cnt F rbase recs fun j => j < i := by
  induction i with
  | zero => rw [sum, cnt_none F rbase recs (by simp)]
  | succ i ih =>
    have hsplit := cnt_lt_succ F rbase recs i
    have hlt := two_cnt_lt hpos (h.fp ▸ h.fp_lt) fun j => j < i + 1
    rw [hsplit] at hlt ⊢
    rw [sum, ih, slots_eq h hpos, tslotsOf, ← cnt_eq, Nat.mod_eq_of_lt (by omega)]
    omega

theorem listSlots_eq (h : Added F f off pre rbase recs m) (hpos : 0 < rbase) (l i : ℕ) :
    listSlots F m l i = 2 * cnt F rbase recs fun j => j < i && F.nlist j = l := by
  induction i with
  | zero => rw [listSlots, cnt_none F rbase recs (by simp)]
  | succ i ih =>
    by_cases hl : F.nlist i = l
    · have hsplit := cnt_succ F rbase recs hl
      have hlt := two_cnt_lt hpos (h.fp ▸ h.fp_lt) fun j => j < i + 1 && F.nlist j = l
      rw [hsplit] at hlt ⊢
      rw [listSlots, if_pos hl, ih, slots_eq h hpos, tslotsOf, ← cnt_eq,
        Nat.mod_eq_of_lt (by omega)]
      omega
    · rw [listSlots, if_neg hl, ih, cnt_skip F rbase recs hl]

/-- Offsets of tables are multiples of 8, wrapped around or not. -/
theorem toff_dvd {i v : ℕ} (h : toff m i = some v) : v % 8 = 0 := by
  induction i generalizing v with
  | zero =>
    cases h
    rfl
  | succ i ih =>
    obtain ⟨u, hu, hv⟩ := Option.bind_eq_some_iff.mp h
    have := ih hu
    unfold ufuncU32add at hv
    split at hv
    · cases hv
    · obtain rfl := Option.some.inj hv
      omega

theorem offset_dvd (m : Mk) (i : ℕ) : offset m i % 8 = 0 := by
  unfold offset
  cases h : toff m i with
  | none => rfl
  | some v => exact toff_dvd h

/-- The offsets are those of the tables before, unless one of the products has
wrapped around. -/
theorem toff_eq (hsmall : ∀ i, slots m i * 8 < 2 ^ 32) {i v : ℕ} (h : toff m i = some v) :
    v < 2 ^ 32 ∧ ∀ j, j ≤ i → toff m j = some (8 * sum m j) := by
  induction i generalizing v with
  | zero =>
    cases h
    refine ⟨by decide, fun j hj => ?_⟩
    obtain rfl : j = 0 := by omega
    rfl
  | succ i ih =>
    obtain ⟨u, hu, hv⟩ := Option.bind_eq_some_iff.mp h
    obtain ⟨hult, hbefore⟩ := ih hu
    rw [Nat.mod_eq_of_lt (hsmall i)] at hv
    obtain ⟨hlt, rfl⟩ := (ufuncU32add_eq_some hult).mp hv
    refine ⟨hlt, fun j hj => ?_⟩
    rcases Nat.lt_succ_iff_lt_or_eq.mp (Nat.lt_succ_of_le hj) with hji | rfl
    · exact hbefore j (by omega)
    · have hself := hbefore i (Nat.le_refl i)
      rw [hself] at hu
      obtain rfl := Option.some.inj hu
      rw [h, sum, Nat.mod_eq_of_lt (by omega)]
      congr 1
      omega

theorem foldl_max (g : ℕ → ℕ) (xs : List ℕ) (a : ℕ) :
    a ≤ xs.foldl (fun max l => Nat.max max (g l)) a ∧
      (∀ x ∈ xs, g x ≤ xs.foldl (fun max l => Nat.max max (g l)) a) ∧
      (xs.foldl (fun max l => Nat.max max (g l)) a = a ∨
        ∃ x ∈ xs, xs.foldl (fun max l => Nat.max max (g l)) a = g x) := by
  induction xs generalizing a with
  | nil => simp
  | cons x xs ih =>
    obtain ⟨hle, hall, hex⟩ := ih (Nat.max a (g x))
    have hmax : a ≤ Nat.max a (g x) ∧ g x ≤ Nat.max a (g x) :=
      ⟨Nat.le_max_left _ _, Nat.le_max_right _ _⟩
    simp only [List.foldl_cons]
    refine ⟨hmax.1.trans hle, fun y hy => ?_, ?_⟩
    · rcases List.mem_cons.mp hy with rfl | hy
      · exact hmax.2.trans hle
      · exact hall y hy
    · rcases hex with heq | ⟨y, hy, heq⟩
      · rw [heq]
        rcases Nat.le_total a (g x) with hag | hga
        · exact .inr ⟨x, List.mem_cons_self, Nat.max_eq_right hag⟩
        · exact .inl (Nat.max_eq_left hga)
      · exact .inr ⟨y, List.mem_cons_of_mem _ hy, heq⟩

end sizes

end Perp.HashTables
