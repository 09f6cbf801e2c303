import Perp.HashImage

set_option autoImplicit false

/-!
# Adding records

What a generator holds after every run of `cdbmk_add()` that returns 0.
-/
namespace Perp.HashAdded
open Pkt ByteImage IoqPut HashFile HashImage

/-! ## Runs that succeed -/

section runs
universe u
variable {α β : Type u} {ε : Type}

theorem bind_eq_ok {x : Except ε α} {f : α → Except ε β} {b : β} :
    x >>= f = .ok b ↔ ∃ a, x = .ok a ∧ f a = .ok b := by
  cases x with
  | error e => simp [bind, Except.bind]
  | ok a => simp [bind, Except.bind]

/-- What every step keeps holds after a run, of the inputs taken so far. -/
theorem foldlM_run {P : List α → β → Prop} {f : β → α → Except ε β} {b b' : β} {xs : List α}
    (hstep : ∀ pre x post b b', xs = pre ++ x :: post → P pre b → f b x = .ok b' →
      P (pre ++ [x]) b')
    (hb : P [] b) (h : xs.foldlM f b = .ok b') : P xs b' := by
  have hgen : ∀ post pre b, xs = pre ++ post → P pre b → post.foldlM f b = .ok b' → P xs b' := by
    intro post
    induction post with
    | nil =>
      intro pre b hxs hp hrun
      obtain rfl : b = b' := Except.ok.inj hrun
      rwa [hxs, List.append_nil]
    | cons x post ih =>
      intro pre b hxs hp hrun
      rw [List.foldlM_cons, bind_eq_ok] at hrun
      obtain ⟨b1, hx, hrun⟩ := hrun
      exact ih (pre ++ [x]) b1 (by rw [hxs, List.append_assoc]; rfl)
        (hstep pre x post b b1 hxs hp hx) hrun
  exact hgen xs [] b rfl hb h

theorem returned_eq_ok {α : Type} {r : ℤ × α} {a : α} :
    returned r = .ok a ↔ r.1 ≠ -1 ∧ r.2 = a := by
  unfold returned
  by_cases h : r.1 = -1
  · simp [h]
  · simp [h]

end runs

/-! ## Sums of `uint32_t` -/

theorem ufuncU32add_eq_some {u a v : ℕ} (hu : u < 2 ^ 32) :
    ufuncU32add u a = some v ↔ u + a < 2 ^ 32 ∧ u + a = v := by
  unfold ufuncU32add
  by_cases hlt : u + a < 2 ^ 32
  · rw [Nat.mod_eq_of_lt hlt, if_neg (by omega), Option.some.injEq]
    exact (and_iff_right hlt).symm
  · rw [if_pos (by omega)]
    constructor
    · intro h
      cases h
    · intro h
      exact absurd h.1 hlt

theorem recordEnd_eq_some {fp hdr klen dlen v : ℕ} (hfp : fp < 2 ^ 32) :
    recordEnd fp hdr klen dlen = some v ↔
      fp + hdr + klen + dlen < 2 ^ 32 ∧ fp + hdr + klen + dlen = v := by
  simp only [recordEnd, Option.bind_eq_some_iff]
  constructor
  · rintro ⟨b, ⟨a, ha, hb⟩, hv⟩
    obtain ⟨halt, rfl⟩ := (ufuncU32add_eq_some hfp).mp ha
    obtain ⟨hblt, rfl⟩ := (ufuncU32add_eq_some halt).mp hb
    exact (ufuncU32add_eq_some hblt).mp hv
  · rintro ⟨hlt, rfl⟩
    have ha : fp + hdr < 2 ^ 32 := by omega
    have hb : fp + hdr + klen < 2 ^ 32 := by omega
    exact ⟨_, ⟨_, (ufuncU32add_eq_some hfp).mpr ⟨ha, rfl⟩, (ufuncU32add_eq_some ha).mpr ⟨hb, rfl⟩⟩,
      (ufuncU32add_eq_some hb).mpr ⟨hlt, rfl⟩⟩

theorem recordEnd_eq_none {fp hdr klen dlen : ℕ} (hfp : fp < 2 ^ 32) :
    recordEnd fp hdr klen dlen = none ↔ 2 ^ 32 ≤ fp + hdr + klen + dlen := by
  rw [Option.eq_none_iff_forall_ne_some, ← Nat.not_lt]
  constructor
  · intro h hlt
    exact h _ ((recordEnd_eq_some hfp).mpr ⟨hlt, rfl⟩)
  · intro h v hv
    exact h ((recordEnd_eq_some hfp).mp hv).1

variable {F : Format} {m : Mk}

/-! ## One record -/

theorem roomy_spec {mem : List Bool} {blocks rest : List (List Hashoff)} {block : List Hashoff}
    (h : (roomy F mem blocks).1 = some (block, rest)) :
    (block :: rest).reverse.flatten = blocks.reverse.flatten := by
  have hnew : ∀ bs, (newBlock mem bs).1 = some (block, rest) →
      (block :: rest).reverse.flatten = bs.reverse.flatten := by
    intro bs hbs
    unfold newBlock at hbs
    split at hbs
    · simp at hbs
    · obtain ⟨rfl, rfl⟩ := Prod.mk.inj (Option.some.inj hbs)
      simp
  cases blocks with
  | nil => exact hnew [] h
  | cons b bs =>
    rw [roomy] at h
    by_cases hfull : b.length ≥ F.nrecs
    · rw [if_pos hfull] at h
      exact hnew _ h
    · rw [if_neg hfull] at h
      obtain ⟨rfl, rfl⟩ := Prod.mk.inj (Option.some.inj h)
      rfl

/-- The records of a list in the order in which they were added -/
def listed (m : Mk) (l : ℕ) : List Hashoff := (m.inputList l).reverse.flatten

/-- `cdbmk__update()` adds one entry to its list and counts it. -/
structure Updated (F : Format) (m : Mk) (hash : UInt32) (rpos fpUp : ℕ) (m' : Mk) : Prop where
  fp : m'.fp = fpUp
  ioq : m'.ioq = m.ioq
  lists : ∀ l, listed m' l =
    listed m l ++ if F.nlist (F.ntab hash) = l then [⟨hash, rpos⟩] else []
  counts : ∀ i, m'.subtabCount i =
    if F.ntab hash = i then (m.subtabCount i + 1) % 2 ^ 32 else m.subtabCount i

theorem update_spec {hash : UInt32} {rpos fpUp : ℕ} (h : (update F m hash rpos fpUp).1 ≠ -1) :
    Updated F m hash rpos fpUp (update F m hash rpos fpUp).2 := by
  unfold update at h ⊢
  have hroomy := @roomy_spec F m.mem (m.inputList (F.nlist (F.ntab hash)))
  simp only at h ⊢
  generalize roomy F m.mem (m.inputList (F.nlist (F.ntab hash))) = res at h hroomy ⊢
  obtain ⟨r, mem⟩ := res
  cases r with
  | none => simp at h
  | some r =>
    obtain ⟨block, blocks⟩ := r
    refine ⟨rfl, rfl, fun l => ?_, fun i => ?_⟩
    · by_cases hl : F.nlist (F.ntab hash) = l
      · subst hl
        simp only [listed, Function.update_self, if_true]
        rw [← hroomy rfl]
        simp
      · simp only [listed, if_neg hl, List.append_nil]
        rw [Function.update_of_ne (Ne.symm hl)]
    · by_cases hi : F.ntab hash = i
      · subst hi
        simp
      · simp only [if_neg hi]
        rw [Function.update_of_ne (Ne.symm hi)]

/-- The generator after the records `recs`, which follow the bytes `pre` at `off`
in what was the file `f`. -/
structure Added (F : Format) (f : List UInt8) (off : ℕ) (pre : List UInt8) (rbase : ℕ)
    (recs : List Rec) (m : Mk) : Prop where
  fp : m.fp = eod F rbase recs
  fp_lt : m.fp < 2 ^ 32
  sent : Sent f off m.ioq (pre ++ recs.flatMap (record F))
  lists : ∀ l, listed m l =
    ((layout F rbase recs).filter fun p => F.nlist (F.ntab (hashOf F p)) = l).map (entry F)
  counts : ∀ i, m.subtabCount i = (table F rbase recs i).length
  lengths : ∀ r ∈ recs, r.1.length ≤ F.lmax ∧ r.2.length ≤ F.lmax

variable {f pre key data : List UInt8} {off rbase : ℕ} {recs : List Rec}

/-- Every record takes its header at least. -/
theorem length_le_eod (rbase : ℕ) (recs : List Rec) :
    rbase + F.hdr * recs.length ≤ eod F rbase recs := by
  induction recs generalizing rbase with
  | nil => simp [eod]
  | cons r recs ih =>
    have hih := ih (rbase + size F r)
    rw [eod_cons, List.length_cons, Nat.mul_succ]
    unfold size at hih ⊢
    omega

theorem eod_append (rbase : ℕ) (a : List Rec) (r : Rec) :
    eod F rbase (a ++ [r]) = eod F rbase a + size F r := by
  simp only [eod, List.map_append, List.sum_append, List.map_cons, List.map_nil, List.sum_cons,
    List.sum_nil]
  omega

/-- What `cdbmk_add()` has done when it does not return -1 -/
theorem add_spec (hfp : m.fp < 2 ^ 32) (hr : (add F m key data).1 ≠ -1) :
    ∃ q, m.fp + size F (key, data) < 2 ^ 32 ∧
      (puts m.ioq [header F (key, data), key, data]).1 ≠ -1 ∧
      q = (puts m.ioq [header F (key, data), key, data]).2 ∧
      add F m key data =
        update F { m with ioq := q } (F.hash key) m.fp (m.fp + size F (key, data)) := by
  unfold add at hr ⊢
  simp only [Nat.mod_eq_of_lt hfp] at hr ⊢
  cases hend : recordEnd m.fp F.hdr key.length data.length with
  | none => simp [hend] at hr
  | some fpUp =>
    obtain ⟨hlt, rfl⟩ := (recordEnd_eq_some hfp).mp hend
    have hheader : F.pack key.length ++ F.pack data.length = header F (key, data) := rfl
    have hsize : m.fp + F.hdr + key.length + data.length = m.fp + size F (key, data) := by
      simp only [size]
      omega
    rw [hend] at hr
    rw [hheader, hsize] at hr ⊢
    rw [hsize] at hlt
    simp only at hr ⊢
    by_cases hput : (puts m.ioq [header F (key, data), key, data]).1 = -1
    · rw [if_pos hput] at hr
      exact absurd rfl hr
    · exact ⟨_, hlt, hput, rfl, if_neg hput⟩

theorem layout_snoc (rbase : ℕ) (recs : List Rec) (r : Rec) :
    layout F rbase (recs ++ [r]) = layout F rbase recs ++ [(eod F rbase recs, r)] := by
  rw [layout_append]
  rfl

theorem table_snoc (rbase : ℕ) (recs : List Rec) (r : Rec) (i : ℕ) :
    table F rbase (recs ++ [r]) i = table F rbase recs i ++
      if F.ntab (F.hash r.1) = i then [(eod F rbase recs, r)] else [] := by
  unfold table
  rw [layout_snoc, List.filter_append]
  by_cases hi : F.ntab (F.hash r.1) = i
  · simp [hi, hashOf]
  · simp [hi, hashOf]

theorem table_length_lt (h : eod F rbase recs < 2 ^ 32) (i : ℕ) :
    (table F rbase recs i).length < 2 ^ 32 := by
  have hle := @table_length_le F rbase recs i
  have heod := @length_le_eod F rbase recs
  have := Nat.le_mul_of_pos_left recs.length (@hdr_pos F)
  omega

/-- `cdbmk_add()` keeps what the generator is to hold. -/
theorem Added.add (h : Added F f off pre rbase recs m) (hr : (add F m key data).1 ≠ -1)
    (hkey : key.length < 2 ^ 32 → key.length ≤ F.lmax)
    (hdata : data.length < 2 ^ 32 → data.length ≤ F.lmax) :
    Added F f off pre rbase (recs ++ [(key, data)]) (add F m key data).2 := by
  obtain ⟨q, hlt, hput, hq, heq⟩ := add_spec h.fp_lt hr
  have hsent := h.sent.puts hput
  rw [heq] at hr ⊢
  have hup := update_spec hr
  have hend : m.fp + size F (key, data) = eod F rbase (recs ++ [(key, data)]) := by
    rw [eod_append, ← h.fp]
  refine
    { fp := hup.fp.trans hend
      fp_lt := by rw [hup.fp]; exact hlt
      sent := ?_
      lists := fun l => ?_
      counts := fun i => ?_
      lengths := fun r hmem => ?_ }
  · rw [hup.ioq, hq, List.flatMap_append, ← List.append_assoc]
    simpa [record] using hsent
  · rw [hup.lists l, layout_snoc, List.filter_append, List.map_append, ← h.fp]
    congr 1
    · exact h.lists l
    · by_cases hl : F.nlist (F.ntab (F.hash key)) = l
      · simp [hl, hashOf, entry]
      · simp [hl, hashOf]
  · have hlen := @table_length_lt F rbase (recs ++ [(key, data)]) (hend ▸ hlt) i
    rw [table_snoc] at hlen ⊢
    rw [hup.counts i]
    by_cases hi : F.ntab (F.hash key) = i
    · simp only [if_pos hi, List.length_append, List.length_singleton] at hlen ⊢
      rw [h.counts i]
      exact Nat.mod_eq_of_lt hlen
    · simp only [if_neg hi, List.append_nil]
      exact h.counts i
  · rcases List.mem_append.mp hmem with hold | hnew
    · exact h.lengths r hold
    · rw [List.mem_singleton.mp hnew]
      simp only [size] at hlt
      exact ⟨hkey (by omega), hdata (by omega)⟩

end Perp.HashAdded
