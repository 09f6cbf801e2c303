import Mathlib.Data.List.GetD
import Mathlib.Data.List.Nodup
import Mathlib.Tactic.IntervalCases
import Perp.Calendar
import Perp.FixedWidth
import Perp.PktOutcome
import Perp.Tain
import Perp.TinylogDir

set_option autoImplicit false

/-!
# The archives that tinylog keeps

The clock gives each archive its name, and `tinylog_prune()` goes by the names alone. Over a run of
`tinylog_keep()` the archives that are left are the latest ones.
-/
namespace Perp.TinylogRetention
open Calendar FixedWidth Pkt Stamp8601 TinylogDir TinylogPrune
open PktOutcome (bufWrite_append)

/-! ## The clock -/

/-- What `gettimeofday()` tells -/
structure Timeval where
  sec : UInt64
  usec : Fin 1000000
  deriving DecidableEq, Repr

/-- `TAIN_UTC_OFFSET` -/
def tainUtcOffset : UInt64 := 4611686018427387914

/-- `tain_now()` -/
def tainNow (tv : Timeval) : Tain := ⟨tv.sec + tainUtcOffset, UInt32.ofNat (1000 * tv.usec + 500)⟩

def tainToUtc (t : Tain) : UInt64 := t.sec - tainUtcOffset

theorem tainNow_utc (tv : Timeval) : tainToUtc (tainNow tv) = tv.sec := UInt64.add_sub_cancel _ _

theorem tainNow_usec (tv : Timeval) : (tainNow tv).nsec.toNat / 1000 = tv.usec := by
  have hlt := tv.usec.isLt
  have hval : (tainNow tv).nsec.toNat = 1000 * tv.usec + 500 := by
    apply UInt32.toNat_ofNat_of_lt
    change _ < 4294967296
    omega
  rw [hval]
  omega

/-- `gmtime()`, with the microseconds. Its year is counted from 0 and its month from 1. -/
def gmtime (t : ℕ) (usec : Fin 1000000) : Tm :=
  let year := yearOf (t / 86400)
  let month := monthOf year.1 year.2
  { year := UInt32.ofNat year.1
    mon := ⟨month.1 + 1, Nat.succ_lt_succ (month_lt _).1⟩
    mday := ⟨month.2 + 1, Nat.succ_lt_succ (month_lt _).2⟩
    hour := ⟨t % 86400 / 3600, by omega⟩
    min := ⟨t % 3600 / 60, by omega⟩
    sec := ⟨t % 60, by omega⟩
    usec := usec }

/-- What `stamp8601_make()` reads off the clock -/
def tmNow (tv : Timeval) : Tm :=
  gmtime (tainToUtc (tainNow tv)).toNat
    ⟨(tainNow tv).nsec.toNat / 1000, tainNow_usec tv ▸ tv.usec.isLt⟩

/-- The clock, in microseconds -/
def Timeval.micros (tv : Timeval) : ℕ := tv.sec.toNat * 1000000 + tv.usec

/-- The year has four digits. -/
def Timeval.FourDigits (tv : Timeval) : Prop := (yearOf (tv.sec.toNat / 86400)).1 < 10000

instance (tv : Timeval) : Decidable tv.FourDigits := inferInstanceAs (Decidable (_ < _))

/-! ## The stamp -/

/-- The fields of the stamp, with what stands behind each -/
def layout : List Field := [(4, []), (2, []), (2, [84]), (2, []), (2, []), (2, [46]), (6, [])]

def fields (tm : Tm) : List ℕ :=
  [tm.year.toNat, tm.mon, tm.mday, tm.hour, tm.min, tm.sec, tm.usec]

theorem nfmtDigits_padded {w n : ℕ} (h : n < 10 ^ (w + 1)) {k : ℕ} (hk : w < k) :
    List.replicate (w + 1 - (nfmtDigits k n).length) 48 ++ nfmtDigits k n = padded (w + 1) n := by
  induction w generalizing n k with
  | zero =>
    obtain ⟨k, rfl⟩ := Nat.exists_eq_add_of_lt hk
    have hten : n / 10 = 0 := Nat.div_eq_of_lt h
    simp only [nfmtDigits, hten]
    rfl
  | succ w ih =>
    obtain ⟨k, rfl⟩ : ∃ j, k = j + 1 := ⟨k - 1, by omega⟩
    rw [nfmtDigits, padded]
    by_cases hten : n / 10 = 0
    · rw [if_pos hten, hten, padded_zero]
      rfl
    · have hsmall : n / 10 < 10 ^ (w + 1) := by
        rw [Nat.div_lt_iff_lt_mul (by decide)]
        exact h
      have hlen : w + 1 + 1 - ((nfmtDigits k (n / 10)).length + 1) =
          w + 1 - (nfmtDigits k (n / 10)).length := by omega
      rw [if_neg hten, List.length_append, List.length_singleton, hlen, ← List.append_assoc,
        ih hsmall (by omega)]
      rfl

theorem pad0_padded {w n : ℕ} (h : n < 10 ^ (w + 1)) (hw : w < 10) (h32 : n < 2 ^ 32) :
    nfmtUint32Pad0 (UInt32.ofNat n) (w + 1) = padded (w + 1) n := by
  have hval : (UInt32.ofNat n).toNat = n := UInt32.toNat_ofNat_of_lt h32
  rw [nfmtUint32Pad0, nfmtUint32, hval, nfmtDigits_padded h hw]

section
variable {tm : Tm}

theorem fields_fit (h : tm.year.toNat < 10000) : Fits layout (fields tm) := by
  have hmon := tm.mon.isLt
  have hmday := tm.mday.isLt
  have hhour := tm.hour.isLt
  have hmin := tm.min.isLt
  have hsec := tm.sec.isLt
  have husec := tm.usec.isLt
  simp only [Fits, layout, fields, List.forall₂_cons, List.Forall₂.nil, and_true]
  omega

/-- The writes into the buffer follow one another. -/
theorem stamp_written (h : tm.year.toNat < 10000) :
    stamp8601Make (List.replicate 22 0) tm = written layout (fields tm) := by
  have hfit := fields_fit h
  have hmon := tm.mon.isLt
  have hmday := tm.mday.isLt
  have hhour := tm.hour.isLt
  have hmin := tm.min.isLt
  have hsec := tm.sec.isLt
  have husec := tm.usec.isLt
  have hyear : nfmtUint32Pad0 tm.year 4 = padded 4 tm.year.toNat := by
    have hpad := pad0_padded (w := 3) h (by decide) tm.year.toNat_lt
    rwa [UInt32.ofNat_toNat] at hpad
  have htwo : ∀ n < 100, nfmtUint32Pad0 (UInt32.ofNat n) 2 = padded 2 n := fun n hn =>
    pad0_padded (w := 1) hn (by decide) (by omega)
  have hsix : nfmtUint32Pad0 (UInt32.ofNat tm.usec) 6 = padded 6 tm.usec :=
    pad0_padded (w := 5) husec (by decide) (by omega)
  have hnext : ∀ (a b : List UInt8) (i j : ℕ), j = i + a.length → i + a.length ≤ 22 →
      bufWrite (bufWrite (List.replicate 22 0) i a) j b =
        bufWrite (List.replicate 22 0) i (a ++ b) := by
    rintro a b i j rfl hle
    apply bufWrite_append
    rw [List.length_replicate]
    exact hle
  rw [stamp8601Make, hyear, htwo _ (by omega), htwo _ (by omega), htwo _ (by omega),
    htwo _ (by omega), htwo _ (by omega), hsix]
  have hall : ∀ s : List UInt8, s.length = 22 → bufWrite (List.replicate 22 0) 0 s = s := by
    intro s hs
    rw [bufWrite, List.take_zero, List.nil_append, hs]
    exact List.append_nil s
  rw [hnext, hnext, hnext, hnext, hnext, hnext, hnext, hnext, hall]
  · simp [written, layout, fields]
  all_goals simp [padded_length]

end

/-! ## The order of the stamps -/

section
variable {tv tv' : Timeval}

theorem tmNow_eq (tv : Timeval) : tmNow tv = gmtime tv.sec.toNat tv.usec := by
  rw [tmNow, tainNow_utc]
  congr 1
  exact Fin.ext (tainNow_usec tv)

theorem tmNow_year (h : tv.FourDigits) :
    (tmNow tv).year.toNat = (yearOf (tv.sec.toNat / 86400)).1 := by
  rw [tmNow_eq]
  apply UInt32.toNat_ofNat_of_lt
  change _ < 4294967296
  exact h.trans (by decide)

theorem year_fits (h : tv.FourDigits) : (tmNow tv).year.toNat < 10000 := by
  rw [tmNow_year h]
  exact h

theorem fields_civil (h : tv.FourDigits) : fields (tmNow tv) =
    List.zipWith (· + ·) (civil tv.sec.toNat) [0, 1, 1, 0, 0, 0] ++ [tv.usec.val] := by
  rw [fields, tmNow_year h, tmNow_eq]
  rfl

/-- The month and its day are counted from 1, which leaves the order alone. -/
theorem shifted_lt {ms ns ks : List ℕ} (hm : ms.length = ks.length) (hn : ns.length = ks.length) :
    List.zipWith (· + ·) ms ks < List.zipWith (· + ·) ns ks ↔ ms < ns := by
  induction ks generalizing ms ns with
  | nil =>
    obtain rfl := List.length_eq_zero_iff.mp hm
    obtain rfl := List.length_eq_zero_iff.mp hn
    rfl
  | cons k ks ih =>
    obtain _ | ⟨m, ms⟩ := ms
    · cases hm
    obtain _ | ⟨n, ns⟩ := ns
    · cases hn
    rw [List.zipWith_cons_cons, List.zipWith_cons_cons, List.cons_lt_cons_iff,
      List.cons_lt_cons_iff,
      ih (Nat.succ.inj hm) (Nat.succ.inj hn)]
    simp only [Nat.add_lt_add_iff_right, Nat.add_right_cancel_iff]

theorem fields_lt (h : tv.FourDigits) (h' : tv'.FourDigits) (hlt : tv.micros < tv'.micros) :
    fields (tmNow tv) < fields (tmNow tv') := by
  have husec := tv.usec.isLt
  have husec' := tv'.usec.isLt
  have hlen : ∀ t, (civil t).length = [0, 1, 1, 0, 0, 0].length := fun _ => rfl
  have hlength : ∀ s t : ℕ, (List.zipWith (· + ·) (civil s) [0, 1, 1, 0, 0, 0]).length =
      (List.zipWith (· + ·) (civil t) [0, 1, 1, 0, 0, 0]).length := fun _ _ => rfl
  rw [fields_civil h, fields_civil h', append_lt_append_iff (hlength _ _),
    shifted_lt (hlen _) (hlen _), civil_lt_iff]
  simp only [Timeval.micros] at hlt
  by_cases hsec : tv.sec.toNat < tv'.sec.toNat
  · exact .inl hsec
  · have hsame : tv.sec.toNat = tv'.sec.toNat := by omega
    have hless : tv.usec.val < tv'.usec.val := by omega
    exact .inr ⟨by rw [hsame], List.cons_lt_cons_iff.mpr (.inl hless)⟩

/-- A later moment has a greater stamp. -/
theorem stamp_lt (h : tv.FourDigits) (h' : tv'.FourDigits) (hlt : tv.micros < tv'.micros) :
    stamp8601Make (List.replicate 22 0) (tmNow tv) <
      stamp8601Make (List.replicate 22 0) (tmNow tv') := by
  rw [stamp_written (year_fits h), stamp_written (year_fits h'),
    written_lt_iff (fields_fit (year_fits h)) (fields_fit (year_fits h'))]
  exact fields_lt h h' hlt

end

/-! ## The names of the archives -/

/-- A call of `tinylog_keep()`: the clock as it makes the link, whether the log was left open, and
whether gzip succeeds -/
structure Kept where
  clock : Timeval
  unclean : Bool
  zipped : Bool
  deriving DecidableEq, Repr

/-- `fn8601`, with `ZIP_EXT` behind it if the archive is zipped -/
def Kept.name (k : Kept) : Name :=
  fn8601 (tmNow k.clock) (if k.unclean then 117 else 115) ++ if k.zipped then zipExt else []

section
variable {k k' : Kept}

/-- What stands behind the stamp -/
def Kept.suffix (k : Kept) : Name :=
  [46, if k.unclean then 117 else 115] ++ if k.zipped then zipExt else []

theorem name_stamp (h : k.clock.FourDigits) :
    k.name = 95 :: (written layout (fields (tmNow k.clock)) ++ k.suffix) := by
  rw [Kept.name, fn8601, stamp_written (year_fits h), Kept.suffix, List.cons_append,
    List.cons_append,
    List.append_assoc]

theorem stamp_length (h : k.clock.FourDigits) :
    (written layout (fields (tmNow k.clock))).length = 22 :=
  written_length (fields_fit (year_fits h))

theorem name_lt (h : k.clock.FourDigits) (h' : k'.clock.FourDigits)
    (hlt : k.clock.micros < k'.clock.micros) : k.name < k'.name := by
  have hstamp := stamp_lt h h' hlt
  rw [stamp_written (year_fits h), stamp_written (year_fits h')] at hstamp
  have hlen := (stamp_length h).trans (stamp_length h').symm
  rw [name_stamp h, name_stamp h']
  exact List.cons_lt_cons_iff.mpr (.inr ⟨rfl, (append_lt_append_iff hlen).mpr (.inl hstamp)⟩)

theorem stampByte_digit {i n : ℕ} (hT : i ≠ 8) (hdot : i ≠ 15) : stampByte i (digit n) = true := by
  have hmem : digit n ∈ padded 1 n := by simp [padded]
  simpa [stampByte, hT, hdot] using padded_digits hmem

theorem stampByte_stamp (tm : Tm) : ∀ i < 22,
    stampByte i ((written layout (fields tm)).getD i 0) = true := by
  intro i hi
  simp only [written, layout, fields, padded, List.nil_append, List.cons_append, List.append_nil]
  interval_cases i
  all_goals first
    | exact stampByte_digit (by decide) (by decide)
    | rfl

theorem digit_ne (n : ℕ) : digit n ≠ 0 := by
  intro h
  have hval := digit_toNat n
  rw [h] at hval
  change 0 = _ at hval
  omega

theorem name_noNul (h : k.clock.FourDigits) : 0 ∉ k.name := by
  rw [name_stamp h]
  simp only [written, layout, fields, padded, Kept.suffix, zipExt]
  cases k.unclean <;> cases k.zipped <;> simp [(digit_ne _).symm]

theorem name_length (h : k.clock.FourDigits) : 23 ≤ k.name.length ∧ k.name.length < targetSize := by
  have hlen : k.suffix.length ≤ 4 := by
    rw [Kept.suffix]
    cases k.zipped <;> simp [zipExt]
  rw [name_stamp h, List.length_cons, List.length_append, stamp_length h, targetSize]
  omega

theorem isArchive_name (h : k.clock.FourDigits) : isArchive k.name = true := by
  have hlen := name_length h
  have hhead : k.name[0]? = some 95 := by
    rw [name_stamp h]
    rfl
  simp only [isArchive, hhead, hlen, decide_true, Bool.true_and, List.all_eq_true, List.mem_range]
  intro i hi
  have hbyte : k.name.getD (i + 1) 0 = (written layout (fields (tmNow k.clock))).getD i 0 := by
    have hplace : i < (written layout (fields (tmNow k.clock))).length := by
      rw [stamp_length h]
      exact hi
    rw [name_stamp h, List.getD_cons_succ, List.getD_append _ _ _ _ hplace]
  rw [hbyte]
  exact stampByte_stamp _ i hi

end

/-! ## A run -/

/-- A call of `tinylog_keep()`, with the order in which `readdir()` lists the directory. None is
undefined behaviour, or a failure. -/
def tinylogKeep (keepMax : UInt32) (readdir : List Name → List Name) (dir : List Name) (k : Kept) :
    Option (List Name) :=
  (tinylogPrune keepMax noFailing (readdir (dir ++ [k.name]))).bind fun out =>
    if out.1 = 0 then some out.2 else none

/-- One call after the other -/
def keepAll (keepMax : UInt32) (readdir : ℕ → List Name → List Name) :
    ℕ → List Name → List Kept → Option (List Name)
  | _, dir, [] => some dir
  | i, dir, k :: ks => (tinylogKeep keepMax (readdir i) dir k).bind fun dir =>
      keepAll keepMax readdir (i + 1) dir ks

/-- What is in the directory beside the archives -/
structure Others (others : List Name) : Prop where
  nodup : others.Nodup
  noNul : ∀ d ∈ others, 0 ∉ d
  plain : ∀ d ∈ others, smells d = false

/-- Archives from one moment to the next -/
def Dated (ks : List Kept) : Prop :=
  (∀ k ∈ ks, k.clock.FourDigits) ∧ ks.Pairwise fun k k' => k.clock.micros < k'.clock.micros

/-- The last ones -/
def latest (n : ℕ) (ks : List Kept) : List Name := (ks.drop (ks.length - n)).map Kept.name

section
variable {others : List Name} {ks : List Kept} {keepMax : UInt32}

theorem names_sorted (h : Dated ks) : (ks.map Kept.name).Pairwise (· < ·) := by
  rw [List.pairwise_map]
  apply List.Pairwise.imp_of_mem _ h.2
  exact fun hk hk' hlt => name_lt (h.1 _ hk) (h.1 _ hk') hlt

theorem names_nodup (h : Dated ks) : (ks.map Kept.name).Nodup := by
  apply List.Pairwise.imp _ (names_sorted h)
  rintro a b hlt rfl
  exact List.lt_irrefl a hlt

/-- The directory with these archives -/
theorem listed (ho : Others others) (h : Dated ks) : (others ++ ks.map Kept.name).Nodup ∧
    (∀ d ∈ others ++ ks.map Kept.name, 0 ∉ d) ∧
    (others ++ ks.map Kept.name).countP smells = ks.length := by
  have hsmell : ∀ d ∈ ks.map Kept.name, smells d = true := by
    intro d hd
    obtain ⟨k, hk, rfl⟩ := List.mem_map.mp hd
    exact isArchive_smells (isArchive_name (h.1 k hk))
  refine ⟨List.nodup_append.mpr ⟨ho.nodup, names_nodup h, ?_⟩, ?_, ?_⟩
  · rintro d hd e he rfl
    have hno := ho.plain d hd
    rw [hsmell d he] at hno
    cases hno
  · intro d hd
    rcases List.mem_append.mp hd with hd | hd
    · exact ho.noNul d hd
    · obtain ⟨k, hk, rfl⟩ := List.mem_map.mp hd
      exact name_noNul (h.1 k hk)
  · rw [List.countP_append, List.countP_eq_zero.mpr fun d hd => by simp [ho.plain d hd],
      List.countP_eq_length.mpr hsmell, List.length_map, Nat.zero_add]

/-- Of the archives the first has the least name. -/
theorem least_first {k : Kept} {listing : List Name} (hd : Dated (k :: ks))
    (hl : listing.Perm (others ++ (k :: ks).map Kept.name)) (ho : Others others) :
    least target0 listing = k.name := by
  have hk := hd.1 k List.mem_cons_self
  have harch := isArchive_name hk
  have hmem : k.name ∈ listing := by
    apply hl.mem_iff.mpr
    simp
  have hle := least_le_name (t := target0) hmem (isArchive_smells harch)
  rcases least_mem target0 listing with htarget | ⟨hin, hsmell⟩
  · rw [htarget] at hle
    exact absurd (isArchive_lt harch) hle
  · rcases List.mem_append.mp (hl.mem_iff.mp hin) with hother | hname
    · rw [ho.plain _ hother] at hsmell
      cases hsmell
    · rw [List.map_cons, List.mem_cons] at hname
      rcases hname with heq | hlater
      · exact heq
      · have hsorted := List.rel_of_pairwise_cons (names_sorted hd) hlater
        exact absurd hsorted hle

theorem not_overlong {listing : List Name} (hd : Dated ks)
    (hl : listing.Perm (others ++ ks.map Kept.name)) (ho : Others others) :
    ¬ Overlong target0 listing := by
  rintro ⟨before, d, after, rfl, hsmell, hlong, -, -⟩
  have hmem : d ∈ others ++ ks.map Kept.name := by
    apply hl.mem_iff.mp
    simp
  rcases List.mem_append.mp hmem with hother | hname
  · rw [ho.plain d hother] at hsmell
    cases hsmell
  · obtain ⟨k, hk, rfl⟩ := List.mem_map.mp hname
    have hlen := name_length (hd.1 k hk)
    omega

/-- A call leaves the latest archives. -/
theorem keep_latest {k : Kept} {dir : List Name} {readdir : List Name → List Name}
    (hread : ∀ l, (readdir l).Perm l) (ho : Others others) (hd : Dated (ks ++ [k]))
    (hlen : ks.length ≤ keepMax.toNat) (hmax : keepMax.toNat + 1 < 2 ^ 31)
    (hdir : dir.Perm (others ++ ks.map Kept.name)) :
    ∃ left, tinylogKeep keepMax readdir dir k = some left ∧
      left.Perm (others ++ latest keepMax.toNat (ks ++ [k])) := by
  have hl : (readdir (dir ++ [k.name])).Perm (others ++ (ks ++ [k]).map Kept.name) := by
    apply (hread _).trans
    rw [List.map_append, ← List.append_assoc]
    exact hdir.append_right _
  obtain ⟨hnodup, hnul, hcount⟩ := listed ho hd
  have hsmells := hl.countP_eq smells
  rw [hcount, List.length_append, List.length_singleton] at hsmells
  let listing : Dir := ⟨readdir (dir ++ [k.name]), hl.nodup_iff.mpr hnodup,
    fun d hd => hnul d (hl.mem_iff.mp hd)⟩
  have hfew : listing.names.countP smells < 2 ^ 31 := by
    change (readdir (dir ++ [k.name])).countP smells < 2 ^ 31
    omega
  have hscan : tinylogPrune keepMax noFailing listing.names = _ :=
    prune_scanned (not_overlong hd hl ho) hfew
  have hkeep : keepMax.toInt32.toInt = keepMax.toNat := by
    rcases keep_cases keepMax with ⟨-, h⟩ | ⟨h, -⟩
    · exact h
    · omega
  have hnames : listing.names = readdir (dir ++ [k.name]) := rfl
  rw [hnames, hsmells, hkeep] at hscan
  rw [tinylogKeep, hscan, latest, List.length_append, List.length_singleton]
  by_cases hroom : ks.length + 1 ≤ keepMax.toNat
  · have hle : ((ks.length + 1 : ℕ) : ℤ) ≤ keepMax.toNat := by omega
    have hnone : ks.length + 1 - keepMax.toNat = 0 := by omega
    rw [if_pos hle, hnone]
    exact ⟨_, rfl, hl⟩
  · -- there is one too many, and it is the first
    obtain ⟨first, rest, hsplit⟩ := List.exists_cons_of_ne_nil (List.concat_ne_nil k ks)
    rw [hsplit] at hl hd ⊢
    have hfirst := least_first hd hl ho
    have hmem : first.name ∈ readdir (dir ++ [k.name]) := by
      apply hl.mem_iff.mpr
      simp
    have hnle : ¬ ((ks.length + 1 : ℕ) : ℤ) ≤ keepMax.toNat := by omega
    have hone : ¬ ((ks.length + 1 : ℕ) : ℤ) - 1 > keepMax.toNat := by omega
    have hdrop : ks.length + 1 - keepMax.toNat = 1 := by omega
    rw [if_neg hnle, hfirst, if_neg (not_not.mpr hmem), if_neg hone, hdrop]
    refine ⟨_, rfl, ?_⟩
    have herase := hl.erase first.name
    rw [List.map_cons] at herase
    have hout : first.name ∉ others := by
      intro hin
      have hplain := ho.plain _ hin
      rw [isArchive_smells (isArchive_name (hd.1 first List.mem_cons_self))] at hplain
      cases hplain
    rw [List.erase_append_right _ hout, List.erase_cons_head] at herase
    exact herase

theorem Dated.drop (h : Dated ks) (n : ℕ) : Dated (ks.drop n) :=
  ⟨fun k hk => h.1 k (List.mem_of_mem_drop hk), h.2.sublist (List.drop_sublist n ks)⟩

/-- Archives that are gone are not among the latest later on. -/
theorem latest_drop (n : ℕ) (ks more : List Kept) :
    latest n (ks.drop (ks.length - n) ++ more) = latest n (ks ++ more) := by
  rw [latest, latest, ← List.drop_append_of_le_length (Nat.sub_le _ _), List.drop_drop]
  congr 2
  simp only [List.length_drop, List.length_append]
  omega

theorem keepAll_latest {readdir : ℕ → List Name → List Name} (hread : ∀ i l, (readdir i l).Perm l)
    (ho : Others others) (hmax : keepMax.toNat + 1 < 2 ^ 31) (calls : List Kept) {i : ℕ}
    {dir : List Name} (hd : Dated (ks ++ calls)) (hlen : ks.length ≤ keepMax.toNat)
    (hdir : dir.Perm (others ++ ks.map Kept.name)) :
    ∃ left, keepAll keepMax readdir i dir calls = some left ∧
      left.Perm (others ++ latest keepMax.toNat (ks ++ calls)) := by
  induction calls generalizing i ks dir with
  | nil =>
    have hnone : ks.length - keepMax.toNat = 0 := by omega
    rw [List.append_nil, latest, hnone]
    exact ⟨dir, rfl, hdir⟩
  | cons k calls ih =>
    rw [List.append_cons] at hd ⊢
    have hcall : Dated (ks ++ [k]) :=
      ⟨fun x hx => hd.1 x (List.mem_append_left _ hx), (List.pairwise_append.mp hd.2).1⟩
    obtain ⟨left, hleft, hperm⟩ := keep_latest (hread i) ho hcall hlen hmax hdir
    have hmore := hd.drop ((ks ++ [k]).length - keepMax.toNat)
    rw [List.drop_append_of_le_length (Nat.sub_le _ _)] at hmore
    have hfew : ((ks ++ [k]).drop ((ks ++ [k]).length - keepMax.toNat)).length ≤ keepMax.toNat := by
      rw [List.length_drop]
      omega
    obtain ⟨final, hfinal, hend⟩ := @ih _ (i + 1) left hmore hfew hperm
    rw [latest_drop] at hend
    rw [keepAll, hleft]
    exact ⟨final, hfinal, hend⟩

/-- Whatever order `readdir()` has, a run of `tinylog_keep()` leaves all that is not of an archive,
and of the archives, old ones and new ones, just the latest. -/
theorem tinylog_retains {readdir : ℕ → List Name → List Name} {old calls : List Kept}
    (hread : ∀ i l, (readdir i l).Perm l) (hothers : Others others) (hdated : Dated (old ++ calls))
    (hold : old.length ≤ keepMax.toNat) (hmax : keepMax.toNat + 1 < 2 ^ 31) :
    ∃ left, keepAll keepMax readdir 0 (others ++ old.map Kept.name) calls = some left ∧
      left.Perm (others ++ latest keepMax.toNat (old ++ calls)) :=
  keepAll_latest hread hothers hmax calls hdated hold (List.Perm.refl _)

end

/-- The last seconds of a year and the first of the next -/
def newYear (n : ℕ) : Kept :=
  ⟨⟨UInt64.ofNat (1230767998 + n), ⟨0, by decide⟩⟩, false, n = 1⟩

theorem tinylog_retains_newYear : ∃ left,
    keepAll 2 (fun _ => List.reverse) 0 [nmCurrent] [newYear 0, newYear 1, newYear 2, newYear 3] =
      some left ∧ left.Perm [nmCurrent, (newYear 2).name, (newYear 3).name] := by
  have hothers : Others [nmCurrent] := ⟨by decide, by decide, by decide⟩
  have hdated : Dated ([] ++ [newYear 0, newYear 1, newYear 2, newYear 3]) := by
    refine ⟨by simp only [List.nil_append, List.forall_mem_cons]; decide +kernel, ?_⟩
    simp only [List.nil_append, List.pairwise_cons, List.forall_mem_cons]
    decide +kernel
  exact tinylog_retains (fun _ l => List.reverse_perm l) hothers hdated (Nat.zero_le _) (by decide)

end Perp.TinylogRetention
