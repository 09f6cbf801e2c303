import Perp.TinylogPost

set_option autoImplicit false

/-!
# What tinylog writes

The files of a run hold, in order, the lines of the input: each newline-free run
of bytes, cut at the length of a log line. Bytes from 128 on are not passed
through: `do_log()` filters them with the control characters.
-/
namespace Perp.TinylogLines
open Pkt IoqGet Stamp8601 TinylogPost

/-- The maximal runs of bytes other than newline. -/
def runs (bytes : List UInt8) : List (List UInt8) := (bytes.splitOn 10).filter (· ≠ [])

theorem runs_nil : runs [] = [] := rfl

theorem runs_last {run : List UInt8} (h : 10 ∉ run) :
    runs run = if run = [] then [] else [run] := by
  rw [runs, List.splitOn_eq_singleton h]
  by_cases hr : run = [] <;> simp [hr]

theorem runs_append {run rest : List UInt8} (h : 10 ∉ run) :
    runs (run ++ 10 :: rest) = (if run = [] then [] else [run]) ++ runs rest := by
  rw [runs, List.splitOn_append_cons_self, List.splitOn_eq_singleton h, List.filter_append]
  by_cases hr : run = [] <;> simp [hr, runs]

/-- A line with the bytes of a run that still fit in it. -/
def extended (pos : ℕ) (line run : List UInt8) : List UInt8 :=
  line ++ (run.take (loglineMax - (pos + line.length))).map filtered

theorem extended_nil (pos : ℕ) (line : List UInt8) : extended pos line [] = line := by
  simp [extended]

theorem extended_cons (pos : ℕ) (line : List UInt8) (b : UInt8) (run : List UInt8) :
    extended pos (extended pos line [b]) run = extended pos line (b :: run) := by
  by_cases h : pos + line.length < loglineMax
  · obtain ⟨m, hm⟩ : ∃ m, loglineMax - (pos + line.length) = m + 1 :=
      ⟨loglineMax - (pos + line.length) - 1, by omega⟩
    have hl : extended pos line [b] = line ++ [filtered b] := by simp [extended, hm]
    have hm' : loglineMax - (pos + (line ++ [filtered b]).length) = m := by
      rw [List.length_append, List.length_singleton]
      omega
    rw [hl, extended, hm', extended, hm, List.take_succ_cons, List.map_cons,
      List.append_assoc, List.singleton_append]
  · have hz : loglineMax - (pos + line.length) = 0 := by omega
    simp [extended, hz]

section
variable {q : Ioq} {i : Input} {pos : ℕ}

/-- The inner loop takes a byte of the line. -/
theorem collect_byte {b : UInt8} {bs : List UInt8} (fuel : ℕ) (line : List UInt8) (c : UInt8)
    (hv : Valid q) (he : .error ∉ i.answers) (hu : unread q i = b :: bs) (hb : b ≠ 10) :
    ∃ c' q' i', collect pos (fuel + 1) line c q i = collect pos fuel (extended pos line [b]) c' q' i' ∧
      Valid q' ∧ .error ∉ i'.answers ∧ unread q' i' = bs := by
  rcases ioqGetc_spec c hv he with ⟨hnil, -⟩ | ⟨b', q', i', hget, hv', hu', he'⟩
  · exact absurd (hu.symm.trans hnil) (List.cons_ne_nil _ _)
  · obtain ⟨rfl, rfl⟩ := List.cons.inj (hu.symm.trans hu')
    by_cases hl : pos + line.length < loglineMax
    · obtain ⟨m, hm⟩ : ∃ m, loglineMax - (pos + line.length) = m + 1 :=
        ⟨loglineMax - (pos + line.length) - 1, by omega⟩
      refine ⟨filtered b, q', i', ?_, hv', he', rfl⟩
      simp [collect, hget, hb, hl, extended, hm]
    · have hz : loglineMax - (pos + line.length) = 0 := by omega
      refine ⟨b, q', i', ?_, hv', he', rfl⟩
      simp [collect, hget, hb, hl, extended, hz]

/-- The inner loop up to a newline. -/
theorem collect_newline {run rest : List UInt8} {fuel : ℕ} {line : List UInt8} {c : UInt8}
    (hv : Valid q) (he : .error ∉ i.answers) (hu : unread q i = run ++ 10 :: rest)
    (hr : 10 ∉ run) (hf : run.length < fuel) :
    ∃ c' q' i', collect pos fuel line c q i = (1, extended pos line run, c', q', i') ∧
      Valid q' ∧ .error ∉ i'.answers ∧ unread q' i' = rest := by
  induction run generalizing q i fuel line c with
  | nil =>
    obtain ⟨fuel, rfl⟩ := Nat.exists_eq_succ_of_ne_zero (Nat.ne_of_gt hf)
    rcases ioqGetc_spec c hv he with ⟨hnil, -⟩ | ⟨b', q', i', hget, hv', hu', he'⟩
    · exact absurd (hu.symm.trans hnil) (List.cons_ne_nil _ _)
    · obtain ⟨rfl, rfl⟩ := List.cons.inj (hu.symm.trans hu')
      refine ⟨10, q', i', ?_, hv', he', rfl⟩
      simp [collect, hget, extended_nil]
  | cons b run ih =>
    obtain ⟨fuel, rfl⟩ := Nat.exists_eq_succ_of_ne_zero (Nat.ne_of_gt (Nat.zero_lt_of_lt hf))
    have hb : b ≠ 10 := fun h => hr (h ▸ List.mem_cons_self)
    obtain ⟨c', q', i', hstep, hv', he', hu'⟩ := collect_byte fuel line c hv he hu hb
    obtain ⟨c'', q'', i'', hrun, hdone⟩ := @ih q' i' fuel (extended pos line [b]) c' hv' he' hu'
      (fun h => hr (List.mem_cons_of_mem _ h)) (Nat.lt_of_succ_lt_succ hf)
    refine ⟨c'', q'', i'', ?_, hdone⟩
    rw [hstep, hrun, extended_cons]

/-- The inner loop up to the end of the input. -/
theorem collect_eof {run : List UInt8} {fuel : ℕ} {line : List UInt8} {c : UInt8}
    (hv : Valid q) (he : .error ∉ i.answers) (hu : unread q i = run) (hr : 10 ∉ run)
    (hf : run.length < fuel) :
    ∃ c' q' i', collect pos fuel line c q i = (0, extended pos line run, c', q', i') := by
  induction run generalizing q i fuel line c with
  | nil =>
    obtain ⟨fuel, rfl⟩ := Nat.exists_eq_succ_of_ne_zero (Nat.ne_of_gt hf)
    rcases ioqGetc_spec c hv he with ⟨-, hget⟩ | ⟨b', q', i', -, -, hu', -⟩
    · refine ⟨(ioqGetc q i c).2.1, (ioqGetc q i c).2.2.1, (ioqGetc q i c).2.2.2, ?_⟩
      simp [collect, hget, extended_nil]
    · exact absurd (hu.symm.trans hu').symm (List.cons_ne_nil _ _)
  | cons b run ih =>
    obtain ⟨fuel, rfl⟩ := Nat.exists_eq_succ_of_ne_zero (Nat.ne_of_gt (Nat.zero_lt_of_lt hf))
    have hb : b ≠ 10 := fun h => hr (h ▸ List.mem_cons_self)
    obtain ⟨c', q', i', hstep, hv', he', hu'⟩ := collect_byte fuel line c hv he hu hb
    obtain ⟨c'', q'', i'', hrun⟩ := @ih q' i' fuel (extended pos line [b]) c' hv' he' hu'
      (fun h => hr (List.mem_cons_of_mem _ h)) (Nat.lt_of_succ_lt_succ hf)
    refine ⟨c'', q'', i'', ?_⟩
    rw [hstep, hrun, extended_cons]

end

/-- The line that `do_log()` makes of a run. -/
def cut (wantstamp : Bool) (run : List UInt8) : List UInt8 := extended (startpos wantstamp) [] run

theorem cut_eq_nil {w : Bool} {run : List UInt8} : cut w run = [] ↔ run = [] := by
  have hpos : 0 < loglineMax - startpos w := by cases w <;> decide
  simp [cut, extended, Nat.ne_of_gt hpos]

/-- The lines are posted one after the other. -/
def postAll : Tinylog → (ℕ → Turn) → List (List UInt8) → Tinylog
  | t, _, [] => t
  | t, turns, line :: lines =>
    postAll (tinylogPost t (turns 0) (logline t.wantstamp (turns 0).now line))
      (fun k => turns (k + 1)) lines

theorem tinylogPost_wantstamp (t : Tinylog) (turn : Turn) (line : List UInt8) :
    (tinylogPost t turn line).wantstamp = t.wantstamp := by
  simp only [tinylogPost, tinylogRotate]
  split <;> [split; skip] <;> rfl

/-- A pass that ends in no error posts its line, if there is one. -/
theorem doLogPass_spec {s : Logger} {r : ℤ} {line : List UInt8} {c : UInt8} {q : Ioq} {i : Input}
    (h : collected s = (r, line, c, q, i)) (hr : r ≠ -1) :
    (doLogPass s).r = r ∧ (doLogPass s).q = q ∧ (doLogPass s).i = i ∧
      (doLogPass s).t.wantstamp = s.t.wantstamp ∧
      ∀ lines, postAll (doLogPass s).t (doLogPass s).turns lines =
        postAll s.t s.turns ((if line = [] then [] else [line]) ++ lines) := by
  by_cases hl : line = []
  · simp [doLogPass, posting, h, hr, hl]
  · have hlen := List.length_pos_iff.mpr hl
    simp [doLogPass, posting, h, hr, hl, hlen, tinylogPost_wantstamp, postAll]

/-- `do_log()` reads its input to the end and posts each run of it. -/
theorem doLog_spec {n : ℕ} {s : Logger} (hs : s.r = 1) (hv : Valid s.q) (he : .error ∉ s.i.answers)
    (hn : (unread s.q s.i).length < n) :
    (doLog n s).r = 0 ∧
      (doLog n s).t = postAll s.t s.turns ((runs (unread s.q s.i)).map (cut s.t.wantstamp)) := by
  induction n generalizing s with
  | zero => exact absurd hn (Nat.not_lt_zero _)
  | succ n ih =>
    rw [doLog, if_pos hs]
    by_cases hnl : 10 ∈ unread s.q s.i
    · obtain ⟨run, rest, hsplit, hrun⟩ := List.eq_append_cons_of_mem hnl
      have hlen : (unread s.q s.i).length = run.length + (rest.length + 1) := by
        rw [hsplit, List.length_append, List.length_cons]
      obtain ⟨c', q', i', hcol, hv', he', hu'⟩ := @collect_newline s.q s.i (startpos s.t.wantstamp) run
        rest ((unread s.q s.i).length + 1) [] s.c hv he hsplit hrun (by omega)
      obtain ⟨hr, hq, hi, hw, hpost⟩ := doLogPass_spec hcol (by decide)
      obtain ⟨hdone, ht⟩ := ih hr (hq ▸ hv') (hi ▸ he') (by rw [hq, hi, hu']; omega)
      refine ⟨hdone, ?_⟩
      rw [ht, hpost, hq, hi, hu', hw, hsplit, runs_append hrun, List.map_append]
      by_cases hnil : run = []
      · simp [hnil, extended_nil]
      · have hcut := mt (@cut_eq_nil s.t.wantstamp run).mp hnil
        rw [cut] at hcut
        simp [hnil, hcut, cut]
    · obtain ⟨c', q', i', hcol⟩ := @collect_eof s.q s.i (startpos s.t.wantstamp)
        (unread s.q s.i) ((unread s.q s.i).length + 1) [] s.c hv he rfl hnl (by omega)
      obtain ⟨hr, hq, hi, hw, hpost⟩ := doLogPass_spec hcol (by decide)
      have hstop : doLog n (doLogPass s) = doLogPass s := by
        cases n with
        | zero => rfl
        | succ n => rw [doLog, if_neg (by rw [hr]; decide)]
      have ht := hpost []
      rw [hstop, runs_last hnl]
      refine ⟨hr, ?_⟩
      rw [List.append_nil, postAll] at ht
      rw [ht]
      by_cases hnil : unread s.q s.i = []
      · simp [hnil, extended_nil]
      · have hcut := mt (@cut_eq_nil s.t.wantstamp (unread s.q s.i)).mp hnil
        rw [cut] at hcut
        simp [hnil, hcut, cut]

/-- The files hold these lines, in order and each of them in one file. -/
def Whole (lines : List (List UInt8)) (files : List LogFile) : Prop :=
  ∃ groups : List (List (List UInt8)), groups.flatten = lines ∧
    files.map (·.written) = groups.map List.flatten

theorem Whole.content {lines : List (List UInt8)} {files : List LogFile} (h : Whole lines files) :
    (files.map (·.written)).flatten = lines.flatten := by
  obtain ⟨groups, rfl, hf⟩ := h
  rw [hf]
  exact List.flatten_flatten.symm

theorem writeAll_eq (f : LogFile) (buf : List UInt8) (writes : List WriteRet) :
    writeAll f buf writes = { f with written := f.written ++ buf } := by
  induction writes generalizing f buf with
  | nil => rfl
  | cons w writes ih =>
    by_cases hb : buf.length = 0
    · have hnil := List.length_eq_zero_iff.mp hb
      cases w <;> simp [writeAll, hnil]
    · cases w with
      | wrote k => simp [writeAll, hb, ih]
      | again => simp [writeAll, hb, ih]
      | intr => simp [writeAll, hb, ih]
      | error => simp [writeAll, hb, ih]

/-- A file that is rotated away is full, and a new one is empty. -/
theorem whole_rotate {t : Tinylog} {lines : List (List UInt8)} (h : Whole lines t.files) :
    Whole lines (tinylogRotate t).files := by
  simp only [tinylogRotate]
  split
  · exact h
  · obtain ⟨groups, hlines, hf⟩ := h
    refine ⟨groups ++ [[]], by simp [hlines], ?_⟩
    change (t.files ++ [(⟨[], []⟩ : LogFile)]).map LogFile.written = _
    rw [List.map_append, hf]
    simp

/-- The file that is open takes the next line. -/
theorem whole_write {t : Tinylog} {lines : List (List UInt8)} (h : Whole lines t.files)
    (line : List UInt8) (n : ℕ) :
    Whole (lines ++ [line]) { t with
      current := { t.current with written := t.current.written ++ line }, currentSize := n }.files := by
  obtain ⟨groups, rfl, hf⟩ := h
  -- the last group is that of the open file
  obtain ⟨before, last, rfl⟩ : ∃ before last, groups = before ++ [last] := by
    rcases List.eq_nil_or_concat' groups with rfl | ⟨before, last, rfl⟩
    · simp [Tinylog.files] at hf
    · exact ⟨before, last, rfl⟩
  simp only [Tinylog.files, List.map_append, List.map_cons, List.map_nil] at hf
  obtain ⟨hclosed, hcurrent⟩ := List.append_inj' hf rfl
  have hlast : t.current.written = last.flatten := by simpa using hcurrent
  refine ⟨before ++ [last ++ [line]], by simp, ?_⟩
  simp [Tinylog.files, hclosed, hlast]

theorem whole_post {t : Tinylog} {lines : List (List UInt8)} (h : Whole lines t.files) (turn : Turn)
    (line : List UInt8) : Whole (lines ++ [line]) (tinylogPost t turn line).files := by
  simp only [tinylogPost, writeAll_eq]
  split
  · exact whole_write (whole_rotate h) line _
  · exact whole_write h line ((t.currentSize + line.length) % 2 ^ 64)

/-- The lines as they stand in the files. -/
def loglines (w : Bool) (turns : ℕ → Turn) (lines : List (List UInt8)) : List (List UInt8) :=
  lines.mapIdx fun k line => logline w (turns k).now line

theorem whole_postAll {t : Tinylog} {done : List (List UInt8)} (h : Whole done t.files)
    (turns : ℕ → Turn) (lines : List (List UInt8)) :
    Whole (done ++ loglines t.wantstamp turns lines) (postAll t turns lines).files := by
  induction lines generalizing t turns done with
  | nil => simpa [loglines, postAll] using h
  | cons line lines ih =>
    have hpost := ih (whole_post h (turns 0) (logline t.wantstamp (turns 0).now line))
      fun k => turns (k + 1)
    rw [tinylogPost_wantstamp, List.append_assoc] at hpost
    rw [loglines, List.mapIdx_cons, ← List.singleton_append]
    exact hpost

/-- Control characters other than tab are replaced. -/
def printable (c : UInt8) : UInt8 := if c < 32 ∧ c ≠ 9 then 63 else c

theorem filtered_eq_printable (c : UInt8) : filtered c = printable c ↔ c < 128 := by
  have hall : ∀ n : Fin 256, filtered (UInt8.ofFin n) = printable (UInt8.ofFin n) ↔
      UInt8.ofFin n < 128 := by decide +kernel
  simpa using hall c.toFin

/-- The lines that belong to a stream: its runs, cut to what a log line holds,
behind their timestamps. -/
def expected (w : Bool) (turns : ℕ → Turn) (bytes : List UInt8) : List (List UInt8) :=
  (runs bytes).mapIdx fun k run =>
    stamp w (turns k).now ++ (run.take (loglineMax - startpos w)).map printable ++ [10]

theorem stamp_length (w : Bool) (now : Tm) : (stamp w now).length = startpos w := by
  cases w with
  | false => rfl
  | true =>
    have h := @stamp8601Make_length (List.replicate 24 0) (by simp) now
    rw [List.length_replicate] at h
    have hfit := @bufWrite_length _ 22 [58, 32] (Nat.le_of_eq h.symm)
    exact hfit.trans h

theorem loglines_cut (w : Bool) (turns : ℕ → Turn) (bytes : List UInt8) :
    loglines w turns ((runs bytes).map (cut w)) = (runs bytes).mapIdx fun k run =>
      stamp w (turns k).now ++ (run.take (loglineMax - startpos w)).map filtered ++ [10] := by
  simp [loglines, List.mapIdx_eq_iff, cut, extended, logline, Function.comp_def]

/-- Filtered lines are the expected ones when no byte of them is above 127. -/
theorem loglines_eq_expected (w : Bool) (turns : ℕ → Turn) (bytes : List UInt8) :
    loglines w turns ((runs bytes).map (cut w)) = expected w turns bytes ↔
      ∀ run ∈ runs bytes, ∀ c ∈ run.take (loglineMax - startpos w), c < 128 := by
  have hrun : ∀ (k : ℕ) (run : List UInt8),
      stamp w (turns k).now ++ (run.take (loglineMax - startpos w)).map filtered ++ [10] =
        stamp w (turns k).now ++ (run.take (loglineMax - startpos w)).map printable ++ [10] ↔
      ∀ c ∈ run.take (loglineMax - startpos w), c < 128 := by
    intro k run
    rw [List.append_left_inj, List.append_right_inj, List.map_inj_left]
    simp only [filtered_eq_printable]
  rw [loglines_cut, expected, List.mapIdx_eq_mapIdx_iff, List.forall_mem_iff_getElem]
  simp only [hrun]

/-- The lines are as long as the expected ones, so that the bytes tell them apart. -/
theorem loglines_flatten {w : Bool} {turns : ℕ → Turn} {bytes : List UInt8}
    (h : (loglines w turns ((runs bytes).map (cut w))).flatten = (expected w turns bytes).flatten) :
    loglines w turns ((runs bytes).map (cut w)) = expected w turns bytes := by
  apply List.eq_iff_flatten_eq.mpr
  refine ⟨h, List.ext_getElem (by simp [loglines_cut, expected]) fun k hk hk' => ?_⟩
  simp [loglines_cut, expected]

theorem whole_start (o : Options) (found : Option Found) :
    Whole [] (initCurrent o found).files := ⟨[[]], rfl, rfl⟩

/-- tinylog writes the lines that belong to its input, each into one file, if and
only if none of the bytes that have a place in a line is above 127. -/
theorem doLog_whole_iff (o : Options) (found : Option Found) (i : Input) (turns : ℕ → Turn) {n : ℕ}
    (he : .error ∉ i.answers) (hn : i.rest.length < n) :
    (doLog n (start o found i turns)).r = 0 ∧
      (∀ now, (stamp o.wantstamp now).length = startpos o.wantstamp) ∧
      (Whole (expected o.wantstamp turns i.rest) (doLog n (start o found i turns)).t.files ↔
        ∀ run ∈ runs i.rest, ∀ c ∈ run.take (loglineMax - startpos o.wantstamp), c < 128) := by
  have hu : unread (start o found i turns).q (start o found i turns).i = i.rest := unread_init _ _
  obtain ⟨hdone, ht⟩ := doLog_spec (s := start o found i turns) rfl (valid_init (by decide)) he
    (hu.symm ▸ hn)
  have hwhole := whole_postAll (whole_start o found) turns ((runs i.rest).map (cut o.wantstamp))
  rw [hu] at ht
  refine ⟨hdone, stamp_length o.wantstamp, ?_⟩
  rw [← loglines_eq_expected o.wantstamp turns i.rest, ht]
  constructor
  · intro hexp
    exact loglines_flatten (hwhole.content.symm.trans hexp.content)
  · intro heq
    rw [← heq]
    exact hwhole

/-- A turn without a signal. -/
def calm : Turn := ⟨0, ⟨2009, 2, 14, 0, 0, 0, 0⟩, []⟩

theorem doLog_whole_iff_line :
    (doLog 4 (start ⟨none, false, true⟩ none ⟨[104, 105, 10], []⟩ fun _ => calm)).r = 0 ∧
      (∀ now, (stamp false now).length = startpos false) ∧
      (Whole (expected false (fun _ => calm) [104, 105, 10])
        (doLog 4 (start ⟨none, false, true⟩ none ⟨[104, 105, 10], []⟩ fun _ => calm)).t.files ↔
        ∀ run ∈ runs [104, 105, 10], ∀ c ∈ run.take (loglineMax - startpos false), c < 128) :=
  doLog_whole_iff ⟨none, false, true⟩ none ⟨[104, 105, 10], []⟩ _ (by decide) (by decide)

/-- The two bytes of a UTF-8 letter become question marks. -/
theorem doLog_loses_utf8 :
    ¬ Whole (expected false (fun _ => calm) [195, 169, 10])
      (doLog 4 (start ⟨none, false, true⟩ none ⟨[195, 169, 10], []⟩ fun _ => calm)).t.files := by
  intro h
  have hcontent := h.content
  have hfiles : ((doLog 4 (start ⟨none, false, true⟩ none ⟨[195, 169, 10], []⟩
      fun _ => calm)).t.files.map (·.written)).flatten = [63, 63, 10] := by
    decide +kernel
  rw [hfiles] at hcontent
  exact absurd hcontent (by decide)

end Perp.TinylogLines
