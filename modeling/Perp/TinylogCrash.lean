import Perp.TinylogDisk

set_option autoImplicit false

/-!
# Crashes of tinylog

Every log stays under some name through rotations, crashes and restarts, as long
as no process ends between the `rename()` of `current` and the `link()` of the
archive: a `previous` that is left behind is not looked at again, and the next
rotation replaces it. gzip must not find its target taken.
-/
namespace Perp.TinylogCrash
open LinkDir Stamp8601 TinylogPost TinylogDir Disk

/-- "zipped", if it is there, holds the archive of `p` and has a free name to go to. -/
def Fits (d : Disk) (p : Proc) : Prop :=
  ∀ z, lookup d.names nmZipped = some z →
    lookup d.names (p.fn8601 ++ zipExt) = none ∧
      ∃ i, lookup d.names p.fn8601 = some i ∧ d.copyOf z = d.copyOf i ∧
        (d.file z).bytes = (d.file i).bytes

/-- No process ends while `previous` is the only name of a log, and gzip's output
fits where it is renamed to. -/
structure Guarded (w : World) (a : Act) : Prop where
  ends : (a = .crash ∨ ∃ ok, a = .dies ok) → w.disk.Recoverable
  fits : ∀ p r, w.proc = some p → p.pc = .gzipRename r → a = .ok → Fits w.disk p

/-- A run from `w` of guarded steps. -/
inductive GuardedRun : World → List Act → World → Prop
  | nil (w : World) : GuardedRun w [] w
  | cons {w w' w'' : World} {a : Act} {acts : List Act} (hg : Guarded w a)
      (hs : step w a = some w') (hr : GuardedRun w' acts w'') : GuardedRun w (a :: acts) w''

/-- Every log has its bytes under a name, unless they were pruned, and no log has
lost its last name without having been archived. -/
def Safe (w : World) : Prop :=
  (∀ i ∈ w.disk.logs, w.disk.Under logName i ∨ w.disk.Pruned i) ∧ w.disk.lost = []

/-- `previous` may be the only name of a log. -/
def Pc.window : Pc → Bool
  | .keepStat .rotate | .keepLink .rotate => true
  | _ => false

/-- What holds of the directory before the system call. -/
def Here (d : Disk) (p : Proc) : Prop :=
  match p.pc with
  | .keepUnlink .initCurrent => ∀ i, (nmCurrent, i) ∈ d.names → d.Backed i
  | .gzipChmod _ | .gzipUnlink _ => d.Twin p.fn8601
  | .gzipUndo _ n => n = nmZipped ∨ (n = p.fn8601 ++ zipExt ∧ d.Twin p.fn8601)
  | .chmodCurrent _ | .ready | .renameCurrent | .write | .closing => (nmCurrent, p.fd) ∈ d.names
  | _ => True

structure PcOk (d : Disk) (p : Proc) : Prop where
  name : archival p.fn8601
  recoverable : Pc.window p.pc = false → d.Recoverable
  here : Here d p

structure Inv (w : World) : Prop where
  disk : Ok w.disk
  proc : ∀ p, w.proc = some p → PcOk w.disk p
  idle : w.proc = none → w.disk.Recoverable
  parents : ∀ p ∈ w.parents, archival p.fn8601 ∧ ∃ r, p.pc = .gzipWait r

section
variable {d d' : Disk} {p p' : Proc} {a : Act} {r : Ret}

theorem archival_fn8601 (now : Tm) (ext : UInt8) : archival (fn8601 now ext) := rfl

/-- A link count other than 1 of `current` or `previous` is that of an archive. -/
theorem backed_of_nlink {i : ℕ} (h : Ok d) (hi : lookup d.names r.log = some i)
    (hn : nlink d.names i ≠ 1) : d.Backed i := by
  have hmem := lookup_mem hi
  have hlog : i ∈ d.logs := by
    refine h.active _ _ hmem ?_
    cases r
    · exact .inl rfl
    · exact .inr rfl
  obtain ⟨m, hne, hm⟩ := other_name h.single hmem hn
  have hname := h.named m i hm hlog
  have ha : archival m := by
    simp only [logName, Bool.or_eq_true, decide_eq_true_eq] at hname
    rcases hname with (rfl | rfl) | ha
    · cases r
      · exact absurd rfl hne
      · exact absurd hmem (h.apart i hm)
    · cases r
      · exact absurd hm (h.apart i hmem)
      · exact absurd rfl hne
    · exact ha
  exact ⟨h.marked m i hm hlog ha, .inl ⟨(m, i), hm, ha, h.plain i hlog, rfl⟩⟩

theorem recoverable_of {d' : Disk} (h : Ok d) (hr : d.Recoverable)
    (hsub : ∀ i, (nmPrevious, i) ∈ d'.names → (nmPrevious, i) ∈ d.names)
    (hb : ∀ i ∈ d.logs, d.Backed i → d'.Backed i) : d'.Recoverable := by
  intro i hi
  have hmem := hsub i hi
  exact hb i (h.active _ _ hmem (.inr rfl)) (hr i hmem)

/-- What a step of a process does. -/
inductive Does (d : Disk) (p : Proc) : Act → Disk → Proc → Prop
  /-- the call is made again -/
  | again (a : Act) : Does d p a d p
  | statOpen (size : ℕ) (hpc : p.pc = .stat) :
    Does d p .ok d { p with pc := .openCurrent .initCurrent, currentSize := size }
  | statKeep (ext : UInt8) (hpc : p.pc = .stat) :
    Does d p .ok d { p with pc := .keepStat .initCurrent, ext := ext, currentSize := 0 }
  | keepNone (r : Ret) (hpc : p.pc = .keepStat r) (hnone : lookup d.names r.log = none) :
    Does d p .ok d { p with pc := .openCurrent r }
  | keepSingle (r : Ret) (hpc : p.pc = .keepStat r) : Does d p .ok d { p with pc := .keepLink r }
  | keepLinked (r : Ret) (i : ℕ) (hpc : p.pc = .keepStat r) (hi : lookup d.names r.log = some i)
    (hn : nlink d.names i ≠ 1) : Does d p .ok d { p with pc := .keepUnlink r }
  | named (r : Ret) (now : Tm) (ok : Bool) (hpc : p.pc = .keepLink r) :
    Does d p (.clock now ok) d { p with fn8601 := fn8601 now p.ext }
  | archive (r : Ret) (now : Tm) (i : ℕ) (hpc : p.pc = .keepLink r)
    (hi : lookup d.names r.log = some i) (hfree : lookup d.names (fn8601 now p.ext) = none) :
    Does d p (.clock now true) (d.archive (fn8601 now p.ext) i)
      { p with fn8601 := fn8601 now p.ext, pc := .keepUnlink r }
  | unlinkLog (r : Ret) (hpc : p.pc = .keepUnlink r) :
    Does d p .ok (d.unlink r.log)
      { p with pc := if p.opts.wantzip then .gzipFork r else .prune r }
  | openZipped (r : Ret) (i : ℕ) (hpc : p.pc = .gzipFork r) :
    Does d p .ok (d.openZipped i) { p with pc := .gzipWait r }
  | zipped (r : Ret) (z i : ℕ) (output : List UInt8) (hpc : p.pc = .gzipWait r)
    (hz : lookup d.names nmZipped = some z) :
    Does d p (.exited true output) (d.fill z i (d.file i).bytes) { p with pc := .gzipRename r }
  | unzipped (r : Ret) (z i : ℕ) (output : List UInt8) (hpc : p.pc = .gzipWait r)
    (hz : lookup d.names nmZipped = some z) :
    Does d p (.exited false output) (d.fill z i output) { p with pc := .gzipUndo r nmZipped }
  | renameFails (r : Ret) (a : Act) (hpc : p.pc = .gzipRename r) :
    Does d p a d { p with pc := .gzipUndo r nmZipped }
  | renameZipped (r : Ret) (z : ℕ) (hpc : p.pc = .gzipRename r)
    (hz : lookup d.names nmZipped = some z) :
    Does d p .ok (d.rename nmZipped (p.fn8601 ++ zipExt)) { p with pc := .gzipChmod r }
  | chmodZipped (r : Ret) (hpc : p.pc = .gzipChmod r) :
    Does d p .ok d { p with pc := .gzipUnlink r }
  | chmodFails (r : Ret) (hpc : p.pc = .gzipChmod r) :
    Does d p .fails d { p with pc := .gzipUndo r (p.fn8601 ++ zipExt) }
  | undo (r : Ret) (n : Name) (hpc : p.pc = .gzipUndo r n) :
    Does d p .ok (d.unlink n) { p with pc := .prune r }
  | undoFails (r : Ret) (n : Name) (hpc : p.pc = .gzipUndo r n) :
    Does d p .fails d { p with pc := .prune r }
  | unlinkPlain (r : Ret) (hpc : p.pc = .gzipUnlink r) :
    Does d p .ok (d.unlink p.fn8601) { p with pc := .prune r }
  | prune (r : Ret) (n : Name) (hpc : p.pc = .prune r) (hn : archival n) :
    Does d p (.pruned n) (d.prune n) p
  | pruned (r : Ret) (hpc : p.pc = .prune r) : Does d p .ok d { p with pc := .openCurrent r }
  | openCurrent (r : Ret) (hpc : p.pc = .openCurrent r) :
    Does d p .ok d.openCurrent.2 { p with pc := .chmodCurrent r, fd := d.openCurrent.1 }
  | chmodInit (hpc : p.pc = .chmodCurrent .initCurrent) :
    Does d p .ok (d.chmod p.fd false) { p with pc := .ready }
  | chmodRotate (hpc : p.pc = .chmodCurrent .rotate) :
    Does d p .ok (d.chmod p.fd false) { p with pc := .write, currentSize := 0, flagrotate := 0 }
  | rotates (hups flag : ℕ) (line : List UInt8) (hpc : p.pc = .ready) :
    Does d p (.post hups line) d
      { p.posting line with pc := .renameCurrent, flagrotate := flag }
  | posts (hups flag : ℕ) (line : List UInt8) (hpc : p.pc = .ready) :
    Does d p (.post hups line) d { p.posting line with flagrotate := flag }
  | eof (hpc : p.pc = .ready) : Does d p .eof d { p with pc := .closing }
  | renameCurrent (i : ℕ) (hpc : p.pc = .renameCurrent) (hi : lookup d.names nmCurrent = some i) :
    Does d p .ok (d.rename nmCurrent nmPrevious) { p with pc := .keepStat .rotate, ext := 115 }
  | wrote (k size : ℕ) (hpc : p.pc = .write) :
    Does d p (.wrote k) (d.append p.fd p.left)
      { p with pc := .ready, left := [], currentSize := size }
  | wrotePart (k : ℕ) (hpc : p.pc = .write) :
    Does d p (.wrote k) (d.append p.fd (p.left.take k)) { p with left := p.left.drop k }

theorem procStep_does (hs : procStep d p a = some (d', p')) : Does d p a d' p' := by
  unfold procStep at hs
  split at hs
  · next hpc =>
    split at hs
    · cases hs
      exact .statOpen 0 hpc
    split at hs
    · cases hs
      exact .statKeep 117 hpc
    split at hs
    · cases hs
      exact .statKeep 115 hpc
    · cases hs
      exact .statOpen _ hpc
  · next r hpc =>
    split at hs
    · next hnone =>
      cases hs
      exact .keepNone r hpc hnone
    split at hs
    · cases hs
      exact .keepSingle r hpc
    · next i hi hn =>
      cases hs
      exact .keepLinked r i hpc hi hn
  · cases hs
    exact .again _
  · next r now ok hpc =>
    simp only at hs
    split at hs
    · next i hi hfree =>
      cases hs
      exact .archive r now i hpc hi hfree
    · cases hs
      exact .named r now _ hpc
  · next r hpc =>
    split at hs
    · cases hs
      exact .again _
    · cases hs
      exact .unlinkLog r hpc
  · cases hs
    exact .again _
  · next r hpc =>
    split at hs
    · cases hs
    · next i _ =>
      cases hs
      exact .openZipped r i hpc
  · cases hs
    exact .again _
  · next r ok output hpc =>
    split at hs
    · next z i hz _ =>
      cases ok with
      | true =>
        cases hs
        exact .zipped r z i output hpc hz
      | false =>
        cases hs
        exact .unzipped r z i output hpc hz
    · cases hs
  · cases hs
    exact .again _
  · next r hpc =>
    split at hs
    · cases hs
      exact .renameFails r _ hpc
    · next z hz =>
      cases hs
      exact .renameZipped r z hpc hz
  · next r hpc =>
    cases hs
    exact .renameFails r _ hpc
  · next r hpc =>
    cases hs
    exact .chmodZipped r hpc
  · next r hpc =>
    cases hs
    exact .chmodFails r hpc
  · next r n hpc =>
    cases hs
    exact .undo r n hpc
  · next r n hpc =>
    cases hs
    exact .undoFails r n hpc
  · next r hpc =>
    split at hs
    · cases hs
      exact .again _
    · cases hs
      exact .unlinkPlain r hpc
  · cases hs
    exact .again _
  · next r n hpc =>
    split at hs
    · next hn =>
      cases hs
      exact .prune r n hpc hn
    · cases hs
  · next r hpc =>
    cases hs
    exact .pruned r hpc
  · next r hpc =>
    cases hs
    exact .openCurrent r hpc
  · cases hs
    exact .again _
  · next hpc =>
    cases hs
    exact .chmodInit hpc
  · next hpc =>
    cases hs
    exact .chmodRotate hpc
  · cases hs
    exact .again _
  · next hups line hpc =>
    simp only at hs
    split at hs
    · split at hs
      · cases hs
        exact .rotates hups _ line hpc
      · cases hs
        exact .posts hups 0 line hpc
    · cases hs
      exact .posts hups _ line hpc
  · next hpc =>
    cases hs
    exact .eof hpc
  · next hpc =>
    split at hs
    · cases hs
      exact .again _
    · next i hi =>
      cases hs
      exact .renameCurrent i hpc hi
  · cases hs
    exact .again _
  · next k hpc =>
    split at hs
    · cases hs
      exact .wrote k _ hpc
    · cases hs
      exact .wrotePart k hpc
  · cases hs
    exact .again _
  · cases hs

namespace PcOk
variable {pc : Pc}

theorem recoverable_at (hp : PcOk d p) (hpc : p.pc = pc) (hw : Pc.window pc = false) :
    d.Recoverable := hp.recoverable (hpc ▸ hw)

theorem here_at (hp : PcOk d p) (hpc : p.pc = pc) : Here d { p with pc := pc } := hpc ▸ hp.here

end PcOk

theorem keepNone_ok (hp : PcOk d p) (hpc : p.pc = .keepStat r)
    (hnone : lookup d.names r.log = none) : PcOk d { p with pc := .openCurrent r } := by
  refine ⟨hp.name, fun _ => ?_, trivial⟩
  cases r with
  | initCurrent => exact hp.recoverable_at hpc rfl
  | rotate => exact fun i hi => absurd hi (lookup_none hnone)

theorem keepSingle_ok (hp : PcOk d p) (hpc : p.pc = .keepStat r) :
    PcOk d { p with pc := .keepLink r } := by
  refine ⟨hp.name, fun hw => ?_, trivial⟩
  cases r with
  | initCurrent => exact hp.recoverable_at hpc rfl
  | rotate => cases hw

theorem keepLinked_ok {i : ℕ} (h : Ok d) (hp : PcOk d p) (hpc : p.pc = .keepStat r)
    (hi : lookup d.names r.log = some i) (hn : nlink d.names i ≠ 1) :
    PcOk d { p with pc := .keepUnlink r } := by
  have hb := backed_of_nlink h hi hn
  have hall : ∀ j, (r.log, j) ∈ d.names → d.Backed j := by
    intro j hj
    rw [h.single.eq hj (lookup_mem hi)]
    exact hb
  cases r with
  | initCurrent => exact ⟨hp.name, fun _ => hp.recoverable_at hpc rfl, hall⟩
  | rotate => exact ⟨hp.name, fun _ => hall, trivial⟩

theorem archive_ok {i : ℕ} {now : Tm} (h : Ok d) (hp : PcOk d p) (hpc : p.pc = .keepLink r)
    (hi : lookup d.names r.log = some i) (hfree : lookup d.names (fn8601 now p.ext) = none) :
    Ok (d.archive (fn8601 now p.ext) i) ∧ PcOk (d.archive (fn8601 now p.ext) i)
      { p with fn8601 := fn8601 now p.ext, pc := .keepUnlink r } := by
  have hmem := lookup_mem hi
  have hlog : i ∈ d.logs := by
    refine h.active _ _ hmem ?_
    cases r
    · exact .inl rfl
    · exact .inr rfl
  have hok := h.archive (archival_fn8601 now p.ext) hfree hlog
  have hb := archive_backed h (archival_fn8601 now p.ext) hlog
  have hsub : ∀ (r : Ret) j, (r.log, j) ∈ (d.archive (fn8601 now p.ext) i).names →
      (r.log, j) ∈ d.names := by
    intro r j hj
    rcases mem_link.mp hj with ⟨hn, -⟩ | hj
    · cases r <;> exact absurd hn.symm (ne_of_archival (archival_fn8601 now p.ext) rfl)
    · exact hj
  have hall : ∀ j, (r.log, j) ∈ (d.archive (fn8601 now p.ext) i).names →
      (d.archive (fn8601 now p.ext) i).Backed j := by
    intro j hj
    rw [h.single.eq (hsub r j hj) hmem]
    exact hb
  refine ⟨hok, ?_⟩
  cases r with
  | initCurrent =>
    have hr := hp.recoverable_at hpc rfl
    exact ⟨archival_fn8601 now p.ext, fun _ => recoverable_of h hr (hsub .rotate)
      fun j _ hj => hj.archive _ _, hall⟩
  | rotate => exact ⟨archival_fn8601 now p.ext, fun _ => hall, trivial⟩

theorem unlinkLog_ok (h : Ok d) (hp : PcOk d p) (hpc : p.pc = .keepUnlink r) :
    Ok (d.unlink r.log) ∧ PcOk (d.unlink r.log)
      { p with pc := if p.opts.wantzip then .gzipFork r else .prune r } := by
  have hr := hp.recoverable_at hpc rfl
  have hb : ∀ i, (r.log, i) ∈ d.names → d.Backed i := by
    cases r with
    | initCurrent => exact hp.here_at hpc
    | rotate => exact hr
  have hlog : r.log = nmCurrent ∨ r.log = nmPrevious := by
    cases r
    · exact .inl rfl
    · exact .inr rfl
  have hna : archival r.log = false := by cases r <;> rfl
  have hr' := hr.unlink (n := r.log) (.of_false hna)
  refine ⟨h.unlink_backed hlog hb, hp.name, fun _ => hr', ?_⟩
  cases p.opts.wantzip <;> trivial

theorem openZipped_previous {i j : ℕ} (hj : (nmPrevious, j) ∈ (d.openZipped i).names) :
    (nmPrevious, j) ∈ d.names := by
  unfold Disk.openZipped at hj
  split at hj
  · exact hj
  · rcases mem_link.mp hj with ⟨hn, -⟩ | hj
    · exact absurd hn (by decide)
    · exact hj

theorem renameZipped_ok {z : ℕ} (h : Ok d) (hp : PcOk d p) (hpc : p.pc = .gzipRename r)
    (hfits : Fits d p) (hz : lookup d.names nmZipped = some z) :
    Ok (d.rename nmZipped (p.fn8601 ++ zipExt)) ∧
      PcOk (d.rename nmZipped (p.fn8601 ++ zipExt)) { p with pc := .gzipChmod r } := by
  have hr := hp.recoverable_at hpc rfl
  obtain ⟨hfree, i, hi, hcopy, hbytes⟩ := hfits z hz
  have hmem := lookup_mem hz
  obtain ⟨hok, hb⟩ := h.renameZipped hp.name hmem hfree
  have hnames : ∀ m j, (m, j) ∈ (d.rename nmZipped (p.fn8601 ++ zipExt)).names ↔
      (m = p.fn8601 ++ zipExt ∧ j = z) ∨
        ((m, j) ∈ d.names ∧ m ≠ p.fn8601 ++ zipExt ∧ m ≠ nmZipped) :=
    fun m j => mem_rename h.single hmem (lookup_none hfree)
  refine ⟨hok, hp.name, fun _ => recoverable_of h hr (fun j hj => ?_) fun j _ => hb j,
    i, z, ?_, (hnames _ _).mpr (.inl ⟨rfl, rfl⟩), hcopy, hbytes⟩
  · rcases (hnames _ j).mp hj with ⟨hn, -⟩ | ⟨hj, -⟩
    · exact absurd hn.symm (ne_of_archival (archival_zipExt hp.name) rfl)
    · exact hj
  · exact (hnames _ _).mpr (.inr ⟨lookup_mem hi, (ne_zipExt _).symm, ne_of_archival hp.name rfl⟩)

/-- gzip's output, or what there is of it, is removed. -/
theorem undo_ok {n : Name} (h : Ok d) (hp : PcOk d p) (hpc : p.pc = .gzipUndo r n) :
    Ok (d.unlink n) ∧ PcOk (d.unlink n) { p with pc := .prune r } := by
  have hr := hp.recoverable_at hpc rfl
  have hhere : n = nmZipped ∨ (n = p.fn8601 ++ zipExt ∧ d.Twin p.fn8601) := hp.here_at hpc
  rcases hhere with rfl | ⟨rfl, htwin⟩
  · have hok := h.unlink_spare (n := nmZipped) (.of_false rfl)
      fun i hi hz => absurd hi (h.zipped_not_log hz)
    exact ⟨hok, hp.name, fun _ => hr.unlink (.of_false rfl), trivial⟩
  · have hlogn := logName_of_archival hp.name
    have hlognz := logName_of_archival (archival_zipExt hp.name)
    have hok := h.unlink_spare (htwin.spare h.single hlogn hlognz).2
      fun i hi hz => h.marked _ i hz hi (archival_zipExt hp.name)
    exact ⟨hok, hp.name, fun _ => hr.unlink
      (htwin.spare h.single hp.name (archival_zipExt hp.name)).2, trivial⟩

/-- Of an archive and its twin only the archive is removed. -/
theorem unlinkPlain_ok (h : Ok d) (hp : PcOk d p) (hpc : p.pc = .gzipUnlink r) :
    Ok (d.unlink p.fn8601) ∧ PcOk (d.unlink p.fn8601) { p with pc := .prune r } := by
  have hr := hp.recoverable_at hpc rfl
  have htwin : d.Twin p.fn8601 := hp.here_at hpc
  have hlogn := logName_of_archival hp.name
  have hlognz := logName_of_archival (archival_zipExt hp.name)
  have hok := h.unlink_spare (htwin.spare h.single hlogn hlognz).1
    fun i hi hn => h.marked _ i hn hi hp.name
  exact ⟨hok, hp.name, fun _ => hr.unlink
    (htwin.spare h.single hp.name (archival_zipExt hp.name)).1, trivial⟩

theorem prune_ok {n : Name} (h : Ok d) (hp : PcOk d p) (hpc : p.pc = .prune r) (hn : archival n) :
    Ok (d.prune n) ∧ PcOk (d.prune n) p := by
  have hr := hp.recoverable_at hpc rfl
  refine ⟨h.prune hn, hp.name, fun _ => recoverable_of h hr (fun i hi => ?_)
    fun _ _ hb => hb.prune h n, by simp [Here, hpc]⟩
  rw [(prune_names d n).1] at hi
  exact (mem_unlink.mp hi).1

theorem recoverable_chmod (hr : d.Recoverable) (k : ℕ) (clean : Bool) :
    (d.chmod k clean).Recoverable := fun i hi => (hr i hi).chmod k clean

theorem recoverable_append (h : Ok d) (hr : d.Recoverable) {k : ℕ} (hk : (nmCurrent, k) ∈ d.names)
    (data : List UInt8) : (d.append k data).Recoverable := by
  intro i hi
  have hne : i ≠ k := fun heq => h.apart k hk (heq ▸ hi)
  exact (h.append hk data).2 i hne (hr i hi)

/-- What a step of a process keeps. -/
theorem procStep_ok (h : Ok d) (hp : PcOk d p)
    (hfits : ∀ r, p.pc = .gzipRename r → a = .ok → Fits d p)
    (hs : procStep d p a = some (d', p')) : Ok d' ∧ PcOk d' p' := by
  cases procStep_does hs with
  | again => exact ⟨h, hp⟩
  | statOpen size hpc => exact ⟨h, hp.name, fun _ => hp.recoverable_at hpc rfl, trivial⟩
  | statKeep ext hpc => exact ⟨h, hp.name, fun _ => hp.recoverable_at hpc rfl, trivial⟩
  | keepNone r hpc hnone => exact ⟨h, keepNone_ok hp hpc hnone⟩
  | keepSingle r hpc => exact ⟨h, keepSingle_ok hp hpc⟩
  | keepLinked r i hpc hi hn => exact ⟨h, keepLinked_ok h hp hpc hi hn⟩
  | named r now ok hpc =>
    refine ⟨h, archival_fn8601 now p.ext, hp.recoverable, ?_⟩
    simp [Here, hpc]
  | archive r now i hpc hi hfree => exact archive_ok h hp hpc hi hfree
  | unlinkLog r hpc => exact unlinkLog_ok h hp hpc
  | openZipped r i hpc =>
    have hr := hp.recoverable_at hpc rfl
    obtain ⟨hok, hb⟩ := h.openZipped i
    exact ⟨hok, hp.name, fun _ => recoverable_of h hr (fun _ => openZipped_previous) hb, trivial⟩
  | zipped r z i output hpc hz =>
    have hr := hp.recoverable_at hpc rfl
    obtain ⟨hok, hb⟩ := h.fill (lookup_mem hz) i (d.file i).bytes
    exact ⟨hok, hp.name, fun _ => recoverable_of h hr (fun _ hj => hj) hb, trivial⟩
  | unzipped r z i output hpc hz =>
    have hr := hp.recoverable_at hpc rfl
    obtain ⟨hok, hb⟩ := h.fill (lookup_mem hz) i output
    exact ⟨hok, hp.name, fun _ => recoverable_of h hr (fun _ hj => hj) hb, .inl rfl⟩
  | renameFails r a hpc => exact ⟨h, hp.name, fun _ => hp.recoverable_at hpc rfl, .inl rfl⟩
  | renameZipped r z hpc hz => exact renameZipped_ok h hp hpc (hfits r hpc rfl) hz
  | chmodZipped r hpc =>
    have htwin : d.Twin p.fn8601 := hp.here_at hpc
    exact ⟨h, hp.name, fun _ => hp.recoverable_at hpc rfl, htwin⟩
  | chmodFails r hpc =>
    have htwin : d.Twin p.fn8601 := hp.here_at hpc
    exact ⟨h, hp.name, fun _ => hp.recoverable_at hpc rfl, .inr ⟨rfl, htwin⟩⟩
  | undo r n hpc => exact undo_ok h hp hpc
  | undoFails r n hpc => exact ⟨h, hp.name, fun _ => hp.recoverable_at hpc rfl, trivial⟩
  | unlinkPlain r hpc => exact unlinkPlain_ok h hp hpc
  | prune r n hpc hn => exact prune_ok h hp hpc hn
  | pruned r hpc => exact ⟨h, hp.name, fun _ => hp.recoverable_at hpc rfl, trivial⟩
  | openCurrent r hpc =>
    have hr := hp.recoverable_at hpc rfl
    obtain ⟨hok, hfd, hsub, hb⟩ := h.openCurrent
    exact ⟨hok, hp.name, fun _ => recoverable_of h hr hsub hb, hfd⟩
  | chmodInit hpc =>
    have hr := hp.recoverable_at hpc rfl
    exact ⟨h.chmod _ _, hp.name, fun _ => recoverable_chmod hr _ _, hp.here_at hpc⟩
  | chmodRotate hpc =>
    have hr := hp.recoverable_at hpc rfl
    exact ⟨h.chmod _ _, hp.name, fun _ => recoverable_chmod hr _ _, hp.here_at hpc⟩
  | rotates hups flag line hpc =>
    exact ⟨h, hp.name, fun _ => hp.recoverable_at hpc rfl, hp.here_at hpc⟩
  | posts hups flag line hpc =>
    exact ⟨h, hp.name, fun _ => hp.recoverable_at hpc rfl, hp.here_at hpc⟩
  | eof hpc =>
    have hfd : (nmCurrent, p.fd) ∈ d.names := hp.here_at hpc
    exact ⟨h, hp.name, fun _ => hp.recoverable_at hpc rfl, hfd⟩
  | renameCurrent i hpc hi =>
    have hok := h.renameCurrent (hp.recoverable_at hpc rfl) (lookup_mem hi)
    exact ⟨hok, hp.name, fun hw => (by cases hw), trivial⟩
  | wrote k size hpc =>
    have hr := hp.recoverable_at hpc rfl
    have hfd : (nmCurrent, p.fd) ∈ d.names := hp.here_at hpc
    exact ⟨(h.append hfd _).1, hp.name, fun _ => recoverable_append h hr hfd _, hfd⟩
  | wrotePart k hpc =>
    have hr := hp.recoverable_at hpc rfl
    have hfd : (nmCurrent, p.fd) ∈ d.names := hp.here_at hpc
    refine ⟨(h.append hfd _).1, hp.name, fun _ => recoverable_append h hr hfd _, ?_⟩
    simp only [Here, hpc]
    exact hfd

end

namespace Inv
variable {w w' : World} {a : Act}

/-- A process ends, and one that has waited for it goes on. -/
theorem ends (h : Inv w) {d : Disk} (hd : Ok d) (hr : d.Recoverable) (ok : Bool) :
    Inv (w.ends d ok) := by
  unfold World.ends
  split
  · exact ⟨hd, by simp, fun _ => hr, by simp⟩
  · next p parents hparents =>
    obtain ⟨hname, r, hpc⟩ := h.parents p (by simp [hparents])
    refine ⟨hd, fun p' hp' => ?_, by simp, fun q hq => h.parents q (by simp [hparents, hq])⟩
    obtain rfl : p.resumed ok = p' := by simpa using hp'
    cases ok with
    | true =>
      simp only [Proc.resumed, hpc]
      exact ⟨hname, fun _ => hr, trivial⟩
    | false =>
      simp only [Proc.resumed, hpc]
      exact ⟨hname, fun _ => hr, .inl rfl⟩

theorem procStep (h : Inv w) {p : Proc} (hp : w.proc = some p)
    (hg : Guarded w a)
    (hs : (TinylogDir.procStep w.disk p a).map (fun r => { w with disk := r.1, proc := some r.2 }) =
      some w') : Inv w' := by
  obtain ⟨⟨d', p'⟩, hstep, rfl⟩ := Option.map_eq_some_iff.mp hs
  obtain ⟨hd, hp'⟩ := procStep_ok h.disk (h.proc p hp) (fun r hpc ha => hg.fits p r hp hpc ha) hstep
  refine ⟨hd, fun q hq => ?_, by simp, h.parents⟩
  obtain rfl : p' = q := by simpa using hq
  exact hp'

theorem step (h : Inv w) (hg : Guarded w a) (hs : TinylogDir.step w a = some w') : Inv w' := by
  cases hw : w.proc with
  | none =>
    have hr := h.idle hw
    cases a with
    | start o =>
      simp only [TinylogDir.step, hw] at hs
      cases hs
      refine ⟨h.disk, fun p hp => ?_, by simp, h.parents⟩
      obtain rfl : proc0 o = p := by simpa using hp
      exact ⟨rfl, fun _ => hr, trivial⟩
    | _ => simp [TinylogDir.step, hw] at hs
  | some p =>
    cases a with
    | crash =>
      simp only [TinylogDir.step, hw] at hs
      cases hs
      exact ⟨h.disk, by simp, fun _ => hg.ends (.inl rfl), by simp⟩
    | dies ok =>
      simp only [TinylogDir.step, hw] at hs
      cases hs
      exact h.ends h.disk (hg.ends (.inr ⟨ok, rfl⟩)) ok
    | childReturns =>
      simp only [TinylogDir.step, hw] at hs
      split at hs
      · next r hpc =>
        cases hs
        have hp := h.proc p hw
        refine ⟨h.disk, fun q hq => ?_, by simp, fun q hq => ?_⟩
        · obtain rfl : { p with pc := .prune r } = q := by simpa using hq
          exact ⟨hp.name, fun _ => hp.recoverable (by simp [hpc, Pc.window]), trivial⟩
        · rcases List.mem_cons.mp hq with rfl | hq
          · exact ⟨hp.name, r, rfl⟩
          · exact h.parents q hq
      · cases hs
    | ok =>
      simp only [TinylogDir.step, hw] at hs
      split at hs
      · next hpc _ =>
        cases hs
        have hr := (h.proc p hw).recoverable (by simp [hpc, Pc.window])
        exact h.ends (h.disk.chmod _ _) (recoverable_chmod hr _ _) true
      · exact h.procStep hw hg hs
    | _ =>
      simp only [TinylogDir.step, hw] at hs
      split at hs
      · next ha => cases ha
      · exact h.procStep hw hg hs

theorem run {acts : List Act} (h : Inv w) (hr : GuardedRun w acts w') : Inv w' := by
  induction hr with
  | nil w => exact h
  | cons hg hs _ ih => exact ih (h.step hg hs)

theorem safe (h : Inv w) : Safe w := ⟨h.disk.kept, h.disk.unlost⟩

end Inv

/-- `tinylog_prune()` unlinks nothing but names with an underscore. -/
theorem tinylogPrune_left {keepMax : UInt32} {f : TinylogPrune.Failing} {names left : List Name} {r : ℤ}
    (h : TinylogPrune.tinylogPrune keepMax f names = some (r, left)) :
    left = names ∨ ∃ n ∈ names, archival n ∧ left = names.erase n := by
  have hscan : ∀ (ns : List Name) (s s' : TinylogPrune.Scan), archival s.target →
      ns.foldlM TinylogPrune.scanName s = some s' → archival s'.target := by
    intro ns
    induction ns with
    | nil =>
      intro s s' hs hfold
      cases hfold
      exact hs
    | cons n ns ih =>
      intro s s' hs hfold
      obtain ⟨s1, hname, hrest⟩ := Option.bind_eq_some_iff.mp hfold
      refine ih s1 s' ?_ hrest
      simp only [TinylogPrune.scanName] at hname
      split at hname
      · next hsm =>
        split at hname
        · cases hname
        split at hname
        · split at hname
          · cases hname
          · cases hname
            simp only [TinylogPrune.smells, Bool.and_eq_true] at hsm
            exact hsm.1.1.1
        · cases hname
          exact hs
      · cases hname
        exact hs
  simp only [TinylogPrune.tinylogPrune] at h
  split at h
  · exact .inl (by simpa using (Prod.mk.inj (Option.some.inj h)).2.symm)
  split at h
  · cases h
  · next s hfold =>
    split at h
    · exact .inl (Prod.mk.inj (Option.some.inj h)).2.symm
    split at h
    · exact .inl (Prod.mk.inj (Option.some.inj h)).2.symm
    split at h
    · exact .inl (Prod.mk.inj (Option.some.inj h)).2.symm
    · next hmem =>
      split at h
      · cases h
      · simp only [Bool.or_eq_true, decide_eq_true_eq, not_or, not_not] at hmem
        exact .inr ⟨s.target, hmem.2, hscan _ _ _ rfl hfold, (Prod.mk.inj (Option.some.inj h)).2.symm⟩

/-- A directory in which tinylog has not run: no file of it is a log, and none has
one of the names that tinylog uses next to those of archives. -/
structure Untouched (d : Disk) : Prop where
  single : Single d.names
  fresh : ∀ n i, (n, i) ∈ d.names → i < d.next
  free : ∀ i, (nmCurrent, i) ∉ d.names ∧ (nmPrevious, i) ∉ d.names ∧ (nmZipped, i) ∉ d.names
  logs : d.logs = []
  lost : d.lost = []

theorem Untouched.inv {d : Disk} (h : Untouched d) : Inv ⟨d, none, []⟩ := by
  have hlogs : ∀ i, i ∉ d.logs := by simp [h.logs]
  refine ⟨?_, by simp, fun _ i hi => absurd hi (h.free i).2.1, by simp⟩
  exact
    { single := h.single
      fresh := h.fresh
      created := fun i hi => absurd hi (hlogs i)
      plain := fun i hi => absurd hi (hlogs i)
      named := fun _ i _ hi => absurd hi (hlogs i)
      marked := fun _ i _ hi => absurd hi (hlogs i)
      active := fun n i hm hn => by
        rcases hn with rfl | rfl
        · exact absurd hm (h.free i).1
        · exact absurd hm (h.free i).2.1
      apart := fun i hc _ => (h.free i).1 hc
      alone := fun z _ hz _ => absurd hz (h.free z).2.2
      kept := fun i hi => absurd hi (hlogs i)
      unlost := h.lost }

/-- In every run whose steps are guarded, through any number of rotations, crashes
and restarts, all bytes that were written to `current` stay under some name,
except those of pruned archives, and no log loses its last name unarchived. -/
theorem tinylog_keeps (d : Disk) (hd : Untouched d) (acts : List Act) (w : World)
    (hr : GuardedRun ⟨d, none, []⟩ acts w) : Safe w :=
  (hd.inv.run hr).safe

def run : World → List Act → Option World
  | w, [] => some w
  | w, a :: acts => (step w a).bind fun w => run w acts

def emptyDisk : Disk := ⟨[], fun _ => ⟨[], false⟩, 0, [], [], id, fun _ => 0, []⟩

theorem emptyDisk_untouched : Untouched emptyDisk :=
  ⟨List.nodup_nil, by simp [emptyDisk], by simp [emptyDisk], rfl, rfl⟩

/-- Neither an end of a process nor the `rename()` of gzip's output. -/
def plainly (w : World) (a : Act) : Bool :=
  match a with
  | .crash | .dies _ => false
  | _ =>
    match w.proc with
    | some p => match p.pc with
      | .gzipRename _ => false
      | _ => true
    | none => true

theorem Guarded.plain {w : World} {a : Act} (h : plainly w a) : Guarded w a where
  ends ha := by
    rcases ha with rfl | ⟨ok, rfl⟩ <;> simp [plainly] at h
  fits p r hw hpc ha := by
    subst ha
    simp [plainly, hw, hpc] at h

/-- tinylog starts, writes a line, and is told to rotate with the next. -/
def rotating : List Act :=
  [.start ⟨none, true, false⟩, .ok, .ok, .ok, .post 0 [97, 10], .wrote 2, .post 1 [98, 10], .ok]

def rotatingWorld : World := (run ⟨emptyDisk, none, []⟩ rotating).get rfl

theorem tinylog_keeps_rotating : Safe rotatingWorld := by
  have hr : GuardedRun ⟨emptyDisk, none, []⟩ rotating rotatingWorld := by
    iterate 8 refine .cons (.plain rfl) rfl ?_
    exact .nil _
  exact tinylog_keeps emptyDisk emptyDisk_untouched rotating rotatingWorld hr

/-- A crash right after the `rename()`, and another rotation. -/
def crashing : List Act :=
  rotating ++ [.crash, .start ⟨none, true, false⟩, .ok, .ok, .ok, .post 0 [99, 10], .wrote 2,
    .post 1 [100, 10], .ok]

theorem tinylog_loses : ∃ w, run ⟨emptyDisk, none, []⟩ crashing = some w ∧ ¬ Safe w := by
  refine ⟨_, rfl, fun h => ?_⟩
  have hlost := h.2
  exact absurd hlost (by decide)

end Perp.TinylogCrash
