import Perp.TinylogDir

set_option autoImplicit false

/-!
# Logs under their names

What each operation of tinylog on its directory does to the names under which
the bytes of a log can be read.
-/
namespace Perp.TinylogDir
open LinkDir

namespace Disk

/-- The bytes of the log `i` are under one of the names. -/
def Under (P : Name → Bool) (d : Disk) (i : ℕ) : Prop :=
  ∃ e ∈ d.names, P e.1 ∧ d.copyOf e.2 = i ∧ (d.file e.2).bytes = (d.file i).bytes

/-- All bytes of the log were in an archive that has been pruned. -/
def Pruned (d : Disk) (i : ℕ) : Prop := (d.file i).bytes.length ≤ d.prunedLen i

/-- The log has been archived, and the archive is there or has been pruned. -/
def Backed (d : Disk) (i : ℕ) : Prop := i ∈ d.archived ∧ (d.Under archival i ∨ d.Pruned i)

/-- `previous` is not the only name of a log. -/
def Recoverable (d : Disk) : Prop :=
  ∀ i, (nmPrevious, i) ∈ d.names → d.Backed i

structure Ok (d : Disk) : Prop where
  single : Single d.names
  fresh : ∀ n i, (n, i) ∈ d.names → i < d.next
  created : ∀ i ∈ d.logs, i < d.next
  /-- a log is not zipped -/
  plain : ∀ i ∈ d.logs, d.copyOf i = i
  named : ∀ n i, (n, i) ∈ d.names → i ∈ d.logs → logName n
  marked : ∀ n i, (n, i) ∈ d.names → i ∈ d.logs → archival n → i ∈ d.archived
  active : ∀ n i, (n, i) ∈ d.names → n = nmCurrent ∨ n = nmPrevious → i ∈ d.logs
  apart : ∀ i, (nmCurrent, i) ∈ d.names → (nmPrevious, i) ∉ d.names
  alone : ∀ z n, (nmZipped, z) ∈ d.names → (n, z) ∈ d.names → n = nmZipped
  /-- every log is under some name, unless it was pruned -/
  kept : ∀ i ∈ d.logs, d.Under logName i ∨ d.Pruned i
  unlost : d.lost = []

variable {d : Disk} {n : Name} {i j : ℕ} {P : Name → Bool}

theorem Under.weaken {Q : Name → Bool} (h : d.Under P i) (hpq : ∀ n, P n → Q n) : d.Under Q i := by
  obtain ⟨e, he, hp, hc, hb⟩ := h
  exact ⟨e, he, hpq _ hp, hc, hb⟩

theorem logName_of_archival {n : Name} (h : archival n) : logName n := by
  simp [logName, h]

theorem not_logName_zipped : logName nmZipped = false := rfl

theorem ne_of_archival {n m : Name} (h : archival n) (hm : archival m = false) : n ≠ m := by
  rintro rfl
  simp [h] at hm

theorem Backed.kept (h : d.Backed i) : d.Under logName i ∨ d.Pruned i :=
  h.2.imp_left fun hu => hu.weaken fun _ => logName_of_archival

theorem Ok.zipped_not_log {z : ℕ} (h : Ok d) (hz : (nmZipped, z) ∈ d.names) : z ∉ d.logs := by
  intro hl
  have hn := h.named _ _ hz hl
  simp [not_logName_zipped] at hn

/-- What `rename()` and `unlink()` take from a log that has been archived, or that
keeps another name, is no loss. -/
theorem leave_unlost {names : Names Name} (h : Ok d)
    (hk : ∀ i ∈ d.logs, (∃ n, (n, i) ∈ d.names) → i ∈ d.archived ∨ ∃ n, (n, i) ∈ names) :
    (d.leave names).lost = [] := by
  simp only [leave, h.unlost, List.nil_append, List.filter_eq_nil_iff]
  intro i hi hlost
  simp only [Bool.and_eq_true, decide_eq_true_eq] at hlost
  obtain ⟨⟨hpos, hzero⟩, harch⟩ := hlost
  rcases hk i hi (nlink_pos.mp hpos) with ha | hn
  · simp [ha] at harch
  · have hpos' := nlink_pos.mpr hn
    omega

/-- What stands under a name, and what it holds, stays there. -/
theorem Under.transfer (d' : Disk) (hu : d.Under P i)
    (he : ∀ e ∈ d.names, P e.1 → d.copyOf e.2 = i → e ∈ d'.names ∧
      d'.copyOf e.2 = d.copyOf e.2 ∧ (d'.file e.2).bytes = (d.file e.2).bytes)
    (hi : (d'.file i).bytes = (d.file i).bytes) : d'.Under P i := by
  obtain ⟨e, hmem, hp, hc, hb⟩ := hu
  obtain ⟨hmem', hc', hb'⟩ := he e hmem hp hc
  exact ⟨e, hmem', hp, hc'.trans hc, hb'.trans (hb.trans hi.symm)⟩

/-- Another name has the same bytes of the same log. -/
def Spare (P : Name → Bool) (d : Disk) (n : Name) : Prop :=
  ∀ j, (n, j) ∈ d.names → P n → ∃ e ∈ d.names, e.1 ≠ n ∧ P e.1 ∧ d.copyOf e.2 = d.copyOf j ∧
    (d.file e.2).bytes = (d.file j).bytes

theorem Spare.of_false (h : P n = false) : d.Spare P n := by
  intro j _ hp
  simp [h] at hp

theorem Under.unlink (hu : d.Under P i) (hs : d.Spare P n) : (d.unlink n).Under P i := by
  obtain ⟨⟨m, j⟩, hmem, hp, hc, hb⟩ := hu
  by_cases hm : m = n
  · subst hm
    obtain ⟨⟨m', j'⟩, hmem', hne, hp', hc', hb'⟩ := hs j hmem hp
    exact ⟨(m', j'), mem_unlink.mpr ⟨hmem', hne⟩, hp', hc'.trans hc, hb'.trans hb⟩
  · exact ⟨(m, j), mem_unlink.mpr ⟨hmem, hm⟩, hp, hc, hb⟩

theorem Backed.unlink (hb : d.Backed i) (hs : d.Spare archival n) : (d.unlink n).Backed i :=
  ⟨hb.1, hb.2.imp_left fun hu => hu.unlink hs⟩

theorem Recoverable.unlink (hr : d.Recoverable) (hs : d.Spare archival n) :
    (d.unlink n).Recoverable :=
  fun i hi => (hr i (mem_unlink.mp hi).1).unlink hs

/-- `unlink()` of a name that no log needs. -/
theorem Ok.unlink (h : Ok d) (hk : ∀ i ∈ d.logs, (d.unlink n).Under logName i ∨ d.Pruned i)
    (ha : ∀ i ∈ d.logs, (n, i) ∈ d.names → i ∈ d.archived) : Ok (d.unlink n) where
  single := single_unlink h.single n
  fresh m i hm := h.fresh m i (mem_unlink.mp hm).1
  created := h.created
  plain := h.plain
  named m i hm := h.named m i (mem_unlink.mp hm).1
  marked m i hm := h.marked m i (mem_unlink.mp hm).1
  active m i hm := h.active m i (mem_unlink.mp hm).1
  apart i hc hp := h.apart i (mem_unlink.mp hc).1 (mem_unlink.mp hp).1
  alone z m hz hm := h.alone z m (mem_unlink.mp hz).1 (mem_unlink.mp hm).1
  kept := hk
  unlost := by
    apply leave_unlost h
    rintro i hi ⟨m, hm⟩
    by_cases hmn : m = n
    · exact .inl (ha i hi (hmn ▸ hm))
    · exact .inr ⟨m, mem_unlink.mpr ⟨hm, hmn⟩⟩

theorem Ok.unlink_spare (h : Ok d) (hs : d.Spare logName n)
    (ha : ∀ i ∈ d.logs, (n, i) ∈ d.names → i ∈ d.archived) : Ok (d.unlink n) :=
  h.unlink (fun i hi => (h.kept i hi).imp_left fun hu => hu.unlink hs) ha

/-- `unlink()` of `current` or `previous` in `tinylog_keep()`, once it is archived. -/
theorem Ok.unlink_backed (h : Ok d) (hn : n = nmCurrent ∨ n = nmPrevious)
    (hb : ∀ i, (n, i) ∈ d.names → d.Backed i) : Ok (d.unlink n) := by
  have hna : archival n = false := by
    rcases hn with rfl | rfl <;> rfl
  refine h.unlink (fun i hi => ?_) fun i _ hi => (hb i hi).1
  rcases h.kept i hi with ⟨⟨m, j⟩, hmem, hp, hc, hbytes⟩ | hpr
  · by_cases hm : m = n
    · subst hm
      -- the log itself stood there
      have hj := h.plain j (h.active m j hmem hn)
      obtain rfl : j = i := hj.symm.trans hc
      exact ((hb j hmem).unlink (.of_false hna)).kept
    · exact .inl ⟨(m, j), mem_unlink.mpr ⟨hmem, hm⟩, hp, hc, hbytes⟩
  · exact .inr hpr

/-- The archive `n` and its zipped twin hold the same. -/
def Twin (d : Disk) (n : Name) : Prop :=
  ∃ i z, (n, i) ∈ d.names ∧ (n ++ zipExt, z) ∈ d.names ∧ d.copyOf z = d.copyOf i ∧
    (d.file z).bytes = (d.file i).bytes

theorem ne_zipExt (n : Name) : n ++ zipExt ≠ n := by
  intro h
  have hlen := congrArg List.length h
  simp [zipExt] at hlen

theorem archival_zipExt (h : archival n) : archival (n ++ zipExt) := by
  cases n with
  | nil => simp [archival] at h
  | cons a n => simpa [archival] using h

theorem Twin.spare (ht : d.Twin n) (hs : Single d.names) (hp : P n) (hpz : P (n ++ zipExt)) :
    d.Spare P n ∧ d.Spare P (n ++ zipExt) := by
  obtain ⟨i, z, hi, hz, hc, hb⟩ := ht
  refine ⟨fun j hj _ => ?_, fun j hj _ => ?_⟩
  · obtain rfl := hs.eq hi hj
    exact ⟨_, hz, ne_zipExt n, hpz, hc, hb⟩
  · obtain rfl := hs.eq hz hj
    exact ⟨_, hi, (ne_zipExt n).symm, hp, hc.symm, hb.symm⟩

/-- A log gets an archive name. -/
theorem Ok.archive (h : Ok d) (hn : archival n) (hfree : lookup d.names n = none)
    (hi : i ∈ d.logs) : Ok (d.archive n i) := by
  have hne : ∀ m, archival m = false → m ≠ n := fun m hm => (ne_of_archival hn hm).symm
  refine
    { single := single_link h.single hfree i
      fresh := fun m j hm => ?_
      created := h.created
      plain := h.plain
      named := fun m j hm hj => ?_
      marked := fun m j hm hj ha => ?_
      active := fun m j hm hmc => ?_
      apart := fun j hc hp => ?_
      alone := fun z m hz hm => ?_
      kept := fun j hj => ?_
      unlost := h.unlost }
  · rcases mem_link.mp hm with ⟨rfl, rfl⟩ | hm
    · exact h.created _ hi
    · exact h.fresh m j hm
  · rcases mem_link.mp hm with ⟨rfl, rfl⟩ | hm
    · exact logName_of_archival hn
    · exact h.named m j hm hj
  · rcases mem_link.mp hm with ⟨rfl, rfl⟩ | hm
    · exact List.mem_cons_self
    · exact List.mem_cons_of_mem _ (h.marked m j hm hj ha)
  · rcases mem_link.mp hm with ⟨rfl, rfl⟩ | hm
    · exact hi
    · exact h.active m j hm hmc
  · rcases mem_link.mp hc with ⟨hc, -⟩ | hc
    · exact hne nmCurrent rfl hc
    rcases mem_link.mp hp with ⟨hp, -⟩ | hp
    · exact hne nmPrevious rfl hp
    · exact h.apart j hc hp
  · rcases mem_link.mp hz with ⟨hz', -⟩ | hz'
    · exact absurd hz' (hne nmZipped rfl)
    rcases mem_link.mp hm with ⟨-, rfl⟩ | hm'
    · exact absurd hi (h.zipped_not_log hz')
    · exact h.alone z m hz' hm'
  · refine (h.kept j hj).imp_left fun hu => hu.transfer _ (fun e he _ _ => ?_) rfl
    exact ⟨List.mem_cons_of_mem _ he, rfl, rfl⟩

theorem Backed.archive (hb : d.Backed j) (n : Name) (i : ℕ) : (d.archive n i).Backed j :=
  ⟨List.mem_cons_of_mem _ hb.1, hb.2.imp_left fun hu =>
    hu.transfer _ (fun _ he _ _ => ⟨List.mem_cons_of_mem _ he, rfl, rfl⟩) rfl⟩

theorem archive_backed (h : Ok d) (hn : archival n) (hi : i ∈ d.logs) : (d.archive n i).Backed i :=
  ⟨List.mem_cons_self, .inl ⟨(n, i), List.mem_cons_self, hn, h.plain i hi, rfl⟩⟩

theorem mem_renameCurrent {m : Name} (h : Ok d) (hi : (nmCurrent, i) ∈ d.names) :
    (m, j) ∈ (d.rename nmCurrent nmPrevious).names ↔
      (m = nmPrevious ∧ j = i) ∨ ((m, j) ∈ d.names ∧ m ≠ nmPrevious ∧ m ≠ nmCurrent) :=
  mem_rename h.single hi (h.apart i hi)

/-- A log that loses the name `previous` has its archive. -/
theorem renameCurrent_kept (h : Ok d) (hr : d.Recoverable) (hi : (nmCurrent, i) ∈ d.names)
    (hj : j ∈ d.logs) : (d.rename nmCurrent nmPrevious).Under logName j ∨ d.Pruned j := by
  -- the archives are where they were
  have harch : ∀ k, d.Under archival k → (d.rename nmCurrent nmPrevious).Under logName k := by
    intro k hu
    refine (hu.transfer (d.rename nmCurrent nmPrevious) (fun e he ha _ => ?_) rfl).weaken
      fun _ => logName_of_archival
    have hne : ∀ m, archival m = false → e.1 ≠ m := fun m => ne_of_archival ha
    exact ⟨(mem_renameCurrent h hi).mpr (.inr ⟨he, hne _ rfl, hne _ rfl⟩), rfl, rfl⟩
  rcases h.kept j hj with ⟨⟨m, k⟩, hm, hp, hc, hb⟩ | hpr
  · by_cases hcur : m = nmCurrent
    · subst hcur
      obtain rfl := h.single.eq hi hm
      exact .inl ⟨(nmPrevious, i), (mem_renameCurrent h hi).mpr (.inl ⟨rfl, rfl⟩), rfl, hc, hb⟩
    by_cases hpre : m = nmPrevious
    · subst hpre
      obtain rfl : k = j := (h.plain k (h.active _ _ hm (.inr rfl))).symm.trans hc
      exact (hr k hm).2.imp_left (harch k)
    · exact .inl ⟨(m, k), (mem_renameCurrent h hi).mpr (.inr ⟨hm, hpre, hcur⟩), hp, hc, hb⟩
  · exact .inr hpr

theorem renameCurrent_unlost (h : Ok d) (hr : d.Recoverable) (hi : (nmCurrent, i) ∈ d.names) :
    (d.rename nmCurrent nmPrevious).lost = [] := by
  have hmem := fun m j => @mem_renameCurrent d i j m h hi
  apply leave_unlost h
  rintro j hj ⟨m, hm⟩
  by_cases hcur : m = nmCurrent
  · subst hcur
    obtain rfl := h.single.eq hi hm
    exact .inr ⟨nmPrevious, (hmem _ _).mpr (.inl ⟨rfl, rfl⟩)⟩
  by_cases hpre : m = nmPrevious
  · subst hpre
    exact .inl (hr j hm).1
  · exact .inr ⟨m, (hmem _ _).mpr (.inr ⟨hm, hpre, hcur⟩)⟩

/-- `tinylog_rotate()` renames `current`: a `previous` that is replaced was archived. -/
theorem Ok.renameCurrent (h : Ok d) (hr : d.Recoverable) (hi : (nmCurrent, i) ∈ d.names) :
    Ok (d.rename nmCurrent nmPrevious) := by
  have hlog := h.active _ _ hi (.inl rfl)
  have hmem := fun m j => @mem_renameCurrent d i j m h hi
  refine
    { single := single_rename h.single _ _
      fresh := fun m j hm => ?_
      created := h.created
      plain := h.plain
      named := fun m j hm hj => ?_
      marked := fun m j hm hj ha => ?_
      active := fun m j hm hmc => ?_
      apart := fun j hc _ => ?_
      alone := fun z m hz hm => ?_
      kept := fun j hj => renameCurrent_kept h hr hi hj
      unlost := renameCurrent_unlost h hr hi }
  · rcases (hmem m j).mp hm with ⟨-, rfl⟩ | ⟨hm, -⟩
    · exact h.created _ hlog
    · exact h.fresh m j hm
  · rcases (hmem m j).mp hm with ⟨rfl, -⟩ | ⟨hm, -⟩
    · rfl
    · exact h.named m j hm hj
  · rcases (hmem m j).mp hm with ⟨rfl, -⟩ | ⟨hm, -⟩
    · exact absurd ha (by decide)
    · exact h.marked m j hm hj ha
  · rcases (hmem m j).mp hm with ⟨-, rfl⟩ | ⟨-, hp, hc⟩
    · exact hlog
    · exact absurd hmc (not_or.mpr ⟨hc, hp⟩)
  · rcases (hmem _ j).mp hc with ⟨hc, -⟩ | ⟨-, -, hc⟩
    · exact absurd hc (by decide)
    · exact absurd rfl hc
  · rcases (hmem _ z).mp hz with ⟨hz, -⟩ | ⟨hz, -⟩
    · exact absurd hz (by decide)
    rcases (hmem m z).mp hm with ⟨rfl, rfl⟩ | ⟨hm, -⟩
    · exact absurd hlog (h.zipped_not_log hz)
    · exact h.alone z m hz hm

/-- Operations that leave the names and the logs alone, and all bytes but those of
one file that is not a log. -/
theorem Ok.refill {d' : Disk} {z : ℕ} (h : Ok d) (hz : (nmZipped, z) ∈ d.names)
    (hn : d'.names = d.names) (hlogs : d'.logs = d.logs) (harch : d'.archived = d.archived)
    (hnext : d'.next = d.next) (hlen : d'.prunedLen = d.prunedLen) (hlost : d'.lost = d.lost)
    (hcopy : ∀ j, j ≠ z → d'.copyOf j = d.copyOf j)
    (hfile : ∀ j, j ≠ z → (d'.file j).bytes = (d.file j).bytes) :
    Ok d' ∧ ∀ i ∈ d.logs, d.Backed i → d'.Backed i := by
  have hne : ∀ i ∈ d.logs, i ≠ z := fun i hi h' => h.zipped_not_log hz (h' ▸ hi)
  have hunder : ∀ (P : Name → Bool) i, P nmZipped = false → i ∈ d.logs → d.Under P i →
      d'.Under P i := by
    intro P i hp hi hu
    refine hu.transfer _ (fun e he hpe _ => ?_) (hfile i (hne i hi))
    have hez : e.2 ≠ z := by
      intro heq
      have hname := h.alone z e.1 hz (heq ▸ he)
      simp [hname, hp] at hpe
    exact ⟨hn ▸ he, hcopy _ hez, hfile _ hez⟩
  have hpruned : ∀ i ∈ d.logs, d.Pruned i → d'.Pruned i := by
    intro i hi hp
    rw [Pruned, hlen, hfile i (hne i hi)]
    exact hp
  refine ⟨?_, fun i hi hb => ⟨harch ▸ hb.1, hb.2.imp (hunder _ i rfl hi) (hpruned i hi)⟩⟩
  exact
    { single := hn ▸ h.single
      fresh := by rw [hn, hnext]; exact h.fresh
      created := by rw [hlogs, hnext]; exact h.created
      plain := fun i hi => by
        rw [hlogs] at hi
        rw [hcopy i (hne i hi), h.plain i hi]
      named := by rw [hn, hlogs]; exact h.named
      marked := by rw [hn, hlogs, harch]; exact h.marked
      active := by rw [hn, hlogs]; exact h.active
      apart := by rw [hn]; exact h.apart
      alone := by rw [hn]; exact h.alone
      kept := fun i hi => by
        rw [hlogs] at hi
        exact (h.kept i hi).imp (hunder _ i rfl hi) (hpruned i hi)
      unlost := hlost ▸ h.unlost }

theorem Ok.fill {z : ℕ} (h : Ok d) (hz : (nmZipped, z) ∈ d.names) (i : ℕ) (data : List UInt8) :
    Ok (d.fill z i data) ∧ ∀ j ∈ d.logs, d.Backed j → (d.fill z i data).Backed j :=
  h.refill hz rfl rfl rfl rfl rfl rfl (fun j hj => by simp [Disk.fill, hj])
    fun j hj => by simp [Disk.fill, hj]

/-- A file that is created changes nothing about the others. -/
theorem Under.create {d' : Disk} (h : Ok d) (hu : d.Under P i) (hi : i ∈ d.logs)
    (hsub : ∀ e ∈ d.names, e ∈ d'.names) (hcopy : ∀ j, j < d.next → d'.copyOf j = d.copyOf j)
    (hfile : ∀ j, j < d.next → d'.file j = d.file j) : d'.Under P i :=
  hu.transfer _ (fun e he _ _ => ⟨hsub e he, hcopy _ (h.fresh e.1 e.2 he),
    congrArg File.bytes (hfile _ (h.fresh e.1 e.2 he))⟩) (congrArg File.bytes (hfile i (h.created i hi)))

theorem Pruned.create {d' : Disk} (h : Ok d) (hp : d.Pruned i) (hi : i ∈ d.logs)
    (hfile : ∀ j, j < d.next → d'.file j = d.file j) (hlen : d'.prunedLen = d.prunedLen) :
    d'.Pruned i := by
  rw [Pruned, hfile i (h.created i hi), hlen]
  exact hp

theorem update_of_lt {α : Type} {f : ℕ → α} {k m : ℕ} {a : α} (h : k < m) :
    Function.update f m a k = f k :=
  Function.update_of_ne (Nat.ne_of_lt h) _ _

theorem create_under (h : Ok d) (n : Name) (copy : ℕ) (hi : i ∈ d.logs) (hu : d.Under P i) :
    (d.create n copy).Under P i :=
  hu.create h hi (fun _ he => List.mem_cons_of_mem _ he) (fun _ hj => update_of_lt hj)
    fun _ hj => update_of_lt hj

theorem create_pruned (h : Ok d) (n : Name) (copy : ℕ) (hi : i ∈ d.logs) (hp : d.Pruned i) :
    (d.create n copy).Pruned i :=
  hp.create h hi (fun _ hj => update_of_lt hj) rfl

theorem create_backed (h : Ok d) (n : Name) (copy : ℕ) (hi : i ∈ d.logs) (hb : d.Backed i) :
    (d.create n copy).Backed i :=
  ⟨hb.1, hb.2.imp (create_under h n copy hi) (create_pruned h n copy hi)⟩

/-- gzip gets a new "zipped". -/
theorem Ok.create_zipped (h : Ok d) (hfree : lookup d.names nmZipped = none) (copy : ℕ) :
    Ok (d.create nmZipped copy) := by
  have hnew : ∀ m, (m, d.next) ∉ d.names := fun m hm => Nat.lt_irrefl _ (h.fresh m _ hm)
  have hnlog : d.next ∉ d.logs := fun hl => Nat.lt_irrefl _ (h.created _ hl)
  refine
    { single := single_link h.single hfree _
      fresh := fun m j hm => ?_
      created := fun j hj => Nat.lt_succ_of_lt (h.created j hj)
      plain := fun j hj => (update_of_lt (h.created j hj)).trans (h.plain j hj)
      named := fun m j hm hj => ?_
      marked := fun m j hm hj ha => ?_
      active := fun m j hm hmc => ?_
      apart := fun j hc hp => ?_
      alone := fun z m hz hm => ?_
      kept := fun j hj => (h.kept j hj).imp (create_under h _ copy hj) (create_pruned h _ copy hj)
      unlost := h.unlost }
  · rcases mem_link.mp hm with ⟨-, rfl⟩ | hm
    · exact Nat.lt_succ_self _
    · exact Nat.lt_succ_of_lt (h.fresh m j hm)
  · rcases mem_link.mp hm with ⟨-, rfl⟩ | hm
    · exact absurd hj hnlog
    · exact h.named m j hm hj
  · rcases mem_link.mp hm with ⟨-, rfl⟩ | hm
    · exact absurd hj hnlog
    · exact h.marked m j hm hj ha
  · rcases mem_link.mp hm with ⟨rfl, -⟩ | hm
    · exact absurd hmc (by decide)
    · exact h.active m j hm hmc
  · rcases mem_link.mp hc with ⟨hc, -⟩ | hc
    · exact absurd hc (by decide)
    rcases mem_link.mp hp with ⟨hp, -⟩ | hp
    · exact absurd hp (by decide)
    · exact h.apart j hc hp
  · rcases mem_link.mp hz with ⟨-, rfl⟩ | hz'
    · rcases mem_link.mp hm with ⟨rfl, -⟩ | hm'
      · rfl
      · exact absurd hm' (hnew m)
    · exact absurd hz' (lookup_none hfree)

theorem Ok.openZipped (h : Ok d) (i : ℕ) :
    Ok (d.openZipped i) ∧ ∀ j ∈ d.logs, d.Backed j → (d.openZipped i).Backed j := by
  unfold Disk.openZipped
  split
  · next z hz => exact h.fill (lookup_mem hz) i []
  · next hfree =>
    exact ⟨h.create_zipped hfree _, fun j hj hb => create_backed h nmZipped _ hj hb⟩

theorem previous_of_link {k : ℕ} (hj : (nmPrevious, j) ∈ LinkDir.link d.names nmCurrent k) :
    (nmPrevious, j) ∈ d.names := by
  rcases mem_link.mp hj with ⟨hp, -⟩ | hj
  · exact absurd hp (by decide)
  · exact hj

/-- A `current` that is created is a new log. -/
theorem Ok.create_current (h : Ok d) (hfree : lookup d.names nmCurrent = none) :
    Ok { d.create nmCurrent d.next with logs := d.next :: d.logs } := by
  have hnew : ∀ m, (m, d.next) ∉ d.names := fun m hm => Nat.lt_irrefl _ (h.fresh m _ hm)
  refine
    { single := single_link h.single hfree _
      fresh := fun m j hm => ?_
      created := fun j hj => ?_
      plain := fun j hj => ?_
      named := fun m j hm hj => ?_
      marked := fun m j hm hj ha => ?_
      active := fun m j hm hmc => ?_
      apart := fun j hc hp => ?_
      alone := fun z m hz hm => ?_
      kept := fun j hj => ?_
      unlost := h.unlost }
  · rcases mem_link.mp hm with ⟨-, rfl⟩ | hm
    · exact Nat.lt_succ_self _
    · exact Nat.lt_succ_of_lt (h.fresh m j hm)
  · rcases List.mem_cons.mp hj with rfl | hj
    · exact Nat.lt_succ_self _
    · exact Nat.lt_succ_of_lt (h.created j hj)
  · rcases List.mem_cons.mp hj with rfl | hj
    · exact Function.update_self _ _ _
    · exact (update_of_lt (h.created j hj)).trans (h.plain j hj)
  · rcases mem_link.mp hm with ⟨rfl, -⟩ | hm
    · rfl
    rcases List.mem_cons.mp hj with rfl | hj
    · exact absurd hm (hnew m)
    · exact h.named m j hm hj
  · rcases mem_link.mp hm with ⟨rfl, -⟩ | hm
    · exact absurd ha (by decide)
    rcases List.mem_cons.mp hj with rfl | hj
    · exact absurd hm (hnew m)
    · exact h.marked m j hm hj ha
  · rcases mem_link.mp hm with ⟨-, rfl⟩ | hm
    · exact List.mem_cons_self
    · exact List.mem_cons_of_mem _ (h.active m j hm hmc)
  · have hp' := previous_of_link hp
    rcases mem_link.mp hc with ⟨-, rfl⟩ | hc
    · exact hnew _ hp'
    · exact h.apart j hc hp'
  · rcases mem_link.mp hz with ⟨hz, -⟩ | hz'
    · exact absurd hz (by decide)
    rcases mem_link.mp hm with ⟨-, rfl⟩ | hm'
    · exact absurd hz' (hnew _)
    · exact h.alone z m hz' hm'
  · rcases List.mem_cons.mp hj with rfl | hj
    · exact .inl ⟨(nmCurrent, d.next), List.mem_cons_self, rfl, Function.update_self _ _ _, rfl⟩
    · exact (h.kept j hj).imp (create_under h nmCurrent d.next hj) (create_pruned h nmCurrent d.next hj)

/-- `open()` of `current`: the log is under its name. -/
theorem Ok.openCurrent (h : Ok d) :
    Ok d.openCurrent.2 ∧ (nmCurrent, d.openCurrent.1) ∈ d.openCurrent.2.names ∧
      (∀ j, (nmPrevious, j) ∈ d.openCurrent.2.names → (nmPrevious, j) ∈ d.names) ∧
      ∀ j ∈ d.logs, d.Backed j → d.openCurrent.2.Backed j := by
  unfold Disk.openCurrent
  split
  · next i hi =>
    have hmem := lookup_mem hi
    have hlog := h.active _ _ hmem (.inl rfl)
    have hlogs : ∀ j, j ∈ i :: d.logs → j ∈ d.logs := by
      intro j hj
      rcases List.mem_cons.mp hj with rfl | hj
      · exact hlog
      · exact hj
    refine ⟨?_, hmem, fun j hj => hj, fun j _ hb => hb⟩
    exact
      { single := h.single
        fresh := h.fresh
        created := fun j hj => h.created j (hlogs j hj)
        plain := fun j hj => h.plain j (hlogs j hj)
        named := fun m j hm hj => h.named m j hm (hlogs j hj)
        marked := fun m j hm hj => h.marked m j hm (hlogs j hj)
        active := fun m j hm hmc => List.mem_cons_of_mem _ (h.active m j hm hmc)
        apart := h.apart
        alone := h.alone
        kept := fun j hj => h.kept j (hlogs j hj)
        unlost := h.unlost }
  · next hfree =>
    exact ⟨h.create_current hfree, List.mem_cons_self, fun j hj => previous_of_link hj,
      fun j hj hb => create_backed h nmCurrent d.next hj hb⟩

/-- Only the mode of a file changes. -/
theorem chmod_bytes (d : Disk) (k : ℕ) (clean : Bool) (j : ℕ) :
    ((d.chmod k clean).file j).bytes = (d.file j).bytes := by
  by_cases hj : j = k
  · subst hj
    simp [Disk.chmod]
  · simp [Disk.chmod, hj]

theorem chmod_under (hu : d.Under P i) (k : ℕ) (clean : Bool) : (d.chmod k clean).Under P i :=
  hu.transfer _ (fun _ he _ _ => ⟨he, rfl, chmod_bytes d k clean _⟩) (chmod_bytes d k clean i)

theorem chmod_pruned (hp : d.Pruned i) (k : ℕ) (clean : Bool) : (d.chmod k clean).Pruned i := by
  rw [Pruned, chmod_bytes]
  exact hp

theorem Backed.chmod (hb : d.Backed i) (k : ℕ) (clean : Bool) : (d.chmod k clean).Backed i :=
  ⟨hb.1, hb.2.imp (fun hu => chmod_under hu k clean) fun hp => chmod_pruned hp k clean⟩

theorem Ok.chmod (h : Ok d) (k : ℕ) (clean : Bool) : Ok (d.chmod k clean) where
  single := h.single
  fresh := h.fresh
  created := h.created
  plain := h.plain
  named := h.named
  marked := h.marked
  active := h.active
  apart := h.apart
  alone := h.alone
  kept j hj := (h.kept j hj).imp (fun hu => chmod_under hu k clean) fun hp => chmod_pruned hp k clean
  unlost := h.unlost

theorem append_bytes {k : ℕ} (hj : j ≠ k) (data : List UInt8) :
    (d.append k data).file j = d.file j := Function.update_of_ne hj _ _

/-- No file but the one that is written to changes. -/
theorem append_under {k : ℕ} (h : Ok d) (hk : k ∈ d.logs) (hi : i ≠ k) (data : List UInt8)
    (hu : d.Under P i) : (d.append k data).Under P i := by
  refine hu.transfer _ (fun e he _ hc => ?_) (congrArg File.bytes (append_bytes hi data))
  have hne : e.2 ≠ k := by
    intro heq
    rw [heq, h.plain k hk] at hc
    exact hi hc.symm
  exact ⟨he, rfl, congrArg File.bytes (append_bytes hne data)⟩

theorem append_pruned {k : ℕ} (hi : i ≠ k) (data : List UInt8) (hp : d.Pruned i) :
    (d.append k data).Pruned i := by
  rw [Pruned, append_bytes hi]
  exact hp

/-- `write()` to `current` -/
theorem Ok.append {k : ℕ} (h : Ok d) (hk : (nmCurrent, k) ∈ d.names) (data : List UInt8) :
    Ok (d.append k data) ∧ ∀ j, j ≠ k → d.Backed j → (d.append k data).Backed j := by
  have hlog := h.active _ _ hk (.inl rfl)
  refine ⟨?_, fun j hj hb => ⟨hb.1, hb.2.imp (append_under h hlog hj data) (append_pruned hj data)⟩⟩
  exact
    { single := h.single
      fresh := h.fresh
      created := h.created
      plain := h.plain
      named := h.named
      marked := h.marked
      active := h.active
      apart := h.apart
      alone := h.alone
      kept := fun j hj => by
        by_cases hjk : j = k
        · subst hjk
          exact .inl ⟨_, hk, rfl, h.plain j hj, rfl⟩
        · exact (h.kept j hj).imp (append_under h hlog hjk data) (append_pruned hjk data)
      unlost := h.unlost }

theorem Pruned.prune (hp : d.Pruned i) (n : Name) : (d.prune n).Pruned i := by
  unfold Disk.prune
  split
  · exact hp
  · next j _ =>
    by_cases hi : i = d.copyOf j
    · subst hi
      refine Nat.le_trans hp ?_
      simp
    · simpa [Pruned, Disk.unlink, leave, hi] using hp

/-- What stood under the name that is pruned counts as pruned. -/
theorem Under.prune (h : Ok d) (hu : d.Under P i) (n : Name) :
    (d.prune n).Under P i ∨ (d.prune n).Pruned i := by
  unfold Disk.prune
  split
  · exact .inl hu
  · next j hj =>
    obtain ⟨⟨m, k⟩, hmem, hp, hc, hb⟩ := hu
    by_cases hm : m = n
    · subst hm
      have hjk : j = k := h.single.eq (lookup_mem hj) hmem
      subst hjk
      right
      subst hc
      simp [Pruned, Disk.unlink, leave, ← hb]
    · exact .inl ⟨(m, k), mem_unlink.mpr ⟨hmem, hm⟩, hp, hc, hb⟩

theorem Backed.prune (h : Ok d) (hb : d.Backed i) (n : Name) : (d.prune n).Backed i := by
  refine ⟨?_, hb.2.elim (fun hu => hu.prune h n) fun hp => .inr (hp.prune n)⟩
  unfold Disk.prune
  split
  · exact hb.1
  · exact hb.1

theorem prune_names (d : Disk) (n : Name) :
    (d.prune n).names = LinkDir.unlink d.names n ∧ (d.prune n).logs = d.logs ∧
      (d.prune n).next = d.next ∧ (d.prune n).copyOf = d.copyOf ∧
      (d.prune n).archived = d.archived := by
  unfold Disk.prune
  split
  · next hn =>
    refine ⟨(List.filter_eq_self.mpr fun ⟨m, k⟩ he => ?_).symm, rfl, rfl, rfl, rfl⟩
    simp only [decide_eq_true_eq]
    rintro rfl
    exact lookup_none hn he
  · exact ⟨rfl, rfl, rfl, rfl, rfl⟩

theorem prune_unlost (h : Ok d) (hn : archival n) : (d.prune n).lost = [] := by
  unfold Disk.prune
  split
  · exact h.unlost
  · apply leave_unlost h
    rintro i hi ⟨m, hm⟩
    by_cases hmn : m = n
    · exact .inl (h.marked m i hm hi (hmn ▸ hn))
    · exact .inr ⟨m, mem_unlink.mpr ⟨hm, hmn⟩⟩

theorem Ok.prune (h : Ok d) (hn : archival n) : Ok (d.prune n) := by
  obtain ⟨hnames, hlogs, hnext, hcopy, harch⟩ := prune_names d n
  have hsub : ∀ m i, (m, i) ∈ (d.prune n).names → (m, i) ∈ d.names := by
    intro m i hm
    rw [hnames] at hm
    exact (mem_unlink.mp hm).1
  exact
    { single := hnames ▸ single_unlink h.single n
      fresh := fun m i hm => hnext ▸ h.fresh m i (hsub m i hm)
      created := fun i hi => hnext ▸ h.created i (hlogs ▸ hi)
      plain := fun i hi => hcopy ▸ h.plain i (hlogs ▸ hi)
      named := fun m i hm hi => h.named m i (hsub m i hm) (hlogs ▸ hi)
      marked := fun m i hm hi ha => harch ▸ h.marked m i (hsub m i hm) (hlogs ▸ hi) ha
      active := fun m i hm hmc => hlogs ▸ h.active m i (hsub m i hm) hmc
      apart := fun i hc hp => h.apart i (hsub _ _ hc) (hsub _ _ hp)
      alone := fun z m hz hm => h.alone z m (hsub _ _ hz) (hsub _ _ hm)
      kept := fun i hi => (h.kept i (hlogs ▸ hi)).elim (fun hu => hu.prune h n) fun hp => .inr (hp.prune n)
      unlost := prune_unlost h hn }

/-- "zipped" becomes the twin of the archive `n`. -/
theorem Ok.renameZipped (h : Ok d) (hn : archival n) {z : ℕ} (hz : (nmZipped, z) ∈ d.names)
    (hfree : lookup d.names (n ++ zipExt) = none) :
    Ok (d.rename nmZipped (n ++ zipExt)) ∧
      ∀ j, d.Backed j → (d.rename nmZipped (n ++ zipExt)).Backed j := by
  have hgz := archival_zipExt hn
  have hne : ∀ m, archival m = false → m ≠ n ++ zipExt := fun m hm => (ne_of_archival hgz hm).symm
  have hmem : ∀ m j, (m, j) ∈ (d.rename nmZipped (n ++ zipExt)).names ↔
      (m = n ++ zipExt ∧ j = z) ∨ ((m, j) ∈ d.names ∧ m ≠ n ++ zipExt ∧ m ≠ nmZipped) :=
    fun m j => mem_rename h.single hz (lookup_none hfree)
  have hnlog := h.zipped_not_log hz
  have hunder : ∀ (P : Name → Bool) i, P nmZipped = false → d.Under P i →
      (d.rename nmZipped (n ++ zipExt)).Under P i := by
    intro P i hp hu
    refine hu.transfer (d.rename nmZipped (n ++ zipExt)) (fun ⟨m, k⟩ he hpe _ => ⟨?_, rfl, rfl⟩) rfl
    refine (hmem _ _).mpr (.inr ⟨he, fun heq => ?_, fun heq => ?_⟩)
    · exact lookup_none hfree (heq ▸ he)
    · simp [heq, hp] at hpe
  refine ⟨?_, fun j hb => ⟨hb.1, hb.2.imp_left (hunder _ j rfl)⟩⟩
  refine
    { single := single_rename h.single _ _
      fresh := fun m j hm => ?_
      created := h.created
      plain := h.plain
      named := fun m j hm hj => ?_
      marked := fun m j hm hj ha => ?_
      active := fun m j hm hmc => ?_
      apart := fun j hc hp => ?_
      alone := fun y m hy _ => ?_
      kept := fun j hj => (h.kept j hj).imp_left (hunder _ j rfl)
      unlost := ?_ }
  · rcases (hmem m j).mp hm with ⟨-, rfl⟩ | ⟨hm, -⟩
    · exact h.fresh _ _ hz
    · exact h.fresh m j hm
  · rcases (hmem m j).mp hm with ⟨-, rfl⟩ | ⟨hm, -⟩
    · exact absurd hj hnlog
    · exact h.named m j hm hj
  · rcases (hmem m j).mp hm with ⟨-, rfl⟩ | ⟨hm, -⟩
    · exact absurd hj hnlog
    · exact h.marked m j hm hj ha
  · rcases (hmem m j).mp hm with ⟨rfl, -⟩ | ⟨hm, -⟩
    · rcases hmc with hmc | hmc
      · exact absurd hmc.symm (hne _ rfl)
      · exact absurd hmc.symm (hne _ rfl)
    · exact h.active m j hm hmc
  · rcases (hmem _ j).mp hc with ⟨hc, -⟩ | ⟨hc, -⟩
    · exact hne _ rfl hc
    rcases (hmem _ j).mp hp with ⟨hp, -⟩ | ⟨hp, -⟩
    · exact hne _ rfl hp
    · exact h.apart j hc hp
  · rcases (hmem _ y).mp hy with ⟨hy, -⟩ | ⟨-, -, hy⟩
    · exact absurd hy (hne _ rfl)
    · exact absurd rfl hy
  · apply leave_unlost h
    rintro j hj ⟨m, hm⟩
    refine .inr ⟨m, (hmem m j).mpr (.inr ⟨hm, fun heq => ?_, fun heq => ?_⟩)⟩
    · exact lookup_none hfree (heq ▸ hm)
    · rw [heq] at hm
      exact h.zipped_not_log hm hj

end Disk

end Perp.TinylogDir
