import Perp.PerpdService
import Perp.PerpdStill

set_option autoImplicit false

/-!
# Whose the descriptors are

As long as no log shutdown closes what is not its own pipe, every number that
perpd has on record refers to what was opened under it.
-/
namespace Perp.PerpdDescriptors
open PerpdState PerpdSvdef PerpdConn PerpdMainloop PerpdFrame PerpdEntry PerpdEffect PerpdSlots
  PerpdActivate PerpdMoves PerpdPhases PerpdRuns PerpdService PerpdStill TraceLaw

/-- The number of a service's last activation, and whether its log pipe was
shut down since. -/
def pipeOf (k : Key) : Monitor Event (Option (ℕ × Bool)) where
  init := none
  next q
    | .sv sd (.activate n) => if sd.key = k then some (n, false) else q
    | .sv sd (.closeLog _ _) => if sd.key = k then q.map (fun p => (p.1, true)) else q
    | _ => q

/-- A log shutdown is the first one of its activation. -/
def FirstShut (past : List Event) : Event → Prop
  | .sv sd (.closeLog _ _) => ((pipeOf sd.key).run past).map Prod.snd = some false
  | _ => True

/-- A log shutdown is the first one of its activation, or finds nothing to close. -/
def Harmless (past : List Event) : Event → Prop
  | .sv sd (.closeLog o1 o0) =>
    ((pipeOf sd.key).run past).map Prod.snd = some false ∨ (o1 = none ∧ o0 = none)
  | _ => True

theorem firstShut_harmless {t : List Event} (h : Along FirstShut t) : Along Harmless t := by
  refine h.mono fun past e he => ?_
  unfold Harmless
  split
  · exact Or.inl he
  · trivial

/-- Some log pipe was shut down while its service was not being deactivated. -/
def ShutEarly (t : List Event) : Prop :=
  ∃ x o1 o0, .sv x (.closeLog o1 o0) ∈ t ∧ x.has .cull = false

/-- The entry `sd` of the `n`-th activation has its descriptors, those of the
log pipe as long as it was not shut down. -/
structure Owns (s : Sys) (sd : Svdef) (n : ℕ) (shut : Bool) : Prop where
  life : (pipeOf sd.key).run s.trace = some (n, shut)
  dir : s.fds sd.fdDir = some (.svdir sd.key n)
  pipe : sd.has .haslog = true → shut = false →
    s.fds sd.logpipe0 = some (.logpipe0 sd.key n) ∧ s.fds sd.logpipe1 = some (.logpipe1 sd.key n)
  culled : shut = true → sd.has .cull = true ∨ ShutEarly s.trace

/-- Every descriptor on record is the one it should be. -/
structure FdsOk (base : ℕ → Option Obj) (t : Table) : Prop where
  owns : ∀ sd ∈ t.svdefs, ∃ n shut, Owns t.sys sd n shut
  nodup : t.conns.Nodup
  clients : ∀ c ∈ t.conns, t.sys.fds c = some .client
  base : ∀ fd, base fd = some .other → t.sys.fds fd = some .other
  listen : t.sys.flagTerminating = false → t.sys.fds t.sys.fdListen = some .listen

/-- What is open stays open, but for what is lost. -/
def Keeps (lost : Obj → Prop) (s s' : Sys) : Prop :=
  ∀ fd o, s.fds fd = some o → ¬ lost o → s'.fds fd = some o

section Keeps
variable {s t u : Sys} {sd sd' : Svdef} {lost lost' : Obj → Prop}

theorem Keeps.of_eq (h : t.fds = s.fds) : Keeps lost s t := fun fd o ho _ => by rwa [h]

theorem Keeps.trans (h : Keeps lost s t) (h' : Keeps lost t u) : Keeps lost s u :=
  fun fd o ho hn => h' fd o (h fd o ho hn) hn

theorem Keeps.close (s : Sys) (fd : ℕ) (h : ∀ o, s.fds fd = some o → lost o) :
    Keeps lost s (s.close fd) := by
  intro x o ho hn
  have hne : x ≠ fd := by
    rintro rfl
    exact hn (h o ho)
  simpa [Sys.close, Function.update_of_ne hne] using ho

theorem Keeps.opened (s : Sys) (fd : ℕ) (o : Obj) (h : s.fds fd = none) :
    Keeps lost s (opened s fd o) := by
  intro x o' ho _
  have hne : x ≠ fd := by
    rintro rfl
    simp [h] at ho
  simpa [PerpdActivate.opened, Function.update_of_ne hne] using ho

theorem pipeOf_ignores {fds : ℕ → Option Obj} {e : Event} (h : Apart fds sd e) (k : Key)
    (q : Option (ℕ × Bool)) : (pipeOf k).next q e = q := by
  unfold Apart at h
  unfold pipeOf
  dsimp only
  split <;> first | exact h.elim | rfl

theorem still_pipeOf (h : Still s sd t) (k : Key) :
    (pipeOf k).run t.trace = (pipeOf k).run s.trace := by
  obtain ⟨evs, ht, hp⟩ := h.grows
  rw [ht]
  exact Monitor.run_append_of_ignored _ _ _ fun e he q => pipeOf_ignores (hp e he) k q

theorem ShutEarly.mono {t u : List Event} (h : ShutEarly t) (hs : t ⊆ u) : ShutEarly u := by
  obtain ⟨x, o1, o0, hm, hc⟩ := h
  exact ⟨x, o1, o0, hs hm, hc⟩

theorem still_subset (h : Still s sd t) : s.trace ⊆ t.trace := by
  obtain ⟨evs, ht, _⟩ := h.grows
  simp [ht]

theorem idle_pipeOf (h : Idle s t) (k : Key) : (pipeOf k).run t.trace = (pipeOf k).run s.trace := by
  obtain ⟨evs, ht, hp⟩ := h.grows
  rw [ht]
  refine Monitor.run_append_of_ignored _ _ _ fun e he q => ?_
  have := hp e he
  unfold Plain at this
  split at this <;> first | exact this.elim | rfl

theorem Owns.keep {n : ℕ} {b : Bool} (h : Owns s sd n b) (hs : s.trace ⊆ t.trace)
    (hp : (pipeOf sd.key).run t.trace = (pipeOf sd.key).run s.trace) (hk : Keeps lost s t)
    (hl : ∀ o, o.key = some sd.key → ¬ lost o) : Owns t sd n b where
  life := hp.trans h.life
  dir := hk _ _ h.dir (hl _ rfl)
  pipe hh hb := ⟨hk _ _ (h.pipe hh hb).1 (hl _ rfl), hk _ _ (h.pipe hh hb).2 (hl _ rfl)⟩
  culled hb := (h.culled hb).imp_right fun he => he.mono hs

theorem Owns.still {n : ℕ} {b : Bool} {x : Svdef} (h : Owns s sd n b) (hs : Still s x t) :
    Owns t sd n b := by
  have hk : Keeps (fun _ => False) s t := .of_eq hs.fds
  exact h.keep (still_subset hs) (still_pipeOf hs _) hk fun _ _ => id

theorem Owns.kept {n : ℕ} {b : Bool} (h : Owns s sd n b) (hk : Kept sd sd') : Owns s sd' n b where
  life := by rw [hk.key]; exact h.life
  dir := by rw [hk.fdDir, hk.key]; exact h.dir
  pipe hh hb := by
    rw [hk.logpipe0, hk.logpipe1, hk.key]
    exact h.pipe (hk.haslog ▸ hh) hb
  culled hb := (h.culled hb).imp_left hk.cull

theorem closeLogpipe_pipeOf (s : Sys) (x : Svdef) (k : Key) :
    (pipeOf k).run (closeLogpipe s x).trace =
      if x.key = k then ((pipeOf k).run s.trace).map (fun p => (p.1, true))
      else (pipeOf k).run s.trace := by
  simp only [closeLogpipe, Sys.close, Sys.emitSv, Sys.emit, Monitor.run_concat]
  rfl

/-- The pipe of the activation `n` of the service `k`. -/
def PipeOf (k : Key) (n : ℕ) (o : Obj) : Prop := o = .logpipe0 k n ∨ o = .logpipe1 k n

/-- The pipe of the entry is open, or its numbers are free. -/
def PipeOwn (s : Sys) (x : Svdef) (b : Bool) : Prop :=
  b = false ∨ (s.fds x.logpipe1 = none ∧ s.fds x.logpipe0 = none)

theorem closeLogpipe_keeps {n : ℕ} {b : Bool} {x : Svdef} (h : Owns s x n b)
    (hl : x.has .haslog = true) (hb : PipeOwn s x b) :
    Keeps (PipeOf x.key n) s (closeLogpipe s x) := by
  have hsv : Keeps (PipeOf x.key n) s
      (s.emitSv x (.closeLog (s.fds x.logpipe1) (s.fds x.logpipe0))) := .of_eq rfl
  refine (hsv.trans (.close _ _ fun o ho => ?_)).trans (.close _ _ fun o ho => ?_)
  · change s.fds x.logpipe1 = some o at ho
    rcases hb with rfl | ⟨hn, _⟩
    · exact Or.inr (Option.some.inj (ho.symm.trans (h.pipe hl rfl).2))
    · simp [hn] at ho
  · have ho' : s.fds x.logpipe0 = some o := by
      change Function.update s.fds x.logpipe1 none x.logpipe0 = some o at ho
      by_cases hne : x.logpipe0 = x.logpipe1
      · simp [hne] at ho
      · rwa [Function.update_of_ne hne] at ho
    rcases hb with rfl | ⟨_, hn⟩
    · exact Or.inl (Option.some.inj (ho'.symm.trans (h.pipe hl rfl).1))
    · simp [hn] at ho'

theorem closeLogpipe_owns {n : ℕ} {b : Bool} {x : Svdef} (h : Owns s x n b)
    (hl : x.has .haslog = true) (hb : PipeOwn s x b) : Owns (closeLogpipe s x) x n true where
  life := by rw [closeLogpipe_pipeOf, if_pos rfl, h.life]; rfl
  dir := closeLogpipe_keeps h hl hb _ _ h.dir (by simp [PipeOf])
  pipe _ hb := by simp at hb
  culled _ := by
    cases hc : x.has .cull with
    | true => exact Or.inl rfl
    | false =>
      exact Or.inr ⟨x, s.fds x.logpipe1, s.fds x.logpipe0,
        by simp [closeLogpipe, Sys.close, Sys.emitSv, Sys.emit], hc⟩

end Keeps

theorem along_closeLogpipe {P : List Event → Event → Prop} {s t : Sys} {x : Svdef}
    (ht : ∃ evs, t.trace = (closeLogpipe s x).trace ++ evs) (hp : Along P t.trace) :
    P s.trace (.sv x (.closeLog (s.fds x.logpipe1) (s.fds x.logpipe0))) := by
  obtain ⟨evs, he⟩ := ht
  exact hp s.trace _ ([.closed x.logpipe1 (s.fds x.logpipe1),
      .closed x.logpipe0 (Function.update s.fds x.logpipe1 none x.logpipe0)] ++ evs)
    (by simp [he, closeLogpipe, Sys.close, Sys.emitSv, Sys.emit])

theorem firstShut_owns {s t : Sys} {x : Svdef} {n : ℕ} {b : Bool} (h : Owns s x n b)
    (ht : ∃ evs, t.trace = (closeLogpipe s x).trace ++ evs) (hp : Along FirstShut t.trace) :
    b = false := by
  simpa [FirstShut, h.life] using along_closeLogpipe ht hp

theorem harmless_owns {s t : Sys} {x : Svdef} {n : ℕ} {b : Bool} (h : Owns s x n b)
    (ht : ∃ evs, t.trace = (closeLogpipe s x).trace ++ evs) (hp : Along Harmless t.trace) :
    PipeOwn s x b := by
  simpa [Harmless, PipeOwn, h.life] using along_closeLogpipe ht hp

theorem fdStep_owns {s s' : Sys} {sd sd' : Svdef} {n : ℕ} {b : Bool} (h : FdStep s sd s' sd')
    (hk : Kept sd sd') (ho : Owns s sd n b) (hp : Along Harmless s'.trace) :
    ∃ b' lost, Owns s' sd' n b' ∧ Keeps lost s s' ∧ (∀ o, lost o → PipeOf sd.key n o) ∧
      s'.flagTerminating = s.flagTerminating ∧ s'.fdListen = s.fdListen ∧
      ∀ k, sd.key ≠ k → (pipeOf k).run s'.trace = (pipeOf k).run s.trace := by
  cases h with
  | still h =>
    exact ⟨b, fun _ => False, (ho.still h).kept hk, .of_eq h.fds, fun _ => False.elim,
      h.terminating, h.listen, fun k _ => still_pipeOf h k⟩
  | shut s1 x hx hx' hl h1 h2 =>
    have ho1 := (ho.still h1).kept hx
    obtain ⟨evs, ht, _⟩ := h2.grows
    have hb := harmless_owns ho1 ⟨evs, ht⟩ hp
    have hkeep := closeLogpipe_keeps ho1 hl hb
    rw [hx.key] at hkeep
    refine ⟨true, _, ((closeLogpipe_owns ho1 hl hb).still h2).kept hx', ?_, fun _ ho => ho, ?_, ?_, ?_⟩
    · exact ((Keeps.of_eq h1.fds).trans hkeep).trans (.of_eq h2.fds)
    · rw [h2.terminating, closeLogpipe_flagTerminating, h1.terminating]
    · rw [h2.listen, closeLogpipe_fdListen, h1.listen]
    · intro k hne
      rw [still_pipeOf h2, closeLogpipe_pipeOf, if_neg (by rwa [hx.key]), still_pipeOf h1]

@[simp] theorem begun_fds (s : Sys) : (begun s).fds = s.fds := rfl
@[simp] theorem opened_fds (s : Sys) (fd : ℕ) (o : Obj) :
    (opened s fd o).fds = Function.update s.fds fd (some o) := rfl
@[simp] theorem emitSv_fds (s : Sys) (sd : Svdef) (e : SvEvent) : (s.emitSv sd e).fds = s.fds := rfl

theorem opened_pipeOf (s : Sys) (fd : ℕ) (o : Obj) (k : Key) :
    (pipeOf k).run (opened s fd o).trace = (pipeOf k).run s.trace := by
  simp [opened, Sys.emit, pipeOf]

theorem close_pipeOf (s : Sys) (fd : ℕ) (k : Key) :
    (pipeOf k).run (s.close fd).trace = (pipeOf k).run s.trace := by
  simp [Sys.close, Sys.emit, pipeOf]

theorem openedSv_pipeOf {s s' : Sys} {key : Key} {sd : Svdef} (h : Opened s key sd s') (k : Key) :
    (pipeOf k).run s'.trace = (pipeOf k).run s.trace := by
  cases h <;> simp only [opened_pipeOf] <;> rfl

/-- An activation does not touch the log pipe of another service. -/
theorem activated_pipeOf {s s' : Sys} {key k : Key} {sd : Svdef} (h : Opened s key sd s')
    (hk : key ≠ k) : (pipeOf k).run (firstStart (s'.emitSv sd (.activate s.serial)) sd).1.trace =
      (pipeOf k).run s.trace := by
  have hne : sd.key ≠ k := h.blank.key ▸ hk
  rw [still_pipeOf (.firstStart _ sd)]
  simp only [Sys.emitSv, Sys.emit, Monitor.run_concat, openedSv_pipeOf h]
  simp [pipeOf, hne]

theorem opened_keeps {s s' : Sys} {key : Key} {sd : Svdef} (h : Opened s key sd s') :
    Keeps (fun _ => False) s s' := by
  have hb : Keeps (fun _ => False) s (begun s) := .of_eq rfl
  cases h with
  | plain hbl hl hd => exact hb.trans (.opened _ _ _ hd)
  | logged hbl hl hd h0 h1 hd0 hd1 h01 =>
    refine ((hb.trans (.opened _ _ _ hd)).trans (.opened _ _ _ ?_)).trans (.opened _ _ _ ?_)
    · simpa [Function.update_of_ne hd0] using h0
    · simpa [Function.update_of_ne hd1, Function.update_of_ne h01.symm] using h1

theorem opened_listen {s s' : Sys} {key : Key} {sd : Svdef} (h : Opened s key sd s') :
    s'.fdListen = s.fdListen := by
  obtain ⟨k', hk'⟩ := exists_other_key key
  exact (h.frame hk').listen

theorem opened_owns {s s' : Sys} {key : Key} {sd : Svdef} (h : Opened s key sd s') :
    Owns (s'.emitSv sd (.activate s.serial)) sd s.serial false where
  life := by simp [Sys.emitSv, Sys.emit, pipeOf]
  dir := by
    cases h with
    | plain hbl hl hd => simp [hbl.key]
    | logged hbl hl hd h0 h1 hd0 hd1 h01 =>
      simp [hbl.key, Function.update_of_ne hd0.symm, Function.update_of_ne hd1.symm]
  pipe hh _ := by
    cases h with
    | plain hbl hl hd => simp [hl] at hh
    | logged hbl hl hd h0 h1 hd0 hd1 h01 =>
      simp [hbl.key, Function.update_of_ne h01]
  culled hb := by simp at hb

theorem failed_fds {s s' : Sys} {key : Key} (h : Failed s key s') : s'.fds = s.fds := by
  cases h with
  | long => rfl
  | nodir => rfl
  | nopipe fd hfd =>
    simp only [Sys.close, opened, begun, Sys.emit, Sys.tainNow, Function.update_idem]
    exact Function.update_eq_self_iff.mpr hfd.symm

theorem failed_pipeOf {s s' : Sys} {key : Key} (h : Failed s key s') (k : Key) :
    (pipeOf k).run s'.trace = (pipeOf k).run s.trace := by
  cases h with
  | long => rfl
  | nodir => rfl
  | nopipe fd hfd =>
    rw [close_pipeOf, opened_pipeOf]
    rfl

/-- `perpd_svdef_activate()` that returns -1 leaves no descriptor open. -/
theorem activate_fails_clean (s : Sys) (svdir : List Char) (st : Stat) (d : ActivateIn) (s' : Sys)
    (h : perpdSvdefActivate s svdir st d = (s', none)) : s'.fds = s.fds :=
  failed_fds (activateFail_frame h)

namespace FdsOk
variable {base : ℕ → Option Obj} {t t' : Table}

theorem keep {s s' : Sys} {l l' : List Svdef} {conns : Multiset ℕ} {lost : Obj → Prop}
    (h : FdsOk base ⟨s, l, conns⟩) (hk : Keeps lost s s') (hc : ¬ lost .client) (hb : ¬ lost .other)
    (hl : s'.flagTerminating = false → s.flagTerminating = false ∧ ¬ lost .listen)
    (hfd : s'.fdListen = s.fdListen) (ho : ∀ sd ∈ l', ∃ n b, Owns s' sd n b) :
    FdsOk base ⟨s', l', conns⟩ where
  owns := ho
  nodup := h.nodup
  clients c hm := hk c _ (h.clients c hm) hc
  base fd hfd := hk fd _ (h.base fd hfd) hb
  listen ht := by
    rw [hfd]
    exact hk _ _ (h.listen (hl ht).1) (hl ht).2

theorem entry {i : ℕ} {sd sd' : Svdef} {s' : Sys} (h : FdsOk base t) (ht : TableOk t)
    (hi : t.svdefs[i]? = some sd) (hs : EntryStep t.sys sd s' sd')
    (hsub : t.sys.trace ⊆ s'.trace) (hp : Along Harmless s'.trace) :
    FdsOk base ⟨s', t.svdefs.set i sd', t.conns⟩ := by
  have hmem := List.mem_of_getElem? hi
  obtain ⟨n, b, ho⟩ := h.owns sd hmem
  obtain ⟨b', lost, ho', hk, hlost, htt, hfd, hpipe⟩ :=
    fdStep_owns (entryStep_fd hs) (.entryStep hs) ho hp
  have hno (o : Obj) (hn : ¬ PipeOf sd.key n o) : ¬ lost o := fun hl => hn (hlost o hl)
  refine h.keep hk (hno _ (by simp [PipeOf])) (hno _ (by simp [PipeOf]))
    (fun hf => ⟨htt ▸ hf, hno _ (by simp [PipeOf])⟩) hfd fun x hx => ?_
  rcases mem_set_cases hx with rfl | ⟨j, hji, hj⟩
  · exact ⟨n, b', ho'⟩
  · obtain ⟨m, c, hox⟩ := h.owns x (List.mem_of_getElem? hj)
    have hne := key_ne_of_ne ht.nodup hi hj hji
    refine ⟨m, c, hox.keep hsub (hpipe _ hne) hk fun o ho => hno o ?_⟩
    rintro (rfl | rfl) <;> exact hne (Option.some.inj ho)

theorem activate {sd : Svdef} {s1 : Sys} {k : Key} (h : FdsOk base t)
    (hterm : t.sys.flagTerminating = false) (hnk : k ∉ t.svdefs.map Svdef.key)
    (ho : Opened t.sys k sd s1)
    (hsub : t.sys.trace ⊆ (firstStart (s1.emitSv sd (.activate t.sys.serial)) sd).1.trace) :
    FdsOk base ⟨(firstStart (s1.emitSv sd (.activate t.sys.serial)) sd).1,
      t.svdefs ++ [(firstStart (s1.emitSv sd (.activate t.sys.serial)) sd).2.put .active],
      t.conns⟩ := by
  have hstill := Still.firstStart (s1.emitSv sd (.activate t.sys.serial)) sd
  have hk : Keeps (fun _ => False) t.sys
      (firstStart (s1.emitSv sd (.activate t.sys.serial)) sd).1 :=
    ((opened_keeps ho).trans (.of_eq rfl)).trans (.of_eq hstill.fds)
  refine h.keep hk id id (fun _ => ⟨hterm, id⟩) ?_ fun x hx => ?_
  · refine hstill.listen.trans ?_
    change s1.fdListen = _
    exact opened_listen ho
  rcases List.mem_append.mp hx with hx | hx
  · obtain ⟨m, c, hox⟩ := h.owns x hx
    have hne : k ≠ x.key := fun he => hnk (he ▸ List.mem_map_of_mem hx)
    exact ⟨m, c, hox.keep hsub (activated_pipeOf ho hne) hk fun _ _ => id⟩
  · obtain rfl := List.mem_singleton.mp hx
    have hkept := firstStart_kept (s1.emitSv sd (.activate t.sys.serial)) sd
    refine ⟨t.sys.serial, false, ((opened_owns ho).still hstill).kept (hkept.trans ?_)⟩
    constructor <;> simp

theorem move (h : FdsOk base t) (ht : TableOk t) (hm : Move t t')
    (hp : Along Harmless t'.sys.trace) : FdsOk base t' := by
  have hsub : t.sys.trace ⊆ t'.sys.trace := by
    obtain ⟨evs, he⟩ := move_grows ht hm
    simp [he]
  cases hm with
  | entry i sd s' sd' hi hs hterm =>
    exact h.entry ht hi hs hsub hp
  | activate svdir st d s' sd hnew hroom hterm ha =>
    obtain ⟨sd0, s1, ho, rfl, rfl⟩ := activate_some ha
    exact h.activate hterm (lookup_eq_none hnew) ho hsub
  | activateFail svdir st d s' hnew ha =>
    have hf := activateFail_frame ha
    have hk : Keeps (fun _ => False) t.sys s' := .of_eq (failed_fds hf)
    have hff := hf.flags
    refine h.keep hk id id (fun ht => ⟨hff.terminating ▸ ht, id⟩) ?_ fun x hx => ?_
    · obtain ⟨k', hk'⟩ := exists_other_key (st.dev, st.ino)
      exact (hf.frame hk').listen
    · obtain ⟨n, b, ho⟩ := h.owns x hx
      exact ⟨n, b, ho.keep hsub (failed_pipeOf hf _) hk fun _ _ => id⟩
  | cull i sd hi hc =>
    have hmem := List.mem_of_getElem? hi
    have hperm := swapRemove_perm _ _ _ hi
    have hnd := (hperm.map Svdef.key).nodup_iff.mp ht.nodup
    rw [List.map_cons, List.nodup_cons] at hnd
    obtain ⟨n, b, ho⟩ := h.owns sd hmem
    have hk : Keeps (· = .svdir sd.key n) t.sys (perpdSvdefClose (t.sys.emitSv sd .cull) sd) :=
      .close _ _ fun o hfd => Option.some.inj (hfd.symm.trans ho.dir)
    refine h.keep hk (by simp) (by simp) (fun ht => ⟨ht, by simp⟩) rfl fun x hx => ?_
    obtain ⟨m, c, hox⟩ := h.owns x (hperm.mem_iff.mpr (List.mem_cons_of_mem _ hx))
    refine ⟨m, c, hox.keep hsub ?_ hk ?_⟩
    · rw [perpdSvdefClose, close_pipeOf]
      simp [Sys.emitSv, Sys.emit, pipeOf]
    · rintro o ho rfl
      exact hnd.1 ((Option.some.inj ho) ▸ List.mem_map_of_mem hx)
  | accept fd hf =>
    have hk : Keeps (fun _ => False) t.sys (opened t.sys fd .client) := .opened _ _ _ hf
    have hc : FdsOk base ⟨opened t.sys fd .client, t.svdefs, t.conns⟩ := by
      refine h.keep hk id id (fun ht => ⟨ht, id⟩) rfl fun x hx => ?_
      obtain ⟨n, b, ho⟩ := h.owns x hx
      exact ⟨n, b, ho.keep hsub (opened_pipeOf _ _ _ _) hk fun _ _ => id⟩
    refine { hc with nodup := ?_, clients := ?_ }
    · refine Multiset.nodup_cons.mpr ⟨fun hm => ?_, h.nodup⟩
      simp [h.clients fd hm] at hf
    · intro c hm
      rcases Multiset.mem_cons.mp hm with rfl | hm
      · simp [opened]
      · exact hc.clients c hm
  | drop fd conns hc =>
    have hfd := h.clients fd (by simp [hc])
    have hnd := h.nodup
    rw [hc, Multiset.nodup_cons] at hnd
    have hk : Keeps (· = .client) t.sys (t.sys.close fd) :=
      .close _ _ fun o ho => Option.some.inj (ho.symm.trans hfd)
    constructor
    · intro x hx
      obtain ⟨n, b, ho⟩ := h.owns x hx
      refine ⟨n, b, ho.keep hsub (close_pipeOf _ _ _) hk ?_⟩
      rintro o ho rfl
      simp [Obj.key] at ho
    · exact hnd.2
    · intro c hm
      have hne : c ≠ fd := fun he => hnd.1 (he ▸ hm)
      simpa [Sys.close, Function.update_of_ne hne] using h.clients c (by simp [hc, hm])
    · exact fun x hx => hk x _ (h.base x hx) (by simp)
    · exact fun ht => hk _ _ (h.listen ht) (by simp)
  | term hterm =>
    have hk : Keeps (· = .listen) t.sys (terminated t.sys) := by
      refine Keeps.trans (t := { t.sys.emit .term with
        flagTerminating := true, flagTerm := 0, flagHup := 0 }) (.of_eq rfl) (.close _ _ fun o ho => ?_)
      exact Option.some.inj (ho.symm.trans (h.listen hterm))
    have htt : (terminated t.sys).flagTerminating = true := rfl
    refine h.keep hk (by simp) (by simp) (fun ht => by simp [htt] at ht) rfl fun x hx => ?_
    obtain ⟨n, b, ho⟩ := h.owns x hx
    refine ⟨n, b, ho.keep hsub ?_ hk ?_⟩
    · rw [terminated, close_pipeOf]
      simp [Sys.emit, pipeOf]
    · rintro o ho rfl
      simp [Obj.key] at ho
  | idle s' hi =>
    have hk : Keeps (fun _ => False) t.sys s' := .of_eq hi.fds
    refine h.keep hk id id (fun ht => ⟨hi.terminating ▸ ht, id⟩) hi.listen fun x hx => ?_
    obtain ⟨n, b, ho⟩ := h.owns x hx
    exact ⟨n, b, ho.keep hsub (idle_pipeOf hi _) hk fun _ _ => id⟩

theorem start (cfg : Config) : FdsOk cfg.fds (table (perpdStart cfg)) := by
  have hf : (perpdStart cfg).sys.fds = cfg.fds := by
    simp [perpdStart, perpdTriggerScan, Sys.selfpipePing]
  have hl : (perpdStart cfg).sys.fdListen = cfg.fdListen := by
    simp [perpdStart, perpdTriggerScan, Sys.selfpipePing]
  have hc : connfds (perpdStart cfg).clients = 0 := rfl
  constructor
  · intro sd hsd
    simp [table, perpdStart] at hsd
  · simp [table, hc]
  · simp [table, hc]
  · intro fd hfd
    simpa [table, hf] using hfd
  · intro _
    simpa [table, hf, hl] using cfg.fds_listen

end FdsOk

end Perp.PerpdDescriptors
