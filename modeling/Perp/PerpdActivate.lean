import Perp.PerpdSlots

set_option autoImplicit false

/-!
# Activation

`perpd_svdef_activate()` either fails and leaves no descriptor open, or it
opens the descriptors of a blank entry and gives the service its first start.
-/
namespace Perp.PerpdActivate
open PerpdState PerpdSvdef PerpdFrame PerpdEntry PerpdEffect PerpdSlots

/-- The kernel has opened `o` at the free number `fd`. -/
def opened (s : Sys) (fd : ℕ) (o : Obj) : Sys :=
  { s.emit (.opened fd o) with fds := Function.update s.fds fd (some o) }

theorem openFd_cases (s : Sys) (ret : Option ℕ) (o : Obj) :
    s.openFd ret o = (none, s) ∨
      ∃ fd, s.fds fd = none ∧ s.openFd ret o = (some fd, opened s fd o) := by
  cases ret with
  | none => exact Or.inl rfl
  | some fd =>
    by_cases h : s.fds fd = none
    · exact Or.inr ⟨fd, h, by simp only [Sys.openFd, h, ↓reduceIte, opened]⟩
    · exact Or.inl (by simp only [Sys.openFd, h, ↓reduceIte])

theorem opened_eq (s : Sys) (fd : ℕ) (o : Obj) (h : s.fds fd = none) :
    s.openFd (some fd) o = (some fd, opened s fd o) := by
  simp only [Sys.openFd, h, ↓reduceIte, opened]

theorem pipe_cases (s : Sys) (ret : Option (ℕ × ℕ)) (o0 o1 : Obj) :
    s.pipe ret o0 o1 = (none, s) ∨
      ∃ fd0 fd1, s.fds fd0 = none ∧ s.fds fd1 = none ∧ fd0 ≠ fd1 ∧
        s.pipe ret o0 o1 = (some (fd0, fd1), opened (opened s fd0 o0) fd1 o1) := by
  rcases ret with _ | ⟨fd0, fd1⟩
  · exact Or.inl rfl
  by_cases h : s.fds fd0 = none ∧ s.fds fd1 = none ∧ fd0 ≠ fd1
  · obtain ⟨h0, h1, hne⟩ := h
    have h1' : (opened s fd0 o0).fds fd1 = none := by
      simp [opened, Function.update_of_ne hne.symm, h1]
    refine Or.inr ⟨fd0, fd1, h0, h1, hne, ?_⟩
    simp only [Sys.pipe, h0, h1, hne, ne_eq, not_false_eq_true, and_self, ↓reduceIte,
      opened_eq s fd0 o0 h0, opened_eq _ fd1 o1 h1']
  · exact Or.inl (by simp only [Sys.pipe, h, ↓reduceIte])

theorem opened_frame {k : Key} (s : Sys) (fd : ℕ) (o : Obj) (h : s.fds fd = none)
    (ho : o.key ≠ some k) (hl : o ≠ .listen) : Frame k s (opened s fd o) := by
  have := Frame.openFd s (some fd) o ho hl
  rwa [opened_eq s fd o h] at this

/-- What an activation begins with. -/
def begun (s : Sys) : Sys := { s.tainNow.2 with serial := s.serial + 1 }

/-- A blank entry of the `n`-th activation. -/
structure Blank (sd : Svdef) (k : Key) : Prop where
  key : sd.key = k
  sv : ∀ w, sd.sv w = .clear
  active : sd.has .active = true
  cull : sd.has .cull = false
  cycle : sd.has .cycle = false

theorem inspected_blank (svdir : List Char) (st : Stat) (d : ActivateIn) (now : Tain) (fd : ℕ) :
    Blank (inspected svdir st d now fd) (st.dev, st.ino) := by
  have h0 (f : SvdefFlag) : Svdef.has ⟨st.dev, st.ino, fd, cstrLcpy svdir 32, now, 0, 0, 0, .clear,
      .clear⟩ f = false := FlagByte.has_zero f
  constructor
  · unfold inspected
    dsimp only
    split <;> split <;> split <;> simp [Svdef.key, Svdef.put]
  · intro w
    unfold inspected
    dsimp only
    split <;> split <;> split <;> simp only [Svdef.put_sv] <;> cases w <;> rfl
  all_goals
    unfold inspected
    dsimp only
    split <;> split <;> split <;> simp [h0]

@[simp] theorem inspected_fdDir (svdir : List Char) (st : Stat) (d : ActivateIn) (now : Tain)
    (fd : ℕ) : (inspected svdir st d now fd).fdDir = fd := by
  unfold inspected
  dsimp only
  split <;> split <;> split <;> rfl

/-- What an activation that fails leaves behind. -/
inductive Failed (s : Sys) (key : Key) : Sys → Prop where
  | long : Failed s key { s with serial := s.serial + 1 }
  | nodir : Failed s key (begun s)
  | nopipe (fd : ℕ) (h : s.fds fd = none) :
    Failed s key ((opened (begun s) fd (.svdir key s.serial)).close fd)

/-- The descriptors of a new entry, open. -/
inductive Opened (s : Sys) (key : Key) : Svdef → Sys → Prop where
  | plain (sd : Svdef) (hb : Blank sd key) (hl : sd.has .haslog = false)
      (hd : s.fds sd.fdDir = none) :
    Opened s key sd (opened (begun s) sd.fdDir (.svdir key s.serial))
  | logged (sd : Svdef) (hb : Blank sd key) (hl : sd.has .haslog = true)
      (hd : s.fds sd.fdDir = none) (h0 : s.fds sd.logpipe0 = none)
      (h1 : s.fds sd.logpipe1 = none) (hd0 : sd.logpipe0 ≠ sd.fdDir) (hd1 : sd.logpipe1 ≠ sd.fdDir)
      (h01 : sd.logpipe0 ≠ sd.logpipe1) :
    Opened s key sd (opened (opened (opened (begun s) sd.fdDir (.svdir key s.serial))
      sd.logpipe0 (.logpipe0 key s.serial)) sd.logpipe1 (.logpipe1 key s.serial))

theorem activate_cases (s : Sys) (svdir : List Char) (st : Stat) (d : ActivateIn) :
    (∃ s', perpdSvdefActivate s svdir st d = (s', none) ∧ Failed s (st.dev, st.ino) s') ∨
    (∃ sd s', Opened s (st.dev, st.ino) sd s' ∧ perpdSvdefActivate s svdir st d =
      ((firstStart (s'.emitSv sd (.activate s.serial)) sd).1,
        some (firstStart (s'.emitSv sd (.activate s.serial)) sd).2)) := by
  by_cases hlen : svdir.length > 240
  · exact Or.inl ⟨_, by simp only [perpdSvdefActivate, hlen, ↓reduceIte], .long⟩
  have hb (fd : ℕ) := inspected_blank svdir st d s.tainNow.1 fd
  have hnow : Sys.tainNow { s with serial := s.serial + 1 } = (s.tainNow.1, begun s) := rfl
  simp only [perpdSvdefActivate, hlen, ↓reduceIte, hnow]
  rcases openFd_cases (begun s) d.openRet (.svdir (st.dev, st.ino) s.serial) with h | ⟨fd, hfd, h⟩
  · simp only [h]
    exact Or.inl ⟨_, rfl, .nodir⟩
  change s.fds fd = none at hfd
  simp only [h]
  cases hl : (inspected svdir st d s.tainNow.1 fd).has .haslog with
  | false =>
    refine Or.inr ⟨_, _, .plain _ (hb fd) hl (by simpa using hfd), ?_⟩
    simp
  | true =>
    simp only [↓reduceIte]
    rcases pipe_cases (opened (begun s) fd (.svdir (st.dev, st.ino) s.serial)) d.pipeRet
        (.logpipe0 (st.dev, st.ino) s.serial) (.logpipe1 (st.dev, st.ino) s.serial) with
      hp | ⟨fd0, fd1, h0, h1, h01, hp⟩
    · simp only [hp]
      exact Or.inl ⟨_, rfl, .nopipe fd hfd⟩
    · simp only [hp]
      have hfree (x : ℕ) (hx : (opened (begun s) fd (.svdir (st.dev, st.ino) s.serial)).fds x = none) :
          x ≠ fd ∧ s.fds x = none := by
        have hne : x ≠ fd := by
          rintro rfl
          simp [opened] at hx
        simp only [opened, Function.update_of_ne hne] at hx
        exact ⟨hne, hx⟩
      refine Or.inr ⟨{ inspected svdir st d s.tainNow.1 fd with logpipe0 := fd0, logpipe1 := fd1 }, _,
        ?_, rfl⟩
      have ho := Opened.logged (s := s)
        { inspected svdir st d s.tainNow.1 fd with logpipe0 := fd0, logpipe1 := fd1 }
        ⟨(hb fd).key, fun w => by cases w <;> [exact (hb fd).sv .main; exact (hb fd).sv .log],
          (hb fd).active, (hb fd).cull, (hb fd).cycle⟩ hl
        (by simpa using hfd) (hfree fd0 h0).2 (hfree fd1 h1).2
        (by simpa using (hfree fd0 h0).1) (by simpa using (hfree fd1 h1).1) h01
      simpa using ho

/-- What an activation that succeeds has done. -/
theorem activate_some {s s' : Sys} {svdir : List Char} {st : Stat} {d : ActivateIn} {sd : Svdef}
    (ha : perpdSvdefActivate s svdir st d = (s', some sd)) :
    ∃ sd0 s1, Opened s (st.dev, st.ino) sd0 s1 ∧
      s' = (firstStart (s1.emitSv sd0 (.activate s.serial)) sd0).1 ∧
      sd = (firstStart (s1.emitSv sd0 (.activate s.serial)) sd0).2 := by
  rcases activate_cases s svdir st d with ⟨s1, h, _⟩ | ⟨sd0, s1, ho, h⟩
  · simp [h] at ha
  rw [h] at ha
  obtain ⟨hs, hsd⟩ := Prod.mk.inj ha
  exact ⟨sd0, s1, ho, hs.symm, (Option.some.inj hsd).symm⟩

/-- The log's part of the first start. -/
def startLog (s : Sys) (sd : Svdef) : Sys × Svdef :=
  if sd.has .haslog then perpdSvdefRun s (sd.setSv .log (sd.svLog.put .islog)) .log .start
  else (s, sd)

/-- Main's part of the first start. -/
def startMain (s : Sys) (sd : Svdef) : Sys × Svdef :=
  if sd.has .down = false then
    perpdSvdefRun s (if sd.has .once then sd.setSv .main (sd.svMain.put .isonce) else sd) .main .start
  else (s, sd.setSv .main (sd.svMain.put .wantdown))

theorem firstStart_eq (s : Sys) (sd : Svdef) :
    firstStart s sd = startMain (startLog s sd).1 (startLog s sd).2 := by
  unfold firstStart startLog startMain
  rfl

@[simp] theorem startLog_has (s : Sys) (sd : Svdef) (f : SvdefFlag) :
    (startLog s sd).2.has f = sd.has f := by
  unfold startLog
  split <;> simp

@[simp] theorem startMain_has (s : Sys) (sd : Svdef) (f : SvdefFlag) :
    (startMain s sd).2.has f = sd.has f := by
  unfold startMain
  split
  · rw [run_has]
    split <;> simp
  · simp

@[simp] theorem firstStart_has (s : Sys) (sd : Svdef) (f : SvdefFlag) :
    (firstStart s sd).2.has f = sd.has f := by
  simp [firstStart_eq]

theorem startLog_kept (s : Sys) (sd : Svdef) : Kept sd (startLog s sd).2 := by
  unfold startLog
  split
  · exact (Kept.setSv sd .log _).trans (.run _ _ _ _)
  · exact .refl sd

theorem startMain_kept (s : Sys) (sd : Svdef) : Kept sd (startMain s sd).2 := by
  unfold startMain
  split
  · refine Kept.trans ?_ (.run _ _ _ _)
    split
    · exact .setSv sd .main _
    · exact .refl sd
  · exact .setSv sd .main _

theorem firstStart_kept (s : Sys) (sd : Svdef) : Kept sd (firstStart s sd).2 := by
  rw [firstStart_eq]
  exact (startLog_kept s sd).trans (startMain_kept _ _)

/-- The kernel knows no child of the service. -/
def Childless (s : Sys) (k : Key) : Prop := ∀ p w, s.children p ≠ some (k, w)

theorem Blank.svOk {s : Sys} {sd : Svdef} {k : Key} (h : Blank sd k) (hc : Childless s k) :
    SvOk s sd where
  cull hcull := by simp [h.cull] at hcull
  cycle hcy := by simp [h.cycle] at hcy
  nolog _ := by
    have := h.sv .log
    simp only [Svdef.sv_log] at this
    simp [this]
  failing w := by simp [h.sv w]
  owned w := by simp [h.sv w]
  slot p w hp := absurd (h.key ▸ hp) (hc p w)

theorem SvOk.put {s : Sys} {sd : Svdef} (h : SvOk s sd) (w : Which) (f : SubsvFlag)
    (hf : f ≠ .failing) : SvOk s (sd.setSv w ((sd.sv w).put f)) where
  cull hc x hx := by
    rw [Svdef.setSv_has] at hc hx
    have := h.cull hc x hx
    rw [Svdef.setSv_sv]
    split
    · next hw =>
      subst hw
      simp [this]
    · exact this
  cycle := by simpa using h.cycle
  nolog hn := by
    rw [Svdef.setSv_has] at hn
    cases w <;> simpa [hf] using h.nolog hn
  failing x hx := by
    have := h.failing x
    rw [Svdef.setSv_sv] at hx ⊢
    split at hx
    · next hw =>
      subst hw
      simp only [Subsv.put_has, hf, decide_false, Bool.false_or] at hx
      simpa using this hx
    · next hw => simpa [hw] using this hx
  owned x hx := by
    have := h.owned x
    rw [Svdef.setSv_sv] at hx ⊢
    rw [Svdef.setSv_key]
    split at hx
    · next hw =>
      subst hw
      simpa using this hx
    · next hw => simpa [hw] using this hx
  slot p x hx := by
    rw [Svdef.setSv_key] at hx
    rw [Svdef.setSv_sv]
    split
    · next hw =>
      subst hw
      exact h.slot p w hx
    · exact h.slot p x hx

theorem startLog_svOk {s : Sys} {sd : Svdef} (h : SvOk s sd) :
    SvOk (startLog s sd).1 (startLog s sd).2 := by
  unfold startLog
  split
  · exact (SvOk.put h .log .islog (by simp)).run _ _
  · exact h

theorem startMain_svOk {s : Sys} {sd : Svdef} (h : SvOk s sd) :
    SvOk (startMain s sd).1 (startMain s sd).2 := by
  unfold startMain
  split
  · split
    · exact (SvOk.put h .main .isonce (by simp)).run _ _
    · exact h.run _ _
  · exact SvOk.put h .main .wantdown (by simp)

theorem firstStart_svOk {s : Sys} {sd : Svdef} (h : SvOk s sd) :
    SvOk (firstStart s sd).1 (firstStart s sd).2 := by
  rw [firstStart_eq]
  exact startMain_svOk (startLog_svOk h)

theorem startLog_frame {k : Key} (s : Sys) (sd : Svdef) (hk : sd.key ≠ k) :
    Frame k s (startLog s sd).1 := by
  unfold startLog
  split
  · exact run_frame _ _ _ _ (by simpa using hk)
  · exact .refl k s

theorem startMain_frame {k : Key} (s : Sys) (sd : Svdef) (hk : sd.key ≠ k) :
    Frame k s (startMain s sd).1 := by
  unfold startMain
  split
  · refine run_frame _ _ _ _ ?_
    split <;> simpa using hk
  · exact .refl k s

theorem firstStart_frame {k : Key} (s : Sys) (sd : Svdef) (hk : sd.key ≠ k) :
    Frame k s (firstStart s sd).1 := by
  rw [firstStart_eq]
  refine (startLog_frame s sd hk).trans (startMain_frame _ _ ?_)
  rwa [(startLog_kept s sd).key]

theorem startLog_flags (s : Sys) (sd : Svdef) : Flags s (startLog s sd).1 := by
  unfold startLog
  split
  · exact .run _ _ _ _
  · exact .refl s

theorem startMain_flags (s : Sys) (sd : Svdef) : Flags s (startMain s sd).1 := by
  unfold startMain
  split
  · exact .run _ _ _ _
  · exact .refl s

theorem firstStart_flags (s : Sys) (sd : Svdef) : Flags s (firstStart s sd).1 := by
  rw [firstStart_eq]
  exact (startLog_flags s sd).trans (startMain_flags _ _)

theorem begun_frame {k : Key} (s : Sys) : Frame k s (begun s) :=
  .of_silent rfl rfl rfl (Nat.le_succ _) rfl rfl rfl

theorem Failed.frame {s s' : Sys} {key k : Key} (h : Failed s key s') (hk : key ≠ k) :
    Frame k s s' := by
  cases h with
  | long => exact .of_silent rfl rfl rfl (Nat.le_succ _) rfl rfl rfl
  | nodir => exact begun_frame s
  | nopipe fd h =>
    exact ((begun_frame s).trans (opened_frame _ fd _ h (by simpa [Obj.key] using hk) (by simp))).trans
      (.close _ fd)

theorem Failed.children {s s' : Sys} {key : Key} (h : Failed s key s') :
    s'.children = s.children := by
  cases h <;> simp only [Sys.close, Sys.emit, opened, begun, Sys.tainNow]

theorem Opened.blank {s s' : Sys} {key : Key} {sd : Svdef} (h : Opened s key sd s') :
    Blank sd key := by
  cases h with
  | plain hb => exact hb
  | logged hb => exact hb

theorem Opened.children {s s' : Sys} {key : Key} {sd : Svdef} (h : Opened s key sd s') :
    s'.children = s.children := by
  cases h <;> simp only [Sys.emit, opened, begun, Sys.tainNow]

theorem Failed.flags {s s' : Sys} {key : Key} (h : Failed s key s') : Flags s s' := by
  cases h <;> constructor <;> simp only [Sys.close, Sys.emit, opened, begun, Sys.tainNow, le_refl]

theorem Opened.flags {s s' : Sys} {key : Key} {sd : Svdef} (h : Opened s key sd s') :
    Flags s s' := by
  cases h <;> constructor <;> simp only [Sys.emit, opened, begun, Sys.tainNow, le_refl]

theorem Opened.frame {s s' : Sys} {key k : Key} {sd : Svdef} (h : Opened s key sd s')
    (hk : key ≠ k) : Frame k s s' := by
  cases h with
  | plain hb hl hd =>
    exact (begun_frame s).trans (opened_frame _ _ _ hd (by simpa [Obj.key] using hk) (by simp))
  | logged hb hl hd h0 h1 hd0 hd1 h01 =>
    refine (((begun_frame s).trans (opened_frame _ _ _ hd ?_ (by simp))).trans
      (opened_frame _ _ _ ?_ ?_ (by simp))).trans (opened_frame _ _ _ ?_ ?_ (by simp))
    · simpa [Obj.key] using hk
    · simp only [opened, Function.update_of_ne hd0]
      exact h0
    · simpa [Obj.key] using hk
    · simp only [opened, Function.update_of_ne hd1, Function.update_of_ne h01.symm]
      exact h1
    · simpa [Obj.key] using hk

theorem activate_flags (s : Sys) (svdir : List Char) (st : Stat) (d : ActivateIn) :
    Flags s (perpdSvdefActivate s svdir st d).1 := by
  rcases activate_cases s svdir st d with ⟨s1, h, hf⟩ | ⟨sd, s1, ho, h⟩ <;> rw [h]
  · exact hf.flags
  · have he : Flags s1 (s1.emitSv sd (.activate s.serial)) := ⟨rfl, rfl, rfl, le_refl _⟩
    exact (ho.flags.trans he).trans (firstStart_flags _ _)

end Perp.PerpdActivate
