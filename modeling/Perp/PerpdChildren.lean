import Perp.PerpdClient
import Perp.PerpdLeft

set_option autoImplicit false

/-!
# Children and signals

What the trace says of the unreaped children is what the kernel knows of them
and what the table records. Signals go to these children only.
-/
namespace Perp.PerpdChildren
open PerpdState PerpdSvdef PerpdMainloop PerpdClient PerpdFrame PerpdEntry PerpdEffect PerpdSlots
  PerpdActivate PerpdMoves PerpdCompact PerpdStill PerpdPhases PerpdRuns PerpdService PerpdLeft TraceLaw

/-- What a child was forked for. -/
structure Child where
  key : Key
  which : Which
  target : Target
  deriving DecidableEq

def Child.owner (c : Child) : Key × Which := (c.key, c.which)

/-- The children that have been forked and not been reaped. -/
def unreaped : Monitor Event (ℕ → Option Child) where
  init := fun _ => none
  next q
    | .sv sd (.fork w target _ _ _ _ (some pid)) =>
      Function.update q pid (some ⟨sd.key, w, target⟩)
    | .sv sd (.reap w _) => Function.update q (sd.sv w).pid none
    | _ => q

/-- A signal goes to an unreaped child or its process group, and to one that
runs its reset only what that may receive. -/
def Signals (past : List Event) : Event → Prop
  | .sv sd (.kill w target sig) =>
    0 < (sd.sv w).pid ∧ (target = (sd.sv w).pid ∨ target = -(sd.sv w).pid) ∧
      ∃ target', unreaped.run past (sd.sv w).pid = some ⟨sd.key, w, target'⟩ ∧
        (target' = .reset → sig = .sigcont ∨ sig = .sigkill)
  | _ => True

def targetOf (v : Subsv) : Target := if v.has .isreset then .reset else .start

/-- The trace and the kernel agree on the children. -/
def Accurate (s : Sys) : Prop :=
  ∀ p, ((unreaped.run s.trace) p).map Child.owner = s.children p

/-- The trace tells what the processes of an entry are. -/
structure Told (s : Sys) (sd : Svdef) : Prop where
  accurate : Accurate s
  lawful : Along Signals s.trace
  running : ∀ w, 0 < (sd.sv w).pid →
    unreaped.run s.trace (sd.sv w).pid = some ⟨sd.key, w, targetOf (sd.sv w)⟩

/-- Work on an entry that is told, and leaves the other children alone. -/
structure Tells (s : Sys) (sd : Svdef) (s' : Sys) (sd' : Svdef) : Prop where
  told : Told s sd → Told s' sd'
  others : Told s sd → ∀ p c, unreaped.run s.trace p = some c → c.key ≠ sd.key →
    unreaped.run s'.trace p = some c
  key : sd'.key = sd.key

namespace Tells
variable {s t u : Sys} {a b c : Svdef}

theorem refl (s : Sys) (a : Svdef) : Tells s a s a := ⟨id, fun _ _ _ h _ => h, rfl⟩

theorem trans (h : Tells s a t b) (h' : Tells t b u c) : Tells s a u c where
  told ht := h'.told (h.told ht)
  others ht p c hp hc := h'.others (h.told ht) p c (h.others ht p c hp hc) (by rwa [h.key])
  key := h'.key.trans h.key

theorem emit (s : Sys) (a : Svdef) (e : Event) (he : ∀ q, unreaped.next q e = q)
    (hs : ∀ past, Signals past e) : Tells s a (s.emit e) a := by
  have hrun : unreaped.run (s.emit e).trace = unreaped.run s.trace := by
    rw [Sys.emit, Monitor.run_concat, he]
  refine ⟨fun h => ⟨?_, ?_, ?_⟩, fun _ p c hp _ => by rwa [hrun], rfl⟩
  · intro p
    rw [hrun]
    exact h.accurate p
  · exact (along_concat _ _).mpr ⟨h.lawful, hs _⟩
  · intro w hw
    rw [hrun]
    exact h.running w hw

theorem flag (s : Sys) (hk : b.key = a.key) (hp : ∀ w, (b.sv w).pid = (a.sv w).pid)
    (hr : ∀ w, (b.sv w).has .isreset = (a.sv w).has .isreset) : Tells s a s b := by
  refine ⟨fun h => ⟨h.accurate, h.lawful, fun w hw => ?_⟩, fun _ _ _ h _ => h, hk⟩
  rw [hp w] at hw ⊢
  rw [targetOf, hr w, hk]
  exact h.running w hw

theorem quiet_ignored {e : Event} (he : Quiet a e) (q : ℕ → Option Child) :
    unreaped.next q e = q := by
  unfold Quiet at he
  split at he <;> first | rfl | exact he.elim

theorem calm (h : Calm s a t b) : Tells s a t b := by
  obtain ⟨evs, htr, hq, _⟩ := h.grows
  have hrun (l : List Event) (hl : ∀ e ∈ l, Quiet a e) :
      unreaped.run (s.trace ++ l) = unreaped.run s.trace :=
    Monitor.run_append_of_ignored _ _ _ fun e he => quiet_ignored (hl e he)
  refine ⟨fun ht => ⟨?_, ?_, ?_⟩, fun _ p c hp _ => by rwa [htr, hrun evs hq], h.kept.key⟩
  · intro p
    rw [htr, hrun evs hq, h.children]
    exact ht.accurate p
  · rw [htr]
    refine ht.lawful.append fun past e rest he => ?_
    have hpast := hrun past fun x hx => hq x (by simp [he, hx])
    have hqe := hq e (by simp [he])
    unfold Signals
    split
    · next x w target sig =>
      obtain ⟨hk, hpos, htgt, hreset, hp⟩ := hqe
      refine ⟨by omega, by omega, targetOf (a.sv w), ?_, fun hx => hreset ?_⟩
      · rw [hpast, hp, hk]
        exact ht.running w hpos
      · unfold targetOf at hx
        split at hx
        · assumption
        · simp at hx
    · trivial
  · intro w hw
    rw [h.pid w] at hw ⊢
    rw [htr, hrun evs hq, h.kept.key, targetOf, h.flags w .isreset (by simp) (by simp)]
    exact ht.running w hw

theorem fork {which : Which} {target : Target} {ret : Option ℕ} {v : Subsv}
    (hf : ForkStep s t (a.setSv which (aim (a.sv which) target)) which target ret)
    (hv : Armed (a.sv which) target ret v) : Tells s a t (a.setSv which v) := by
  obtain ⟨now, towait, htr⟩ := hf.trace
  have hlaw (h : Told s a) : Along Signals t.trace := by
    rw [htr]
    exact (along_concat _ _).mpr ⟨h.lawful, trivial⟩
  have hkey : (a.setSv which (aim (a.sv which) target)).key = a.key := by simp
  cases ret with
  | none =>
    have hrun : unreaped.run t.trace = unreaped.run s.trace := by
      rw [htr, Monitor.run_concat]
      rfl
    refine ⟨fun h => ⟨?_, hlaw h, ?_⟩, fun _ p c hp _ => by rwa [hrun], by simp⟩
    · intro p
      rw [hrun, hf.children]
      exact h.accurate p
    · intro w hw
      have hne : which ≠ w := by
        rintro rfl
        simp [hv.pid] at hw
      simp only [Svdef.setSv_sv, hne, ↓reduceIte] at hw ⊢
      rw [hrun]
      simpa using h.running w hw
  | some pid =>
    have hrun : unreaped.run t.trace =
        Function.update (unreaped.run s.trace) pid (some ⟨a.key, which, target⟩) := by
      rw [htr, Monitor.run_concat, ← hkey]
      rfl
    have hfree (h : Told s a) : unreaped.run s.trace pid = none := by
      have := h.accurate pid
      rw [(hf.fresh pid rfl).2] at this
      exact Option.map_eq_none_iff.mp this
    refine ⟨fun h => ⟨?_, hlaw h, ?_⟩, fun h p c hp _ => ?_, by simp⟩
    · intro p
      rw [hrun, hf.children, hkey]
      by_cases hpp : p = pid
      · subst hpp
        simp [Child.owner]
      · simpa [Function.update_of_ne hpp] using h.accurate p
    · intro w hw
      rw [hrun]
      by_cases hne : which = w
      · subst hne
        rw [Svdef.setSv_self, hv.pid, targetOf, hv.isreset]
        cases target <;> simp
      · simp only [Svdef.setSv_sv, hne, ↓reduceIte] at hw ⊢
        have hr := h.running w hw
        have hpp : (a.sv w).pid ≠ pid := by
          intro he
          rw [he, hfree h] at hr
          simp at hr
        simpa [Function.update_of_ne hpp] using hr
    · have hpp : p ≠ pid := by
        rintro rfl
        rw [hfree h] at hp
        simp at hp
      rw [hrun, Function.update_of_ne hpp]
      exact hp

theorem run (s : Sys) (a : Svdef) (which : Which) (target : Target) :
    Tells s a (perpdSvdefRun s a which target).1 (perpdSvdefRun s a which target).2 := by
  rcases run_cases s a which target with ⟨h, _⟩ | ⟨_, _, ret, s', v, h, hf, hv⟩ <;> rw [h]
  · exact refl s a
  · exact fork hf hv

theorem reap (s : Sys) (a : Svdef) (which : Which) (wstat : ℕ) (hp : 0 < (a.sv which).pid) :
    Tells s a ((s.waited (a.sv which).pid).emitSv a (.reap which wstat))
      (a.setSv which (reapedSv (a.sv which) wstat)) := by
  have hrun : unreaped.run ((s.waited (a.sv which).pid).emitSv a (.reap which wstat)).trace =
      Function.update (unreaped.run s.trace) (a.sv which).pid none :=
    Monitor.run_concat _ _ _
  refine ⟨fun h => ⟨?_, (along_concat _ _).mpr ⟨h.lawful, trivial⟩, ?_⟩, fun h p c hc hk => ?_,
    by simp⟩
  · intro p
    rw [hrun]
    change _ = Function.update s.children (a.sv which).pid none p
    by_cases hpp : p = (a.sv which).pid
    · subst hpp
      simp
    · rw [Function.update_of_ne hpp, Function.update_of_ne hpp]
      exact h.accurate p
  · intro w hw
    have hne : which ≠ w := by
      rintro rfl
      simp at hw
    simp only [Svdef.setSv_sv, hne, ↓reduceIte] at hw ⊢
    have hr := h.running w hw
    have hpp : (a.sv w).pid ≠ (a.sv which).pid := by
      intro he
      rw [he, h.running which hp] at hr
      simp [hne] at hr
    rw [hrun, Function.update_of_ne hpp]
    simpa using hr
  · have hpp : p ≠ (a.sv which).pid := by
      rintro rfl
      rw [h.running which hp] at hc
      exact hk (congrArg Child.key (Option.some.inj hc)).symm
    rw [hrun, Function.update_of_ne hpp]
    exact hc

theorem checkfailOne (s : Sys) (a : Svdef) (which : Which) :
    Tells s a (checkfailOne s a which).1 (checkfailOne s a which).2 := by
  unfold PerpdSvdef.checkfailOne
  split
  · exact run _ _ _ _
  · exact refl s a

theorem startFlags (s : Sys) (a : Svdef) (which : Which) (cmd : Cmd) :
    Tells s a s (startFlags a which cmd) := by
  refine flag s (startFlags_key a which cmd) (fun w => ?_) fun w => ?_ <;> by_cases h : which = w
  · subst h
    simp
  · rw [startFlags_other _ _ _ _ h]
  · subst h
    simp
  · rw [startFlags_other _ _ _ _ h]

theorem entryStep (hs : EntryStep s a t b) : Tells s a t b := by
  cases hs with
  | reap which wstat hp hw =>
    have h0 := reap s a which wstat hp
    rcases reaped_cases (s.waited (a.sv which).pid) a which wstat with
      ⟨_, he⟩ | ⟨_, _, he⟩ | ⟨_, _, rfl, _, _, hl, he⟩ | ⟨_, _, _, he⟩ <;> rw [he]
    · exact h0.trans (run _ _ _ _)
    · exact h0.trans (run _ _ _ _)
    · exact h0.trans (calm (.reapedShutdown _ _ (by simpa using hl)))
    · exact h0
  | checkfail =>
    have h0 := emit s a (.sv a .checkfail) (fun _ => rfl) fun _ => trivial
    rcases checkfail_cases s a with ⟨_, he⟩ | ⟨_, _, he⟩ | ⟨_, _, he⟩ <;> rw [he]
    · exact h0
    · exact h0.trans (checkfailOne _ _ _)
    · exact (h0.trans (checkfailOne _ _ _)).trans (checkfailOne _ _ _)
  | start which cmd hc hm =>
    have h0 := emit s a (.sv a (.control which cmd)) (fun _ => rfl) fun _ => trivial
    have h1 := h0.trans (startFlags _ a which cmd)
    rcases start_cases s a which cmd with ⟨_, he⟩ | ⟨_, he⟩ <;> rw [he]
    · exact h1.trans (run _ _ _ _)
    · exact h1
  | calm s' sd' hs => exact calm (.of_calmStep hs)

theorem put (s : Sys) (a : Svdef) (w : Which) (f : SubsvFlag) (hf : f ≠ .isreset) :
    Tells s a s (a.setSv w ((a.sv w).put f)) := by
  refine flag s (Svdef.setSv_key a w _) (fun x => ?_) fun x => ?_ <;> rw [Svdef.setSv_sv] <;> split
  · next h => rw [← h, Subsv.put_pid]
  · rfl
  · next h => rw [← h, Subsv.put_has, decide_eq_false hf, Bool.false_or]
  · rfl

theorem firstStart (s : Sys) (a : Svdef) : Tells s a (firstStart s a).1 (firstStart s a).2 := by
  have hlog : Tells s a (startLog s a).1 (startLog s a).2 := by
    unfold startLog
    split
    · exact (put s a .log .islog (by simp)).trans (run _ _ _ _)
    · exact refl s a
  have hmain (t : Sys) (b : Svdef) : Tells t b (startMain t b).1 (startMain t b).2 := by
    unfold startMain
    split
    · refine Tells.trans ?_ (run _ _ _ _)
      split
      · exact put t b .main .isonce (by simp)
      · exact refl t b
    · exact put t b .main .wantdown (by simp)
  rw [firstStart_eq]
  exact hlog.trans (hmain _ _)

end Tells

/-- An event that is about no child. -/
def Mute : Event → Prop
  | .sv _ (.fork _ _ _ _ _ _ _) | .sv _ (.reap _ _) | .sv _ (.kill _ _ _) => False
  | _ => True

/-- Between `s` and `s'` nothing happens to a child. -/
structure Mutes (s s' : Sys) : Prop where
  grows : Within Mute s s'
  children : s'.children = s.children

namespace Mutes
variable {s t u : Sys}

theorem trans (h : Mutes s t) (h' : Mutes t u) : Mutes s u :=
  ⟨h.grows.trans h'.grows, h'.children.trans h.children⟩

theorem emit (s : Sys) (e : Event) (he : Mute e) : Mutes s (s.emit e) := ⟨.emit s e he, rfl⟩

theorem close (s : Sys) (fd : ℕ) : Mutes s (s.close fd) := ⟨.close s fd fun _ => trivial, rfl⟩

theorem opened (s : Sys) (fd : ℕ) (o : Obj) : Mutes s (opened s fd o) :=
  ⟨.opened s fd o trivial, rfl⟩

theorem begun (s : Sys) : Mutes s (begun s) :=
  ⟨⟨[], by simp [PerpdActivate.begun, Sys.tainNow]⟩, rfl⟩

theorem failed {key : Key} (h : Failed s key t) : Mutes s t := by
  cases h with
  | long => exact ⟨⟨[], by simp⟩, rfl⟩
  | nodir => exact begun s
  | nopipe fd h => exact ((begun s).trans (opened _ fd _)).trans (close _ fd)

theorem ready {key : Key} {sd : Svdef} (h : Opened s key sd t) : Mutes s t := by
  cases h with
  | plain => exact (begun s).trans (opened _ _ _)
  | logged => exact (((begun s).trans (opened _ _ _)).trans (opened _ _ _)).trans (opened _ _ _)

theorem idle (h : Idle s t) : Mutes s t := by
  obtain ⟨evs, ht, hp⟩ := h.grows
  refine ⟨⟨evs, ht, fun e he => ?_⟩, h.children⟩
  have := hp e he
  unfold Mute
  split <;> first | exact this | trivial

theorem terminated (s : Sys) : Mutes s (terminated s) :=
  ⟨⟨[.term, .closed s.fdListen (s.fds s.fdListen)],
    by simp [PerpdMoves.terminated, Sys.close, Sys.emit], by simp [Mute]⟩, rfl⟩

theorem unreaped_eq (h : Mutes s t) : unreaped.run t.trace = unreaped.run s.trace := by
  obtain ⟨evs, ht, hm⟩ := h.grows
  rw [ht]
  refine Monitor.run_append_of_ignored _ _ _ fun e he q => ?_
  have := hm e he
  unfold Mute at this
  unfold unreaped
  dsimp only
  split <;> first | rfl | exact this.elim

theorem accurate (h : Mutes s t) (ha : Accurate s) : Accurate t := by
  intro p
  rw [h.unreaped_eq, h.children]
  exact ha p

theorem lawful (h : Mutes s t) (hl : Along Signals s.trace) : Along Signals t.trace := by
  obtain ⟨evs, ht, hm⟩ := h.grows
  rw [ht]
  refine hl.append_free fun e he past => ?_
  have := hm e he
  unfold Signals
  split
  · exact this.elim
  · trivial

end Mutes

/-- Of every entry the trace tells what its processes are. -/
structure AllTold (t : Table) : Prop where
  accurate : Accurate t.sys
  lawful : Along Signals t.sys.trace
  running : ∀ sd ∈ t.svdefs, ∀ w, 0 < (sd.sv w).pid →
    unreaped.run t.sys.trace (sd.sv w).pid = some ⟨sd.key, w, targetOf (sd.sv w)⟩

theorem AllTold.told {t : Table} (h : AllTold t) {sd : Svdef} (hsd : sd ∈ t.svdefs) :
    Told t.sys sd :=
  ⟨h.accurate, h.lawful, h.running sd hsd⟩

theorem AllTold.mutes {t t' : Table} (h : AllTold t) (hm : Mutes t.sys t'.sys)
    (hl : ∀ sd ∈ t'.svdefs, sd ∈ t.svdefs) : AllTold t' := by
  refine ⟨hm.accurate h.accurate, hm.lawful h.lawful, fun sd hsd w hw => ?_⟩
  rw [hm.unreaped_eq]
  exact h.running sd (hl sd hsd) w hw

theorem Tells.elsewhere {s s' : Sys} {sd sd' x : Svdef} (h : Tells s sd s' sd') (ht : Told s sd)
    (hx : Told s x) (hk : x.key ≠ sd.key) (w : Which) (hw : 0 < (x.sv w).pid) :
    unreaped.run s'.trace (x.sv w).pid = some ⟨x.key, w, targetOf (x.sv w)⟩ :=
  h.others ht _ _ (hx.running w hw) hk

theorem AllTold.move {t t' : Table} (ht : TableOk t) (hm : Move t t') (h : AllTold t) :
    AllTold t' := by
  cases hm with
  | entry i sd s' sd' hi hs hterm =>
    have hsd := h.told (List.mem_of_getElem? hi)
    have htells := Tells.entryStep hs
    have hsd' := htells.told hsd
    refine ⟨hsd'.accurate, hsd'.lawful, fun x hx => ?_⟩
    rcases mem_set_cases hx with rfl | ⟨j, hji, hj⟩
    · exact hsd'.running
    · exact htells.elsewhere hsd (h.told (List.mem_of_getElem? hj))
        (Ne.symm (key_ne_of_ne ht.nodup hi hj hji))
  | activate svdir st d s' sd hnew hroom hterm ha =>
    have hnk := lookup_eq_none hnew
    obtain ⟨sd0, s1, ho, rfl, rfl⟩ := activate_some ha
    have hm : Mutes t.sys (s1.emitSv sd0 (.activate t.sys.serial)) :=
      (Mutes.ready ho).trans (.emit _ _ trivial)
    have h0 : Told (s1.emitSv sd0 (.activate t.sys.serial)) sd0 := by
      refine ⟨hm.accurate h.accurate, hm.lawful h.lawful, fun w hw => ?_⟩
      simp [ho.blank.sv w] at hw
    have htells := Tells.firstStart (s1.emitSv sd0 (.activate t.sys.serial)) sd0
    have h2 := htells.told h0
    refine ⟨h2.accurate, h2.lawful, fun x hx => ?_⟩
    rcases List.mem_append.mp hx with hx | hx
    · have hxt : Told (s1.emitSv sd0 (.activate t.sys.serial)) x := by
        refine ⟨h0.accurate, h0.lawful, fun w hw => ?_⟩
        rw [hm.unreaped_eq]
        exact h.running x hx w hw
      refine htells.elsewhere h0 hxt fun hk => hnk ?_
      rw [← ho.blank.key, ← hk]
      exact List.mem_map_of_mem hx
    · obtain rfl := List.mem_singleton.mp hx
      simpa only [Svdef.put_sv, Svdef.put_key] using h2.running
  | activateFail svdir st d s' hnew ha => exact h.mutes (.failed (activateFail_frame ha)) fun _ => id
  | cull i sd hi hc =>
    refine h.mutes ((Mutes.emit _ (.sv sd .cull) trivial).trans (.close _ _)) fun x hx => ?_
    exact (swapRemove_perm _ _ _ hi).mem_iff.mpr (List.mem_cons_of_mem _ hx)
  | accept fd hf => exact h.mutes (.opened _ _ _) fun _ => id
  | drop fd conns hc => exact h.mutes (.close _ _) fun _ => id
  | term hterm => exact h.mutes (.terminated _) fun _ => id
  | idle s' hi => exact h.mutes (.idle hi) fun _ => id

theorem allTold_inv (cfg : Config) : TableInv cfg (fun _ _ => True) AllTold where
  start := by
    constructor
    · intro p
      simp [table, perpdStart, perpdTriggerScan, Sys.selfpipePing, unreaped]
    · simp [table]
    · simp [table, perpdStart]
  step ht hm _ h := h.move ht hm

theorem run_allTold (cfg : Config) (inputs : List IterIn) :
    AllTold (table (perpdRun cfg inputs)) :=
  (allTold_inv cfg).run inputs fun _ _ _ _ => trivial

/-- Every signal goes to a child that is recorded and not yet reaped, and to one
that runs its reset only SIGCONT or SIGKILL. -/
theorem signals_reach_children (cfg : Config) (inputs : List IterIn) :
    Along Signals (perpdRun cfg inputs).sys.trace :=
  (run_allTold cfg inputs).lawful

/-- An entry that is removed has no process. -/
def RemovesDead : Event → Prop
  | .sv sd .cull => sd.has .cull = true ∧ ∀ w, (sd.sv w).pid = 0
  | _ => True

theorem removesDead_inner {e : Event} (h : Inner e) : RemovesDead e := by
  unfold RemovesDead
  split
  · exact h.elim
  · trivial

theorem cullok_dead {s : Sys} {sd : Svdef} (h : SvOk s sd) (hc : perpdSvdefCullok sd = true) :
    sd.has .cull = true ∧ ∀ w, (sd.sv w).pid = 0 := by
  obtain ⟨hcull, hm, hl⟩ := (cullok_iff sd).mp hc
  refine ⟨hcull, fun w => ?_⟩
  cases w with
  | main => exact hm
  | log =>
    cases hh : sd.has .haslog with
    | true => exact hl hh
    | false => exact (h.nolog hh).1

theorem removesDead_inv (cfg : Config) :
    TableInv cfg (fun _ _ => True) (fun t => ∀ e ∈ t.sys.trace, RemovesDead e) where
  start := by simp [table]
  step {t t'} ht hm _ h := by
    have hadd (evs : List Event) (he : t'.sys.trace = t.sys.trace ++ evs)
        (hd : ∀ e ∈ evs, RemovesDead e) : ∀ e ∈ t'.sys.trace, RemovesDead e := by
      rw [he]
      exact fun e hm => (List.mem_append.mp hm).elim (h e) (hd e)
    have hin (hi : Inside t.sys t'.sys) : ∀ e ∈ t'.sys.trace, RemovesDead e := by
      obtain ⟨evs, he, hd⟩ := hi
      exact hadd evs he fun e hm => removesDead_inner (hd e hm)
    cases hm with
    | entry i sd s' sd' hi hs hterm => exact hin (entryStep_inside hs)
    | activate svdir st d s' sd hnew hroom hterm ha =>
      obtain ⟨sd0, s1, ho, rfl, -⟩ := activate_some ha
      obtain ⟨a, hta, hda⟩ := opened_inside ho
      obtain ⟨b, htb, hdb⟩ :=
        (Still.firstStart (s1.emitSv sd0 (.activate t.sys.serial)) sd0).inside
      refine hadd (a ++ .sv sd0 (.activate t.sys.serial) :: b) ?_ fun e he => ?_
      · change (firstStart _ _).1.trace = _
        rw [htb, Sys.emitSv, Sys.emit, hta]
        simp
      · rcases List.mem_append.mp he with he | he
        · exact removesDead_inner (hda e he)
        rcases List.mem_cons.mp he with rfl | he
        · trivial
        · exact removesDead_inner (hdb e he)
    | activateFail svdir st d s' hnew ha => exact hin (failed_inside (activateFail_frame ha))
    | cull i sd hi hc =>
      refine hadd [.sv sd .cull, .closed sd.fdDir (t.sys.fds sd.fdDir)] ?_ ?_
      · simp [perpdSvdefClose, Sys.close, Sys.emitSv, Sys.emit]
      · simpa [RemovesDead] using cullok_dead (ht.ok sd (List.mem_of_getElem? hi)) hc
    | accept fd hf => exact hin (.opened _ _ _ trivial)
    | drop fd conns hc => exact hin (.close _ _ fun _ => trivial)
    | term hterm =>
      refine hadd [.term, .closed t.sys.fdListen (t.sys.fds t.sys.fdListen)] ?_ ?_
      · simp [terminated, Sys.close, Sys.emit]
      · simp [RemovesDead]
    | idle s' hi =>
      obtain ⟨evs, he, hp⟩ := hi.grows
      refine hadd evs he fun e hm => ?_
      have := hp e hm
      unfold RemovesDead
      split
      · exact this.elim
      · trivial

/-- The table and the unreaped children correspond. -/
structure SlotsExact (w : Perpd) : Prop where
  size : w.svdefs.length ≤ perpMax
  distinct : (w.svdefs.map Svdef.key).Nodup
  known : Accurate w.sys
  recorded : ∀ p, w.sys.children p ≠ none → ∃! slot : ℕ × Which, ∃ sd,
    w.svdefs[slot.1]? = some sd ∧ (sd.sv slot.2).pid = p
  alive : ∀ sd ∈ w.svdefs, ∀ which, 0 < (sd.sv which).pid →
    w.sys.children (sd.sv which).pid = some (sd.key, which)
  nolog : ∀ sd ∈ w.svdefs, sd.has .haslog = false → sd.svLog.pid = 0

theorem recorded_once {t : Table} (h : TableOk t) {p : ℕ} (hp : t.sys.children p ≠ none) :
    ∃! slot : ℕ × Which, ∃ sd, t.svdefs[slot.1]? = some sd ∧ (sd.sv slot.2).pid = p := by
  obtain ⟨⟨k, w⟩, hc⟩ := Option.ne_none_iff_exists'.mp hp
  have hk : k ∈ t.svdefs.map Svdef.key := by
    by_contra hk
    exact h.orphans k hk p w hc
  obtain ⟨sd, hsd, rfl⟩ := List.mem_map.mp hk
  obtain ⟨i, hi⟩ := List.getElem?_of_mem hsd
  obtain ⟨hpos, hpid⟩ := (h.ok sd hsd).slot p w hc
  refine ⟨(i, w), ⟨sd, hi, hpid⟩, ?_⟩
  rintro ⟨j, x⟩ ⟨sd', hj, hpid'⟩
  -- the child has one owner, and so has the other slot
  have hown : t.sys.children (sd'.sv x).pid = some (sd'.key, x) := by
    refine (h.ok sd' (List.mem_of_getElem? hj)).owned x ?_
    change (sd'.sv x).pid = p at hpid'
    omega
  change (sd'.sv x).pid = p at hpid'
  rw [hpid', hc] at hown
  obtain ⟨hkey, rfl⟩ := Prod.mk.inj (Option.some.inj hown)
  by_cases hji : j = i
  · rw [hji]
  · exact absurd hkey (key_ne_of_ne h.nodup hi hj hji)

/-- In every run the table records each unreaped child once and nothing else, no
entry that has a process is removed, and `perpd_cull()` leaves none that is ready. -/
theorem slots_exact (cfg : Config) (inputs : List IterIn) :
    SlotsExact (perpdRun cfg inputs) ∧ (∀ e ∈ (perpdRun cfg inputs).sys.trace, RemovesDead e) ∧
      ∀ (s : Sys) (svdefs : List Svdef),
        (perpdCull s svdefs).2.Perm (svdefs.filter (fun sd => !perpdSvdefCullok sd)) := by
  have h := (run_phase cfg inputs).ok.ok
  refine ⟨⟨h.size, h.nodup, (run_allTold cfg inputs).accurate, fun p => recorded_once h,
    fun sd hsd => (h.ok sd hsd).owned, fun sd hsd hl => ((h.ok sd hsd).nolog hl).1⟩, ?_, cull_perm⟩
  exact (removesDead_inv cfg).run inputs fun _ _ _ _ => trivial

end Perp.PerpdChildren
