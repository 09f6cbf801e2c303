import Perp.PerpdCycle

set_option autoImplicit false

/-!
# A scan reconciles the table with the directory

The walk keeps the entries it meets and adds new ones. The pass after it
deactivates the entries that were not met, and removes those that have ended.
-/
namespace Perp.PerpdReconcile
open PerpdState PerpdSvdef PerpdConn PerpdMainloop PerpdFrame PerpdEntry PerpdEffect PerpdSlots
  PerpdActivate PerpdMoves PerpdCompact PerpdStill PerpdPhases PerpdWalk PerpdRuns PerpdClient
  PerpdLeft PerpdCycle

/-- What the pass after the walk makes of an entry. -/
inductive Swept : Svdef → Svdef → Prop where
  | met (sd : Svdef) (ha : sd.has .active = true) : Swept sd sd
  | left (s : Sys) (sd : Svdef) (ha : sd.has .active = false) (hc : sd.has .cull = false) :
      Swept sd (perpdSvdefWantcull s sd).1.2
  | culled (sd : Svdef) (ha : sd.has .active = false) (hc : sd.has .cull = true) :
      Swept sd (sd.drop .cycle)

theorem Swept.key {sd sd' : Svdef} (h : Swept sd sd') : sd'.key = sd.key := by
  cases h with
  | met => rfl
  | left s sd => exact (Kept.wantcull s sd).key
  | culled => rfl

/-- Signals go to entries that were not met and are deactivated now. -/
def Warns (svdefs : List Svdef) : Event → Prop
  | .sv x (.kill _ _ _) =>
    ∃ sd ∈ svdefs, sd.key = x.key ∧ sd.has .active = false ∧ sd.has .cull = false
  | .sv _ (.activate _) => False
  | _ => True

theorem wantcull_warns {s : Sys} {sd : Svdef} {svdefs : List Svdef} (hsd : sd ∈ svdefs)
    (ha : sd.has .active = false) (hc : sd.has .cull = false) :
    Within (Warns svdefs) s (perpdSvdefWantcull s sd).1.1 := by
  have hkill (s : Sys) (x : Svdef) (hx : x.key = sd.key) (w : Which) (p : ℤ) (sig : Signal) :
      Within (Warns svdefs) s (kill s x w p sig) := .emit s _ ⟨sd, hsd, hx.symm, ha, hc⟩
  have h0 : Within (Warns svdefs) s (s.emitSv sd .wantcull) := .emit s _ trivial
  have hk := (cullFlags_same sd).1
  rcases wantcull_cases s sd with ⟨_, he⟩ | ⟨_, _, _, he⟩ | ⟨_, _, he⟩ <;> rw [he]
  · refine Within.trans ?_ (hkill _ _ (by simpa using hk) _ _ _)
    split
    · exact h0.trans (hkill _ _ hk _ _ _)
    · exact h0
  · refine Within.trans ?_ (hkill _ _ (by simpa using hk) _ _ _)
    split
    · refine Within.trans ?_ (hkill _ _ hk _ _ _)
      exact h0.trans (.closeLogpipe _ _ (fun _ _ => trivial) fun _ _ => trivial)
    · exact h0
  · exact h0

theorem scanCull_swept (left i gotCull : ℕ) (s : Sys) (svdefs : List Svdef)
    (hlen : i + left = svdefs.length) :
    let r := perpdScanCull left i gotCull s svdefs
    r.1.2.length = svdefs.length ∧ Within (Warns svdefs) s r.1.1 ∧
      ∀ j x, svdefs[j]? = some x →
        ∃ x', r.1.2[j]? = some x' ∧ (j < i → x' = x) ∧ (i ≤ j → Swept x x') := by
  induction left generalizing i gotCull s svdefs with
  | zero =>
    refine ⟨rfl, .refl s, fun j x hj => ⟨x, hj, fun _ => rfl, fun hij => ?_⟩⟩
    have := (List.getElem?_eq_some_iff.mp hj).1
    omega
  | succ left ih =>
    unfold perpdScanCull
    split
    · next hi =>
      rw [List.getElem?_eq_none_iff] at hi
      omega
    next sd hi =>
    have hmem := List.mem_of_getElem? hi
    have hlt := (List.getElem?_eq_some_iff.mp hi).1
    -- the entry at `i` becomes `sd'`, and the pass goes on behind it
    have hgo {s1 : Sys} {sd' : Svdef} (n : ℕ) (hs : Swept sd sd') (hc : sd'.has .cull = true)
        (hw : Within (Warns svdefs) s s1) :
        let r := perpdScanCull left (i + 1) n s1 (svdefs.set i sd')
        r.1.2.length = svdefs.length ∧ Within (Warns svdefs) s r.1.1 ∧
          ∀ j x, svdefs[j]? = some x →
            ∃ x', r.1.2[j]? = some x' ∧ (j < i → x' = x) ∧ (i ≤ j → Swept x x') := by
      obtain ⟨h1, h2, h3⟩ := ih (i + 1) n s1 (svdefs.set i sd') (by simp; omega)
      refine ⟨by simpa using h1, hw.trans (h2.mono ?_), fun j x hj => ?_⟩
      · intro e he
        unfold Warns at he ⊢
        split at he
        · obtain ⟨y, hy, hk, ha, hcy⟩ := he
          rcases mem_set_cases hy with rfl | ⟨j, _, hj⟩
          · rw [hc] at hcy
            simp at hcy
          · exact ⟨y, List.mem_of_getElem? hj, hk, ha, hcy⟩
        · exact he
        · trivial
      · by_cases hji : j = i
        · subst hji
          obtain rfl := Option.some.inj (hi.symm.trans hj)
          obtain ⟨x', hx', heq, _⟩ := h3 j sd' (List.getElem?_set_self hlt)
          rw [heq (by omega)] at hx'
          exact ⟨sd', hx', fun h => absurd h (lt_irrefl j), fun _ => hs⟩
        · obtain ⟨x', hx', heq, hsw⟩ := h3 j x (by rwa [List.getElem?_set_ne (Ne.symm hji)])
          exact ⟨x', hx', fun h => heq (by omega), fun h => hsw (by omega)⟩
    split
    · next ha =>
      obtain ⟨h1, h2, h3⟩ := ih (i + 1) gotCull s svdefs (by omega)
      refine ⟨h1, h2, fun j x hj => ?_⟩
      obtain ⟨x', hx', heq, hsw⟩ := h3 j x hj
      refine ⟨x', hx', fun h => heq (by omega), fun h => ?_⟩
      by_cases hji : j = i
      · subst hji
        obtain rfl := Option.some.inj (hi.symm.trans hj)
        rw [heq (by omega)]
        exact .met sd ha
      · exact hsw (by omega)
    next hna =>
    have ha : sd.has .active = false := by simpa using hna
    split
    · next hc =>
      exact hgo _ (.left s sd ha hc) (by simp) (wantcull_warns hmem ha hc)
    · next hc =>
      have hc' : sd.has .cull = true := by simpa using hc
      exact hgo _ (.culled sd ha hc') (by simpa using hc') (.refl s)

/-- The pass as a whole. -/
structure Passed (svdefs svdefs' : List Svdef) : Prop where
  into : ∀ x ∈ svdefs, ∃ y ∈ svdefs', Swept x y
  origin : ∀ y ∈ svdefs', ∃ x ∈ svdefs, Swept x y
  keys : svdefs'.map Svdef.key = svdefs.map Svdef.key

theorem scanCull_passed (s : Sys) (svdefs : List Svdef) :
    let r := perpdScanCull svdefs.length 0 0 s svdefs
    Passed svdefs r.1.2 ∧ Within (Warns svdefs) s r.1.1 := by
  obtain ⟨hlen, hwarn, hswept⟩ := scanCull_swept svdefs.length 0 0 s svdefs (by simp)
  have hat (j : ℕ) (x : Svdef) (hj : svdefs[j]? = some x) :
      ∃ y, (perpdScanCull svdefs.length 0 0 s svdefs).1.2[j]? = some y ∧ Swept x y := by
    obtain ⟨y, hy, _, hs⟩ := hswept j x hj
    exact ⟨y, hy, hs (Nat.zero_le j)⟩
  refine ⟨⟨fun x hx => ?_, fun y hy => ?_, List.ext_getElem? fun j => ?_⟩, hwarn⟩
  · obtain ⟨j, hj⟩ := List.getElem?_of_mem hx
    obtain ⟨y, hy, hs⟩ := hat j x hj
    exact ⟨y, List.mem_of_getElem? hy, hs⟩
  · obtain ⟨j, hj⟩ := List.getElem?_of_mem hy
    have hlt : j < svdefs.length := hlen ▸ (List.getElem?_eq_some_iff.mp hj).1
    obtain ⟨y', hy', hs⟩ := hat j _ (List.getElem?_eq_getElem hlt)
    rw [hj] at hy'
    obtain rfl := Option.some.inj hy'
    exact ⟨_, List.getElem_mem hlt, hs⟩
  · by_cases hlt : j < svdefs.length
    · obtain ⟨y, hy, hs⟩ := hat j _ (List.getElem?_eq_getElem hlt)
      simp only [List.getElem?_map, hy, List.getElem?_eq_getElem hlt, Option.map_some, hs.key]
    · rw [List.getElem?_eq_none (by simpa [hlen] using hlt),
        List.getElem?_eq_none (by simpa using hlt)]

/-- All of the entry but its name and its mark is as it was. -/
structure Unchanged (sd sd' : Svdef) : Prop where
  key : sd'.key = sd.key
  fdDir : sd'.fdDir = sd.fdDir
  logpipe0 : sd'.logpipe0 = sd.logpipe0
  logpipe1 : sd'.logpipe1 = sd.logpipe1
  when : sd'.when = sd.when
  sv : ∀ w, sd'.sv w = sd.sv w
  flags : ∀ f, f ≠ .active → sd'.has f = sd.has f

/-- The table and the events after a scan that has read these names. -/
structure Reconciled (dirents : List Dirent) (s : Sys) (svdefs : List Svdef) (s' : Sys)
    (svdefs' : List Svdef) : Prop where
  nodup : (svdefs'.map Svdef.key).Nodup
  kept : ∀ sd ∈ svdefs, sd.has .cull = false → sd.key ∈ listed dirents →
    ∃ sd' ∈ svdefs', Unchanged sd sd' ∧ sd'.has .active = true
  departed : ∀ sd ∈ svdefs, sd.has .cull = false → sd.key ∉ listed dirents →
    (∃ sd' ∈ svdefs', sd'.key = sd.key ∧ sd'.has .cull = true ∧
      ∀ w, (w = .log → sd.has .haslog = true) → (sd'.sv w).has .wantdown = true) ∨
    (sd.key ∉ svdefs'.map Svdef.key ∧ ∀ w, (sd.sv w).pid = 0)
  culling : ∀ sd ∈ svdefs, sd.has .cull = true → ∀ sd' ∈ svdefs', sd'.key = sd.key →
    sd'.has .cull = true ∧ (sd'.has .cycle = true ↔ sd.key ∈ listed dirents)
  only : ∀ sd' ∈ svdefs', sd'.key ∈ svdefs.map Svdef.key ∨
    (sd'.key ∈ listed dirents ∧ sd'.has .active = true ∧ sd'.has .cull = false)
  met : ∀ pre d post st, dirents = pre ++ d :: post → perpdSvdirStat d = some st →
    let r := (perpdScanLoop pre 0 (s.emit .scan) (svdefs.map (·.drop .active))).1
    (st.dev, st.ino) ∉ r.2.map Svdef.key →
    if r.2.length < perpMax ∧ (perpdSvdefActivate r.1 d.name st d.act).2.isSome then
      (st.dev, st.ino) ∉ svdefs.map Svdef.key ∧ (st.dev, st.ino) ∈ svdefs'.map Svdef.key
    else 0 < s'.flagHup ∧ 0 < s'.selfpipe
  /-- Signals go to what departs, and what joins the table is activated once. -/
  events : ∃ evs, s'.trace = s.trace ++ evs ∧
    (∀ x w p sig, .sv x (.kill w p sig) ∈ evs →
      ∃ sd ∈ svdefs, sd.key = x.key ∧ sd.has .cull = false ∧ sd.key ∉ listed dirents) ∧
    ∀ k, activations k evs =
      if k ∉ svdefs.map Svdef.key ∧ k ∈ svdefs'.map Svdef.key then 1 else 0

theorem scanLoop_append (pre post : List Dirent) (gotFail : ℕ) (s : Sys) (svdefs : List Svdef) :
    perpdScanLoop (pre ++ post) gotFail s svdefs =
      let r := perpdScanLoop pre gotFail s svdefs
      perpdScanLoop post r.2 r.1.1 r.1.2 := by
  induction pre generalizing gotFail s svdefs with
  | nil => rfl
  | cons d pre ih =>
    simp only [List.cons_append, perpdScanLoop]
    split
    · exact ih _ _ _
    split
    · exact ih _ _ _
    split
    · exact ih _ _ _
    split
    · exact ih _ _ _
    · exact ih _ _ _

theorem scanLoop_fails (dirents : List Dirent) (gotFail : ℕ) (s : Sys) (svdefs : List Svdef) :
    gotFail ≤ (perpdScanLoop dirents gotFail s svdefs).2 := by
  induction dirents generalizing gotFail s svdefs with
  | nil => exact le_refl _
  | cons d dirents ih =>
    unfold perpdScanLoop
    dsimp only
    split
    · exact ih _ _ _
    split
    · exact ih _ _ _
    split
    · exact (Nat.le_succ _).trans (ih _ _ _)
    split
    · exact (Nat.le_succ _).trans (ih _ _ _)
    · exact ih _ _ _

theorem scanLoop_met {pre : List Dirent} (post : List Dirent) {d : Dirent} {st : Stat} {s : Sys}
    {svdefs : List Svdef} (hn : (svdefs.map Svdef.key).Nodup) (hst : perpdSvdirStat d = some st)
    (hk : (st.dev, st.ino) ∉ (perpdScanLoop pre 0 s svdefs).1.2.map Svdef.key) :
    let r := (perpdScanLoop pre 0 s svdefs).1
    let t := perpdScanLoop (pre ++ d :: post) 0 s svdefs
    if r.2.length < perpMax ∧ (perpdSvdefActivate r.1 d.name st d.act).2.isSome then
      (st.dev, st.ino) ∉ svdefs.map Svdef.key ∧ (st.dev, st.ino) ∈ t.1.2.map Svdef.key
    else 0 < t.2 := by
  obtain ⟨hw, hnr⟩ := Walked.scanLoop pre 0 s svdefs hn
  intro r t
  have ht : t = perpdScanLoop (d :: post) (perpdScanLoop pre 0 s svdefs).2 r.1 r.2 :=
    scanLoop_append pre (d :: post) 0 s svdefs
  have hlk : perpdLookup r.2 st.dev st.ino = none := by
    cases hl : perpdLookup r.2 st.dev st.ino with
    | none => rfl
    | some i =>
      obtain ⟨sd, hi, hkey⟩ := lookup_some hl
      exact absurd (hkey ▸ List.mem_map_of_mem (List.mem_of_getElem? hi)) hk
  rw [ht]
  unfold perpdScanLoop
  simp only [hst, hlk]
  by_cases hroom : r.2.length < perpMax
  · cases ha : perpdSvdefActivate r.1 d.name st d.act with
    | mk s1 ret =>
      cases ret with
      | none =>
        simp only [hroom, not_true_eq_false, ↓reduceIte, Option.isSome_none, Bool.false_eq_true,
          and_false]
        exact (Nat.succ_pos _).trans_le (scanLoop_fails _ _ _ _)
      | some sd =>
        simp only [hroom, not_true_eq_false, ↓reduceIte, Option.isSome_some, and_self]
        obtain ⟨h2, _⟩ := Walked.scanLoop post (perpdScanLoop pre 0 s svdefs).2 s1 _
          (Walked.activate_nodup hnr hk ha)
        obtain ⟨x, hx, hm⟩ := h2.old (sd.put .active) (by simp)
        refine ⟨fun hold => ?_, ?_⟩
        · obtain ⟨y, hy, hyk⟩ := List.mem_map.mp hold
          obtain ⟨z, hz, hyz⟩ := hw.old y hy
          exact hk (hyk ▸ hyz.key ▸ List.mem_map_of_mem hz)
        · have hkx : x.key = (st.dev, st.ino) := by
            rw [hm.key, Svdef.put_key, Walked.activate_key ha]
          exact hkx ▸ List.mem_map_of_mem hx
  · simp only [hroom, not_false_eq_true, ↓reduceIte, false_and]
    exact (Nat.succ_pos _).trans_le (scanLoop_fails _ _ _ _)

theorem culled_if (b : Prop) [Decidable b] (s : Sys) (svdefs : List Svdef)
    (hn : (svdefs.map Svdef.key).Nodup) :
    let t := if b then perpdCull s svdefs else (s, svdefs)
    (t.2.map Svdef.key).Nodup ∧ (∀ x ∈ t.2, x ∈ svdefs) ∧
      (∀ x ∈ svdefs, perpdSvdefCullok x = false → x ∈ t.2) ∧ Within Tame s t.1 := by
  dsimp only
  split
  · have hp := cull_perm s svdefs
    refine ⟨?_, fun x hx => ?_, fun x hx hc => ?_, ?_⟩
    · rw [(hp.map Svdef.key).nodup_iff]
      exact hn.sublist (List.filter_sublist.map _)
    · exact (List.mem_filter.mp (hp.mem_iff.mp hx)).1
    · exact hp.mem_iff.mpr (List.mem_filter.mpr ⟨hx, by simp [hc]⟩)
    · obtain ⟨evs, ht, he⟩ := cullLoop_trace svdefs.length 0 s svdefs
      refine ⟨evs, ht, fun e hm => ?_⟩
      rcases he e hm with ⟨x, _, _, rfl⟩ | ⟨fd, o, rfl⟩ <;> trivial
  · exact ⟨hn, fun x hx => hx, fun x hx _ => hx, .refl s⟩

/-- The stages of a scan: `t1` is the table after the walk, `t2` after the pass,
and `t3` after the removal. -/
structure Stages (L : List Key) (s : Sys) (svdefs : List Svdef) (s1 : Sys) (t1 t2 t3 : List Svdef) :
    Prop where
  walked : Walked L s (svdefs.map (·.drop .active)) s1 t1
  nodup : (t1.map Svdef.key).Nodup
  passed : Passed t1 t2
  sub : ∀ x ∈ t3, x ∈ t2
  stay : ∀ x ∈ t2, perpdSvdefCullok x = false → x ∈ t3

namespace Stages
variable {L : List Key} {s s1 : Sys} {svdefs t1 t2 t3 : List Svdef} (h : Stages L s svdefs s1 t1 t2 t3)
include h

theorem into {sd : Svdef} (hsd : sd ∈ svdefs) :
    ∃ x y, x ∈ t1 ∧ Met (sd.key ∈ L) (sd.drop .active) x ∧ Swept x y ∧ y ∈ t2 := by
  obtain ⟨x, hx, hm⟩ := h.walked.old _ (List.mem_map_of_mem hsd)
  obtain ⟨y, hy, hs⟩ := h.passed.into x hx
  exact ⟨x, y, hx, hm, hs, hy⟩

theorem joined {x : Svdef} (hx : x ∈ t1) (hk : x.key ∉ svdefs.map Svdef.key) :
    x.key ∈ L ∧ x.has .active = true ∧ x.has .cull = false := by
  rcases h.walked.only x hx with ⟨sd0, hsd0, hm⟩ | ⟨hL, _, ha, hc⟩
  · obtain ⟨sd, hsd, rfl⟩ := List.mem_map.mp hsd0
    have hkey : x.key = sd.key := hm.key
    exact absurd (hkey ▸ List.mem_map_of_mem hsd) hk
  · exact ⟨hL, ha, hc⟩

theorem kept {sd : Svdef} (hsd : sd ∈ svdefs) (hc : sd.has .cull = false) (hL : sd.key ∈ L) :
    ∃ sd' ∈ t3, Unchanged sd sd' ∧ sd'.has .active = true := by
  obtain ⟨x, y, _, hm, hs, hy⟩ := h.into hsd
  have ha : x.has .active = true := hm.active.mpr (Or.inr hL)
  have hcx : x.has .cull = false := by
    rw [hm.flags .cull (by simp) (by simp)]
    simpa using hc
  cases hs with
  | left _ _ ha' _ => simp [ha] at ha'
  | culled _ ha' _ => simp [ha] at ha'
  | met =>
    refine ⟨x, h.stay x hy (by simp [perpdSvdefCullok, hcx]), ⟨hm.key, hm.fdDir, hm.logpipe0,
      hm.logpipe1, hm.when, fun w => (hm.sv w).trans (by simp), fun f hf => ?_⟩, ha⟩
    by_cases hcy : f = .cycle
    · subst hcy
      have := hm.cycle
      simp only [Svdef.drop_has, hc] at this
      exact Bool.eq_iff_iff.mpr (by simpa using this)
    · rw [hm.flags f hf hcy]
      simp [hf.symm]

theorem departed (hnolog : ∀ sd ∈ svdefs, sd.has .haslog = false → sd.svLog.pid = 0) {sd : Svdef}
    (hsd : sd ∈ svdefs) (hc : sd.has .cull = false) (hL : sd.key ∉ L) :
    (∃ sd' ∈ t3, sd'.key = sd.key ∧ sd'.has .cull = true ∧
      ∀ w, (w = .log → sd.has .haslog = true) → (sd'.sv w).has .wantdown = true) ∨
    (sd.key ∉ t3.map Svdef.key ∧ ∀ w, (sd.sv w).pid = 0) := by
  obtain ⟨x, y, hx, hm, hs, hy⟩ := h.into hsd
  have ha : x.has .active = false := by
    by_contra hn
    have := hm.active.mp (by simpa using hn)
    simp [hL] at this
  have hcx : x.has .cull = false := by
    rw [hm.flags .cull (by simp) (by simp)]
    simpa using hc
  have hlog : x.has .haslog = sd.has .haslog := by
    rw [hm.flags .haslog (by simp) (by simp)]
    simp
  cases hs with
  | met _ ha' => simp [ha] at ha'
  | culled _ _ hc' => simp [hcx] at hc'
  | left s0 =>
    have hk : (perpdSvdefWantcull s0 x).1.2.key = sd.key := (Kept.wantcull s0 x).key.trans hm.key
    have hpid (w : Which) : ((perpdSvdefWantcull s0 x).1.2.sv w).pid = (sd.sv w).pid := by
      rw [(Calm.wantcull s0 x).pid w, hm.sv w, Svdef.drop_sv]
    cases hok : perpdSvdefCullok (perpdSvdefWantcull s0 x).1.2 with
    | false =>
      exact Or.inl ⟨_, h.stay _ hy hok, hk, by simp, fun w hw =>
        wantcull_wantdown s0 x w (by rwa [hlog])⟩
    | true =>
      by_cases hin : (perpdSvdefWantcull s0 x).1.2 ∈ t3
      · exact Or.inl ⟨_, hin, hk, by simp, fun w hw => wantcull_wantdown s0 x w (by rwa [hlog])⟩
      refine Or.inr ⟨fun hmem => ?_, fun w => ?_⟩
      · obtain ⟨z, hz, hzk⟩ := List.mem_map.mp hmem
        have hn2 : (t2.map Svdef.key).Nodup := h.passed.keys ▸ h.nodup
        have := List.inj_on_of_nodup_map hn2 (h.sub z hz) hy (hzk.trans hk.symm)
        exact hin (this ▸ hz)
      · obtain ⟨_, hmain, hl⟩ := (cullok_iff _).mp hok
        cases w with
        | main => exact (hpid .main).symm.trans hmain
        | log =>
          by_cases hh : sd.has .haslog = true
          · exact (hpid .log).symm.trans (hl (by simp [hlog, hh]))
          · exact hnolog sd hsd (by simpa using hh)

theorem culling {sd sd' : Svdef} (hsd : sd ∈ svdefs) (hc : sd.has .cull = true)
    (hsd' : sd' ∈ t3) (hk : sd'.key = sd.key) :
    sd'.has .cull = true ∧ (sd'.has .cycle = true ↔ sd.key ∈ L) := by
  obtain ⟨x, y, hx, hm, hs, hy⟩ := h.into hsd
  have hn2 : (t2.map Svdef.key).Nodup := h.passed.keys ▸ h.nodup
  obtain rfl := List.inj_on_of_nodup_map hn2 (h.sub sd' hsd') hy
    (hk.trans (hm.key.symm.trans hs.key.symm))
  have hcx : x.has .cull = true := by
    rw [hm.flags .cull (by simp) (by simp)]
    simpa using hc
  have hax : x.has .active = true ↔ sd.key ∈ L := by
    rw [hm.active]
    simp
  cases hs with
  | met _ ha =>
    refine ⟨hcx, ?_⟩
    rw [hm.cycle]
    simp [hc, hax.mp ha]
  | left _ _ _ hc' => simp [hcx] at hc'
  | culled _ ha _ =>
    refine ⟨by simpa using hcx, ?_⟩
    rw [← hax, ha]
    simp

theorem only {sd' : Svdef} (hsd' : sd' ∈ t3) : sd'.key ∈ svdefs.map Svdef.key ∨
    (sd'.key ∈ L ∧ sd'.has .active = true ∧ sd'.has .cull = false) := by
  obtain ⟨x, hx, hs⟩ := h.passed.origin sd' (h.sub sd' hsd')
  by_cases hk : x.key ∈ svdefs.map Svdef.key
  · exact Or.inl (hs.key ▸ hk)
  obtain ⟨hL, ha, hc⟩ := h.joined hx hk
  cases hs with
  | met => exact Or.inr ⟨hL, ha, hc⟩
  | left _ _ ha' _ => simp [ha] at ha'
  | culled _ ha' _ => simp [ha] at ha'

theorem stays {k : Key} (hk : k ∈ t1.map Svdef.key) (hk' : k ∉ svdefs.map Svdef.key) :
    k ∈ t3.map Svdef.key := by
  obtain ⟨x, hx, rfl⟩ := List.mem_map.mp hk
  obtain ⟨_, ha, hc⟩ := h.joined hx hk'
  obtain ⟨y, hy, hs⟩ := h.passed.into x hx
  cases hs with
  | met => exact List.mem_map_of_mem (h.stay x hy (by simp [perpdSvdefCullok, hc]))
  | left _ _ ha' _ => simp [ha] at ha'
  | culled _ ha' _ => simp [ha] at ha'

theorem signals {x : Svdef} {w : Which} {p : ℤ} {sig : Signal}
    (hw : Warns t1 (.sv x (.kill w p sig))) :
    ∃ sd ∈ svdefs, sd.key = x.key ∧ sd.has .cull = false ∧ sd.key ∉ L := by
  obtain ⟨y, hy, hk, ha, hc⟩ := hw
  rcases h.walked.only y hy with ⟨sd0, hsd0, hm⟩ | ⟨_, _, ha', _⟩
  · obtain ⟨sd, hsd, rfl⟩ := List.mem_map.mp hsd0
    refine ⟨sd, hsd, ?_, ?_, fun hL => ?_⟩
    · rw [← hk, hm.key, Svdef.drop_key]
    · rw [hm.flags .cull (by simp) (by simp)] at hc
      simpa using hc
    · have := hm.active.mpr (Or.inr hL)
      simp [ha] at this
  · simp [ha] at ha'

theorem activations {k : Key} {ks : List Key}
    (hks : t1.map Svdef.key = (svdefs.map (·.drop .active)).map Svdef.key ++ ks) :
    ks.count k = if k ∉ svdefs.map Svdef.key ∧ k ∈ t3.map Svdef.key then 1 else 0 := by
  have hkeys : (svdefs.map (·.drop .active)).map Svdef.key = svdefs.map Svdef.key := by
    simp [Function.comp_def]
  rw [hkeys] at hks
  have hn := h.nodup
  rw [hks] at hn
  by_cases hk : k ∈ ks
  · have hnk : k ∉ svdefs.map Svdef.key := fun hold => (List.nodup_append.mp hn).2.2 k hold k hk rfl
    have hin : k ∈ t1.map Svdef.key := hks ▸ List.mem_append_right _ hk
    rw [if_pos ⟨hnk, h.stays hin hnk⟩]
    exact List.count_eq_one_of_mem hn.of_append_right hk
  · rw [List.count_eq_zero_of_not_mem hk, if_neg]
    rintro ⟨hnk, hin⟩
    obtain ⟨y, hy, rfl⟩ := List.mem_map.mp hin
    have hy1 : y.key ∈ t1.map Svdef.key := h.passed.keys ▸ List.mem_map_of_mem (h.sub y hy)
    rw [hks] at hy1
    exact (List.mem_append.mp hy1).elim hnk hk

end Stages

section Scan
variable {s : Sys} {svdefs : List Svdef} {rest : Multiset ℕ} {inp : ScanIn}

theorem reconciled (h : TableOk ⟨s, svdefs, rest⟩) (ht : s.flagTerminating = false)
    (hopen : inp.opendirOk = true) (herr : inp.readdirErr = false) :
    Reconciled inp.dirents s svdefs (perpdScan inp s svdefs).1 (perpdScan inp s svdefs).2 := by
  have hn0 : ((svdefs.map (·.drop .active)).map Svdef.key).Nodup := by
    simpa [Function.comp_def] using h.nodup
  obtain ⟨r, hr⟩ : ∃ r, r = perpdScanLoop inp.dirents 0 (s.emit .scan)
    (svdefs.map (·.drop .active)) := ⟨_, rfl⟩
  obtain ⟨c, hc⟩ : ∃ c, c = perpdScanCull r.1.2.length 0 0 (r.1.1.emit .scanned) r.1.2 := ⟨_, rfl⟩
  obtain ⟨t, htc⟩ : ∃ t, t = if 0 < c.2 then perpdCull c.1.1 c.1.2 else c.1 := ⟨_, rfl⟩
  have hscan : perpdScan inp s svdefs =
      (if 0 < r.2 then perpdTriggerScan t.1 else t.1, t.2) := by
    unfold perpdScan
    simp only [hopen, herr, Bool.true_eq_false, Bool.false_eq_true, ↓reduceIte, htc, hc, hr]
  obtain ⟨hw, hn1⟩ := Walked.scanLoop inp.dirents 0 (s.emit .scan) _ hn0
  rw [← hr] at hw hn1
  obtain ⟨hp, hwarn⟩ := scanCull_passed (r.1.1.emit .scanned) r.1.2
  rw [← hc] at hp hwarn
  obtain ⟨hn3, hsub, hstay, htame⟩ := culled_if (0 < c.2) c.1.1 c.1.2 (hp.keys ▸ hn1)
  rw [Prod.mk.eta, ← htc] at hn3 hsub hstay htame
  have hst : Stages (listed inp.dirents) (s.emit .scan) svdefs r.1.1 r.1.2 c.1.2 t.2 :=
    ⟨hw, hn1, hp, hsub, hstay⟩
  have hterm : t.1.flagTerminating = false := by
    have := (scan_part inp s svdefs rest ht).terminating
    rw [hscan] at this
    dsimp only at this
    split at this
    · rwa [(perpdTriggerScan_idle t.1).terminating, ht] at this
    · rwa [ht] at this
  rw [hscan]
  refine ⟨hn3, fun sd => hst.kept, fun sd => hst.departed fun x hx hl => ((h.ok x hx).nolog hl).1,
    fun sd hsd hcs sd' => hst.culling hsd hcs, fun sd' => hst.only, ?_, ?_⟩
  · intro pre d post st hd hstat rr hk
    have hm := scanLoop_met post hn0 hstat hk
    rw [← hd, ← hr] at hm
    dsimp only at hm
    split at hm
    · next hroom =>
      rw [if_pos hroom]
      have hnk : (st.dev, st.ino) ∉ svdefs.map Svdef.key := by
        simpa [Function.comp_def] using hm.1
      exact ⟨hnk, hst.stays hm.2 hnk⟩
    · next hroom =>
      rw [if_neg hroom]
      simp only [hm, ↓reduceIte, perpdTriggerScan, hterm, Bool.false_eq_true, Sys.selfpipePing]
      exact ⟨Nat.succ_pos _, Nat.succ_pos _⟩
  · obtain ⟨a, ks, hta, hks, hea, hcount⟩ := hw.grows
    obtain ⟨b, htb, heb⟩ := hwarn
    obtain ⟨e, hte, hee⟩ := htame
    refine ⟨.scan :: a ++ .scanned :: b ++ e, ?_, ?_, fun k => ?_⟩
    · have htrace : (if 0 < r.2 then perpdTriggerScan t.1 else t.1).trace = t.1.trace := by
        split
        · exact perpdTriggerScan_trace t.1
        · rfl
      rw [htrace, hte, htb, Sys.emit, hta, Sys.emit]
      simp
    · intro x w p sig hm
      simp only [List.mem_append, List.mem_cons, reduceCtorEq, false_or] at hm
      rcases hm with (hm | hm) | hm
      · exact (hea _ hm).elim
      · exact hst.signals (heb _ hm)
      · exact (hee _ hm).elim
    · have hb : activations k b = 0 := activations_eq_zero fun _ _ hm => heb _ hm
      rw [← hst.activations hks, ← hcount, activations_append, activations_tame hee,
        List.cons_append]
      simp only [activations, List.countP_cons, List.countP_append, activates] at hb ⊢
      simp [hb]

end Scan

/-- perpd when iteration `inp` comes to the scan. -/
def beforeScan (cfg : Config) (inputs : List IterIn) (inp : IterIn) : Perpd :=
  loopChld (loopTerm (loopPoll (loopTop (perpdRun cfg inputs)) inp).1) inp

end Perp.PerpdReconcile
