import Perp.PerpdRuns
import Perp.TraceLaw

set_option autoImplicit false

/-!
# One service among the others

Whatever perpd does, the service with key `k` sees one of five things. What
these keep holds of the service in every run.
-/
namespace Perp.PerpdService
open PerpdState PerpdSvdef PerpdMainloop PerpdFrame PerpdEntry PerpdEffect PerpdSlots PerpdActivate
  PerpdMoves PerpdPhases PerpdRuns TraceLaw

/-- The entry of a service. -/
def entryOf (k : Key) (svdefs : List Svdef) : Option Svdef := svdefs.find? (fun sd => sd.key = k)

theorem entryOf_mem {k : Key} {svdefs : List Svdef} {sd : Svdef}
    (h : entryOf k svdefs = some sd) : sd ∈ svdefs ∧ sd.key = k :=
  ⟨List.mem_of_find?_eq_some h, by simpa using List.find?_some h⟩

theorem entryOf_none {k : Key} {svdefs : List Svdef} :
    entryOf k svdefs = none ↔ k ∉ svdefs.map Svdef.key := by
  simp [entryOf]

theorem entryOf_of_mem {svdefs : List Svdef} {sd : Svdef} (hn : (svdefs.map Svdef.key).Nodup)
    (h : sd ∈ svdefs) : entryOf sd.key svdefs = some sd := by
  induction svdefs with
  | nil => simp at h
  | cons a svdefs ih =>
    rw [List.map_cons, List.nodup_cons] at hn
    rcases List.mem_cons.mp h with rfl | h
    · simp [entryOf]
    · have hne : a.key ≠ sd.key := fun he => hn.1 (he ▸ List.mem_map_of_mem h)
      rw [entryOf, List.find?_cons_of_neg (by simpa using hne)]
      exact ih hn.2 h

theorem entryOf_perm {k : Key} {l l' : List Svdef} (hn : (l.map Svdef.key).Nodup)
    (h : l.Perm l') : entryOf k l = entryOf k l' := by
  cases he : entryOf k l with
  | none =>
    rw [entryOf_none, (h.map Svdef.key).mem_iff] at he
    exact (entryOf_none.mpr he).symm
  | some sd =>
    obtain ⟨hm, rfl⟩ := entryOf_mem he
    exact (entryOf_of_mem ((h.map Svdef.key).nodup_iff.mp hn) (h.mem_iff.mp hm)).symm

/-- What the service `k` sees of a move. -/
inductive ServiceStep (k : Key) : Sys → Option Svdef → Sys → Option Svdef → Prop where
  | frame {s s' : Sys} {e : Option Svdef} (h : Frame k s s') : ServiceStep k s e s' e
  | entry {s s' : Sys} {sd sd' : Svdef} (hk : sd.key = k) (hok : SvOk s sd)
      (hs : EntryStep s sd s' sd')
      (ht : s.flagTerminating = true →
        sd.has .cull = true ∨ (s', sd') = (perpdSvdefWantcull s sd).1) :
      ServiceStep k s (some sd) s' (some sd')
  | activate {s s1 : Sys} {sd : Svdef} (ht : s.flagTerminating = false) (hc : Childless s k)
      (ho : Opened s k sd s1) :
      ServiceStep k s none (firstStart (s1.emitSv sd (.activate s.serial)) sd).1
        (some ((firstStart (s1.emitSv sd (.activate s.serial)) sd).2.put .active))
  | fail {s s' : Sys} (hf : Failed s k s') : ServiceStep k s none s' none
  | cull {s : Sys} {sd : Svdef} (hk : sd.key = k) (hok : SvOk s sd)
      (hc : perpdSvdefCullok sd = true) :
      ServiceStep k s (some sd) (perpdSvdefClose (s.emitSv sd .cull) sd) none

theorem entryOf_set {k : Key} {l : List Svdef} {i : ℕ} {sd sd' : Svdef}
    (hn : (l.map Svdef.key).Nodup) (hi : l[i]? = some sd) (hk : sd'.key = sd.key) :
    entryOf k (l.set i sd') = if sd.key = k then some sd' else entryOf k l := by
  have hn' : ((l.set i sd').map Svdef.key).Nodup := (keys_set hi hk).symm ▸ hn
  have hlt := (List.getElem?_eq_some_iff.mp hi).1
  split
  · next he =>
    rw [← he, ← hk]
    exact entryOf_of_mem hn' (List.mem_of_getElem? (i := i) (by simp [hlt]))
  · next he =>
    cases h : entryOf k l with
    | none => rwa [entryOf_none, keys_set hi hk, ← entryOf_none]
    | some x =>
      obtain ⟨hm, rfl⟩ := entryOf_mem h
      obtain ⟨j, hj⟩ := List.getElem?_of_mem hm
      have hij : i ≠ j := by
        rintro rfl
        rw [hi] at hj
        exact he (congrArg Svdef.key (Option.some.inj hj))
      refine entryOf_of_mem hn' (List.mem_of_getElem? (i := j) ?_)
      rwa [List.getElem?_set_ne hij]

theorem move_service {t t' : Table} (h : TableOk t) (hm : Move t t') (k : Key) :
    ServiceStep k t.sys (entryOf k t.svdefs) t'.sys (entryOf k t'.svdefs) := by
  cases hm with
  | entry i sd s' sd' hi hs ht =>
    have hmem := List.mem_of_getElem? hi
    rw [entryOf_set h.nodup hi (Kept.entryStep hs).key]
    split
    · next hk =>
      rw [← hk, entryOf_of_mem h.nodup hmem]
      exact .entry rfl (h.ok sd hmem) hs ht
    · next hk => exact .frame (entryStep_frame hs (h.ok sd hmem) hk)
  | activate svdir st d s' sd hnew hroom ht ha =>
    have hnk := lookup_eq_none hnew
    have hcl := h.orphans _ hnk
    obtain ⟨_, hkey, hf⟩ := activate_svOk hcl ha
    by_cases hk : (st.dev, st.ino) = k
    · subst hk
      have he : entryOf (st.dev, st.ino) (t.svdefs ++ [sd.put .active]) = some (sd.put .active) := by
        rw [entryOf, List.find?_append, List.find?_eq_none.mpr, Option.none_or]
        · simp [hkey]
        · intro x hx hxk
          exact hnk (by simpa using ⟨x, hx, by simpa using hxk⟩)
      rw [entryOf_none.mpr hnk, he]
      obtain ⟨sd0, s1, ho, rfl, rfl⟩ := activate_some ha
      exact .activate ht hcl ho
    · have he : entryOf k (t.svdefs ++ [sd.put .active]) = entryOf k t.svdefs := by
        simp [entryOf, List.find?_append, hkey, hk]
      rw [he]
      exact .frame (hf k hk)
  | activateFail svdir st d s' hnew ha =>
    have hf := activateFail_frame ha
    by_cases hk : (st.dev, st.ino) = k
    · subst hk
      rw [entryOf_none.mpr (lookup_eq_none hnew)]
      exact .fail hf
    · exact .frame (hf.frame hk)
  | cull i sd hi hc =>
    have hmem := List.mem_of_getElem? hi
    have hperm := swapRemove_perm _ _ _ hi
    have hnd := (hperm.map Svdef.key).nodup_iff.mp h.nodup
    rw [List.map_cons, List.nodup_cons] at hnd
    by_cases hk : sd.key = k
    · subst hk
      rw [entryOf_of_mem h.nodup hmem, entryOf_none.mpr hnd.1]
      exact .cull rfl (h.ok sd hmem) hc
    · rw [entryOf_perm h.nodup hperm, entryOf, List.find?_cons_of_neg (by simpa using hk)]
      exact .frame ((Frame.emitSv _ _ _ hk (by simp [Event.pid])).trans (.close _ _))
  | accept fd hf => exact .frame (opened_frame _ _ _ hf (by simp [Obj.key]) (by simp))
  | drop fd conns hc => exact .frame (.close _ _)
  | term ht => exact .frame (terminated_frame _ k fun fd hfd => (h.listen fd hfd).1)
  | idle s' hi => exact .frame (hi.frame k)

theorem ServiceStep.grows {k : Key} {s s' : Sys} {e e' : Option Svdef}
    (h : ServiceStep k s e s' e') : ∃ evs, s'.trace = s.trace ++ evs := by
  obtain ⟨k', hk'⟩ := exists_other_key k
  have hg {a b : Sys} (hf : Frame k' a b) : ∃ evs, b.trace = a.trace ++ evs := by
    obtain ⟨evs, he, _⟩ := hf.grows
    exact ⟨evs, he⟩
  cases h with
  | frame hf =>
    obtain ⟨evs, he, _⟩ := hf.grows
    exact ⟨evs, he⟩
  | entry hk hok hs ht => exact hg (entryStep_frame hs hok (hk ▸ hk'))
  | activate ht hc ho =>
    have hsd := ho.blank.key
    exact hg (((ho.frame hk').trans (.emitSv _ _ (.activate _) (hsd ▸ hk') (by simp [Event.pid]))).trans
      (firstStart_frame _ _ (hsd ▸ hk')))
  | fail hf => exact hg (hf.frame hk')
  | cull hk hok hc =>
    exact hg ((Frame.emitSv _ _ .cull (hk ▸ hk') (by simp [Event.pid])).trans (.close _ _))

theorem move_grows {t t' : Table} (h : TableOk t) (hm : Move t t') :
    ∃ evs, t'.sys.trace = t.sys.trace ++ evs :=
  (move_service h hm (0, 0)).grows

theorem ServiceStep.listen {k : Key} {s s' : Sys} {e e' : Option Svdef}
    (h : ServiceStep k s e s' e') : s'.fdListen = s.fdListen := by
  obtain ⟨k', hk'⟩ := exists_other_key k
  cases h with
  | frame hf => exact hf.listen
  | entry hk hok hs ht => exact (entryStep_frame hs hok (hk ▸ hk')).listen
  | activate ht hc ho =>
    exact (firstStart_frame _ _ (ho.blank.key ▸ hk')).listen.trans (ho.frame hk').listen
  | fail hf => exact (hf.frame hk').listen
  | cull hk hok hc => rfl

theorem move_listen {t t' : Table} (h : TableOk t) (hm : Move t t') :
    t'.sys.fdListen = t.sys.fdListen :=
  (move_service h hm (0, 0)).listen

/-- An invariant of the table, along traces that satisfy the law `P`. -/
structure TableInv (cfg : Config) (P : List Event → Event → Prop) (I : Table → Prop) : Prop where
  start : I (table (perpdStart cfg))
  step : ∀ {t t' : Table}, TableOk t → Move t t' → Along P t'.sys.trace → I t → I t'

theorem TableInv.moves {cfg : Config} {P : List Event → Event → Prop} {I : Table → Prop}
    (h : TableInv cfg P I) {t t' : Table} (hm : Moves t t') (ht : TableOk t)
    (hi : Along P t.sys.trace → I t) : Along P t'.sys.trace → I t' := by
  induction hm with
  | refl => exact hi
  | tail hm hmove ih =>
    intro hp
    obtain ⟨evs, he⟩ := move_grows (ht.moves hm) hmove
    exact h.step (ht.moves hm) hmove hp (ih (Along.of_append (he ▸ hp)))

/-- What every move keeps holds of the table in every run. -/
theorem TableInv.run {cfg : Config} {P : List Event → Event → Prop} {I : Table → Prop}
    (h : TableInv cfg P I) (inputs : List IterIn)
    (hp : Along P (perpdRun cfg inputs).sys.trace) : I (table (perpdRun cfg inputs)) :=
  h.moves (run_phase cfg inputs).moves (perpdStart_tableOk cfg) (fun _ => h.start) hp

theorem moves_grow {t t' : Table} (ht : TableOk t) (hm : Moves t t') :
    ∃ evs, t'.sys.trace = t.sys.trace ++ evs := by
  induction hm with
  | refl => exact ⟨[], by simp⟩
  | tail hm hmove ih =>
    obtain ⟨a, ha⟩ := ih
    obtain ⟨b, hb⟩ := move_grows (ht.moves hm) hmove
    exact ⟨a ++ b, by rw [hb, ha, List.append_assoc]⟩

/-- An invariant of the main loop, along traces that satisfy the law `P`: `I`
holds outside of the part that terminates, reaps, scans and retries, and `M` in it. -/
structure LoopInv (P : List Event → Event → Prop) (I M : Perpd → Prop) : Prop where
  top : ∀ {w : Perpd}, LoopOk w → I w → I (loopTop w)
  poll : ∀ {w : Perpd} (inp : IterIn), LoopOk w → I w → I (loopPoll w inp).1
  term : ∀ {w : Perpd}, LoopOk w → I w → M (loopTerm w)
  chld : ∀ {w : Perpd} (inp : IterIn), LoopOk w → Along P (loopChld w inp).sys.trace → M w →
    M (loopChld w inp)
  scan : ∀ {w : Perpd} (inp : IterIn), LoopOk w → M w → M (loopScan w inp)
  failing : ∀ {w : Perpd}, LoopOk w → Along P (loopFailing w).1.sys.trace → M w →
    I (loopFailing w).1
  clients : ∀ {w : Perpd} (inp : IterIn) (nready : ℕ), LoopOk w → I w →
    I (loopClients w inp nready)
  exit : ∀ {w : Perpd} (n : ℕ), I w → I { w with exit := some n }

namespace LoopInv
variable {P : List Event → Event → Prop} {I M : Perpd → Prop}

theorem body (h : LoopInv P I M) {w : Perpd} (inp : IterIn) (hw : LoopOk w) (hi : I w)
    (hp : Along P (loopBody w inp).sys.trace) : I (loopBody w inp) := by
  have hpast {a b : Perpd} (hab : Phase a b) (ha : LoopOk a) (hb : Along P b.sys.trace) :
      Along P a.sys.trace := by
    obtain ⟨evs, he⟩ := moves_grow ha.ok hab.moves
    change b.sys.trace = a.sys.trace ++ evs at he
    exact Along.of_append (he ▸ hb)
  have h0 := loopTop_phase w hw
  have h1 := loopPoll_phase _ inp h0.ok
  have i1 := h.poll inp h0.ok (h.top hw hi)
  unfold loopBody at hp ⊢
  dsimp only at hp ⊢
  split at hp
  · next hn =>
    rw [if_pos hn]
    exact i1
  next hn =>
  rw [if_neg hn]
  have h2 := loopTerm_phase _ h1.ok
  have h3 := loopChld_phase _ inp h2.ok
  have h4 := loopScan_phase _ inp h3.ok
  have h5 := loopFailing_phase _ h4.ok
  have hret (hp5 : Along P (loopFailing (loopScan (loopChld (loopTerm (loopPoll (loopTop w) inp).1)
      inp) inp)).1.sys.trace) := by
    have hp4 := hpast h5 h4.ok hp5
    have i3 := h.chld inp h2.ok (hpast h4 h3.ok hp4) (h.term h1.ok i1)
    exact h.failing h4.ok hp5 (h.scan inp h3.ok i3)
  split at hp
  · next hx =>
    rw [if_pos hx]
    exact hret hp
  · next hx =>
    rw [if_neg hx]
    exact h.clients inp _ h5.ok (hret (hpast (loopClients_phase _ inp _ h5.ok) h5.ok hp))

/-- What each part of the loop keeps holds at the end of each iteration of every run. -/
theorem run (h : LoopInv P I M) (cfg : Config) (hs : I (perpdStart cfg)) (inputs : List IterIn)
    (hp : Along P (perpdRun cfg inputs).sys.trace) : I (perpdRun cfg inputs) := by
  induction inputs using List.reverseRecOn with
  | nil => exact hs
  | append_singleton inputs inp ih =>
    have hw := (run_phase cfg inputs).ok
    obtain ⟨evs, he⟩ := moves_grow hw.ok (iterate_phase _ inp hw).moves
    change (perpdIterate _ inp).sys.trace = (perpdRun cfg inputs).sys.trace ++ evs at he
    rw [perpdRun, List.foldl_append] at hp ⊢
    change Along P (perpdIterate (perpdRun cfg inputs) inp).sys.trace at hp
    change I (perpdIterate (perpdRun cfg inputs) inp)
    have hi := ih (Along.of_append (he ▸ hp))
    unfold perpdIterate at hp ⊢
    split at hp
    · next hx =>
      rw [if_pos hx]
      exact hi
    next hx =>
    rw [if_neg hx]
    split at hp
    · next hx' =>
      rw [if_pos hx']
      exact h.exit 0 hi
    · next hx' =>
      rw [if_neg hx']
      exact h.body inp hw hi hp

end LoopInv

/-- An invariant of the service `k`, along traces that satisfy the law `P`. -/
structure ServiceInv (cfg : Config) (k : Key) (P : List Event → Event → Prop)
    (I : Sys → Option Svdef → Prop) : Prop where
  start : I (perpdStart cfg).sys none
  step : ∀ {s s' : Sys} {e e' : Option Svdef}, ServiceStep k s e s' e' → Along P s'.trace →
    I s e → I s' e'

namespace ServiceInv
variable {cfg : Config} {k : Key} {P : List Event → Event → Prop} {I : Sys → Option Svdef → Prop}

theorem moves (h : ServiceInv cfg k P I) {t t' : Table} (hm : Moves t t') (ht : TableOk t)
    (hi : Along P t.sys.trace → I t.sys (entryOf k t.svdefs)) :
    Along P t'.sys.trace → I t'.sys (entryOf k t'.svdefs) := by
  induction hm with
  | refl => exact hi
  | tail hm hmove ih =>
    intro hp
    have hs := move_service (ht.moves hm) hmove k
    obtain ⟨evs, he⟩ := hs.grows
    exact h.step hs hp (ih (Along.of_append (he ▸ hp)))

/-- What every step of a service keeps holds of the service in every run. -/
theorem run (h : ServiceInv cfg k P I) (inputs : List IterIn)
    (hp : Along P (perpdRun cfg inputs).sys.trace) :
    I (perpdRun cfg inputs).sys (entryOf k (perpdRun cfg inputs).svdefs) :=
  h.moves (run_phase cfg inputs).moves (perpdStart_tableOk cfg) (fun _ => h.start) hp

end ServiceInv

@[simp] theorem perpdStart_trace (cfg : Config) : (perpdStart cfg).sys.trace = [] := by
  simp [perpdStart, perpdTriggerScan, Sys.selfpipePing]

@[simp] theorem perpdStart_sysstrSignal (cfg : Config) :
    (perpdStart cfg).sys.sysstrSignal = cfg.sysstrSignal := by
  simp [perpdStart, perpdTriggerScan, Sys.selfpipePing]

end Perp.PerpdService
