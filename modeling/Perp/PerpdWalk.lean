import Perp.PerpdPhases

set_option autoImplicit false

/-!
# The walk over the base directory

A scan meets the sticky directories one by one. It keeps the entries of those
that are in the table, and activates the others.
-/
namespace Perp.PerpdWalk
open PerpdState PerpdSvdef PerpdConn PerpdMainloop PerpdFrame PerpdEntry PerpdEffect PerpdSlots
  PerpdActivate PerpdMoves PerpdStill PerpdPhases

def activates (k : Key) : Event → Bool
  | .sv sd (.activate _) => decide (sd.key = k)
  | _ => false

/-- How often the service is activated. -/
def activations (k : Key) (evs : List Event) : ℕ := evs.countP (activates k)

theorem activations_append (k : Key) (a b : List Event) :
    activations k (a ++ b) = activations k a + activations k b := List.countP_append

theorem activations_eq_zero {k : Key} {l : List Event}
    (h : ∀ sd i, .sv sd (.activate i) ∉ l) : activations k l = 0 := by
  rw [activations, List.countP_eq_zero]
  intro e he
  unfold activates
  split
  · next sd i => exact absurd he (h sd i)
  · simp

/-- The directories that are listed as sticky. -/
def listed (dirents : List Dirent) : List Key :=
  dirents.filterMap fun d => (perpdSvdirStat d).map fun st => (st.dev, st.ino)

/-- What becomes of an entry whose directory is met, or is not. -/
structure Met (l : Prop) (sd sd' : Svdef) : Prop where
  key : sd'.key = sd.key
  fdDir : sd'.fdDir = sd.fdDir
  logpipe0 : sd'.logpipe0 = sd.logpipe0
  logpipe1 : sd'.logpipe1 = sd.logpipe1
  when : sd'.when = sd.when
  sv : ∀ w, sd'.sv w = sd.sv w
  flags : ∀ f, f ≠ .active → f ≠ .cycle → sd'.has f = sd.has f
  active : sd'.has .active = true ↔ sd.has .active = true ∨ l
  cycle : sd'.has .cycle = true ↔ sd.has .cycle = true ∨ (sd.has .cull = true ∧ l)

namespace Met
variable {l l' : Prop} {sd sd' sd'' : Svdef}

theorem missed (hl : ¬ l) (sd : Svdef) : Met l sd sd := by
  constructor <;> simp [hl]

theorem keep (hl : l) (sd : Svdef) (svdir : List Char) :
    Met l sd (if (perpdSvdefKeep sd svdir).has .cull then (perpdSvdefKeep sd svdir).put .cycle
      else perpdSvdefKeep sd svdir) := by
  have hk (f : SvdefFlag) : (perpdSvdefKeep sd svdir).has f = (decide (.active = f) || sd.has f) :=
    Svdef.put_has sd .active f
  have hm := keep_marked sd svdir
  refine ⟨hm.key, hm.fdDir, hm.logpipe0, hm.logpipe1, ?_, hm.sv, hm.flags, ?_, ?_⟩
  · split <;> rfl
  · split <;> simp [hk, hl]
  · split <;> next hc => simp only [hk] at hc; simp_all

theorem trans (h : Met l sd sd') (h' : Met l' sd' sd'') : Met (l ∨ l') sd sd'' where
  key := h'.key.trans h.key
  fdDir := h'.fdDir.trans h.fdDir
  logpipe0 := h'.logpipe0.trans h.logpipe0
  logpipe1 := h'.logpipe1.trans h.logpipe1
  when := h'.when.trans h.when
  sv w := (h'.sv w).trans (h.sv w)
  flags f ha hc := (h'.flags f ha hc).trans (h.flags f ha hc)
  active := by
    rw [h'.active, h.active]
    tauto
  cycle := by
    rw [h'.cycle, h.cycle, h.flags .cull (by simp) (by simp)]
    tauto

theorem iff (h : Met l sd sd') (hl : l ↔ l') : Met l' sd sd' := propext hl ▸ h

end Met

/-- No signal is sent, and no service activated. -/
def Tame : Event → Prop
  | .sv _ (.kill _ _ _) | .sv _ (.activate _) => False
  | _ => True

theorem activations_tame {k : Key} {evs : List Event} (h : ∀ e ∈ evs, Tame e) :
    activations k evs = 0 :=
  activations_eq_zero fun _ _ hm => h _ hm

/-- No signal is sent. -/
def Unsignalled : Event → Prop
  | .sv _ (.kill _ _ _) => False
  | _ => True

theorem Tame.unsignalled {e : Event} (h : Tame e) : Unsignalled e := by
  unfold Tame at h
  unfold Unsignalled
  split <;> first | exact h | trivial

/-- The walk has met the directories `L`: they are all that may have joined the
table, each by one activation. -/
structure Walked (L : List Key) (s : Sys) (svdefs : List Svdef) (s' : Sys) (svdefs' : List Svdef) :
    Prop where
  old : ∀ sd ∈ svdefs, ∃ sd' ∈ svdefs', Met (sd.key ∈ L) sd sd'
  only : ∀ sd' ∈ svdefs', (∃ sd ∈ svdefs, Met (sd.key ∈ L) sd sd') ∨
    (sd'.key ∈ L ∧ sd'.key ∉ svdefs.map Svdef.key ∧ sd'.has .active = true ∧ sd'.has .cull = false)
  grows : ∃ evs ks, s'.trace = s.trace ++ evs ∧ svdefs'.map Svdef.key = svdefs.map Svdef.key ++ ks ∧
    (∀ e ∈ evs, Unsignalled e) ∧ ∀ k, activations k evs = ks.count k

namespace Walked
variable {L L' : List Key} {s s' s'' : Sys} {svdefs svdefs' svdefs'' : List Svdef}

theorem refl (s : Sys) (svdefs : List Svdef) : Walked [] s svdefs s svdefs where
  old sd hsd := ⟨sd, hsd, .missed (by simp) sd⟩
  only sd hsd := Or.inl ⟨sd, hsd, .missed (by simp) sd⟩
  grows := ⟨[], [], by simp [activations]⟩

theorem trans (h : Walked L s svdefs s' svdefs') (h' : Walked L' s' svdefs' s'' svdefs'') :
    Walked (L ++ L') s svdefs s'' svdefs'' where
  old sd hsd := by
    obtain ⟨sd', hsd', hm⟩ := h.old sd hsd
    obtain ⟨sd'', hsd'', hm'⟩ := h'.old sd' hsd'
    exact ⟨sd'', hsd'', (hm.trans hm').iff (by rw [hm.key, List.mem_append])⟩
  only sd'' hsd'' := by
    obtain ⟨evs, ks, _, hks, _⟩ := h.grows
    rcases h'.only sd'' hsd'' with ⟨sd', hsd', hm'⟩ | ⟨hL, hnk, ha, hc⟩
    · rcases h.only sd' hsd' with ⟨sd, hsd, hm⟩ | ⟨hL, hnk, ha, hc⟩
      · exact Or.inl ⟨sd, hsd, (hm.trans hm').iff (by rw [hm.key, List.mem_append])⟩
      · refine Or.inr ⟨?_, ?_, hm'.active.mpr (Or.inl ha), ?_⟩
        · rw [hm'.key]
          exact List.mem_append_left _ hL
        · rwa [hm'.key]
        · rwa [hm'.flags .cull (by simp) (by simp)]
    · refine Or.inr ⟨List.mem_append_right _ hL, fun hk => hnk ?_, ha, hc⟩
      rw [hks]
      exact List.mem_append_left _ hk
  grows := by
    obtain ⟨a, ka, hta, hka, hea, hca⟩ := h.grows
    obtain ⟨b, kb, htb, hkb, heb, hcb⟩ := h'.grows
    refine ⟨a ++ b, ka ++ kb, ?_, ?_, ?_, ?_⟩
    · rw [htb, hta, List.append_assoc]
    · rw [hkb, hka, List.append_assoc]
    · exact fun e he => (List.mem_append.mp he).elim (hea e) (heb e)
    · intro k
      rw [activations_append, List.count_append, hca, hcb]

theorem missed {k : Key} (hk : k ∉ svdefs.map Svdef.key) (h : Within Tame s s') :
    Walked [k] s svdefs s' svdefs where
  old sd hsd := ⟨sd, hsd, .missed (by
    rw [List.mem_singleton]
    exact fun he => hk (he ▸ List.mem_map_of_mem hsd)) sd⟩
  only sd hsd := Or.inl ⟨sd, hsd, .missed (by
    rw [List.mem_singleton]
    exact fun he => hk (he ▸ List.mem_map_of_mem hsd)) sd⟩
  grows := by
    obtain ⟨evs, ht, he⟩ := h
    exact ⟨evs, [], ht, by simp, fun e hm => (he e hm).unsignalled, fun k => activations_tame he⟩

theorem keep {i : ℕ} {sd : Svdef} (hn : (svdefs.map Svdef.key).Nodup) (hi : svdefs[i]? = some sd)
    (svdir : List Char) :
    Walked [sd.key] s svdefs s (svdefs.set i
      (if (perpdSvdefKeep sd svdir).has .cull then (perpdSvdefKeep sd svdir).put .cycle
        else perpdSvdefKeep sd svdir)) := by
  have hkeep := Met.keep (l := sd.key ∈ [sd.key]) (by simp) sd svdir
  have hlt := (List.getElem?_eq_some_iff.mp hi).1
  have hother {j : ℕ} {x : Svdef} (hj : svdefs[j]? = some x) (hji : j ≠ i) :
      Met (x.key ∈ [sd.key]) x x := by
    refine .missed ?_ x
    rw [List.mem_singleton]
    exact (key_ne_of_ne hn hi hj hji).symm
  refine ⟨fun x hx => ?_, fun x hx => ?_, [], [], by simp, ?_, by simp, by simp [activations]⟩
  · obtain ⟨j, hj⟩ := List.getElem?_of_mem hx
    by_cases hji : j = i
    · subst hji
      obtain rfl := Option.some.inj (hi.symm.trans hj)
      exact ⟨_, List.mem_set hlt _, hkeep⟩
    · refine ⟨x, List.mem_of_getElem? (i := j) ?_, hother hj hji⟩
      rwa [List.getElem?_set_ne (Ne.symm hji)]
  · rcases mem_set_cases hx with rfl | ⟨j, hji, hj⟩
    · exact Or.inl ⟨sd, List.mem_of_getElem? hi, hkeep⟩
    · exact Or.inl ⟨x, List.mem_of_getElem? hj, hother hj hji⟩
  · rw [List.append_nil]
    exact keys_set hi hkeep.key

theorem activate_key {svdir : List Char} {st : Stat} {d : ActivateIn} {sd : Svdef}
    (h : perpdSvdefActivate s svdir st d = (s', some sd)) : sd.key = (st.dev, st.ino) := by
  obtain ⟨sd0, s1, ho, -, rfl⟩ := activate_some h
  rw [(firstStart_kept _ sd0).key]
  exact ho.blank.key

theorem activate_nodup {svdir : List Char} {st : Stat} {d : ActivateIn} {sd : Svdef}
    (hn : (svdefs.map Svdef.key).Nodup) (hk : (st.dev, st.ino) ∉ svdefs.map Svdef.key)
    (h : perpdSvdefActivate s svdir st d = (s', some sd)) :
    ((svdefs ++ [sd.put .active]).map Svdef.key).Nodup := by
  rw [List.map_append, List.map_singleton, Svdef.put_key, activate_key h]
  refine List.nodup_append.mpr ⟨hn, by simp, fun a ha b hb he => hk ?_⟩
  rwa [← List.mem_singleton.mp hb, ← he]

theorem activate {svdir : List Char} {st : Stat} {d : ActivateIn} {sd : Svdef}
    (hk : (st.dev, st.ino) ∉ svdefs.map Svdef.key)
    (h : perpdSvdefActivate s svdir st d = (s', some sd)) :
    Walked [(st.dev, st.ino)] s svdefs s' (svdefs ++ [sd.put .active]) := by
  have hkey' : (sd.put .active).key = (st.dev, st.ino) :=
    (Svdef.put_key sd .active).trans (activate_key h)
  obtain ⟨sd0, s1, ho, rfl, rfl⟩ := activate_some h
  have hkey : sd0.key = (st.dev, st.ino) := ho.blank.key
  have hother {x : Svdef} (hx : x ∈ svdefs) : Met (x.key ∈ [(st.dev, st.ino)]) x x := by
    refine .missed ?_ x
    rw [List.mem_singleton]
    exact fun he => hk (he ▸ List.mem_map_of_mem hx)
  refine ⟨fun x hx => ⟨x, List.mem_append_left _ hx, hother hx⟩, fun x hx => ?_, ?_⟩
  · rcases List.mem_append.mp hx with hx | hx
    · exact Or.inl ⟨x, hx, hother hx⟩
    · obtain rfl := List.mem_singleton.mp hx
      refine Or.inr ⟨by simp [hkey'], by rwa [hkey'], by simp, ?_⟩
      simp [ho.blank.cull]
  · obtain ⟨a, hta, hea⟩ : Within Tame s s1 := opened_within ho fun _ _ => trivial
    obtain ⟨b, htb, heb⟩ : Within Tame _ (firstStart (s1.emitSv sd0 (.activate s.serial)) sd0).1 :=
      firstStart_within _ sd0 fun _ _ _ _ _ _ _ _ => trivial
    refine ⟨a ++ .sv sd0 (.activate s.serial) :: b, [(st.dev, st.ino)], ?_, ?_, ?_, fun k => ?_⟩
    · rw [htb, Sys.emitSv, Sys.emit, hta]
      simp
    · rw [List.map_append, List.map_singleton, hkey']
    · intro e he
      rcases List.mem_append.mp he with he | he
      · exact (hea e he).unsignalled
      rcases List.mem_cons.mp he with rfl | he
      · trivial
      · exact (heb e he).unsignalled
    · have hone : activations k (.sv sd0 (.activate s.serial) :: b) =
          activations k b + if (st.dev, st.ino) = k then 1 else 0 := by
        simp only [activations, List.countP_cons, activates, hkey, decide_eq_true_eq]
      rw [activations_append, hone, activations_tame hea, activations_tame heb,
        List.count_singleton]
      simp

theorem scanLoop (dirents : List Dirent) (gotFail : ℕ) (s : Sys) (svdefs : List Svdef)
    (hn : (svdefs.map Svdef.key).Nodup) :
    let r := perpdScanLoop dirents gotFail s svdefs
    Walked (listed dirents) s svdefs r.1.1 r.1.2 ∧ (r.1.2.map Svdef.key).Nodup := by
  induction dirents generalizing gotFail s svdefs with
  | nil => exact ⟨.refl _ _, hn⟩
  | cons d dirents ih =>
    unfold perpdScanLoop
    dsimp only
    split
    · next hst =>
      have hl : listed (d :: dirents) = listed dirents := by simp [listed, hst]
      rw [hl]
      exact ih _ _ _ hn
    next st hst =>
    have hl : listed (d :: dirents) = [(st.dev, st.ino)] ++ listed dirents := by
      simp [listed, hst]
    rw [hl]
    split
    · next i hlk =>
      obtain ⟨sd, hi, hk⟩ := lookup_some hlk
      rw [List.modify_eq_set_getElem?, hi, ← hk]
      have h1 := Walked.keep (s := s) hn hi d.name
      obtain ⟨h2, hn2⟩ := ih gotFail s (svdefs.set i _) (by
        rwa [keys_set hi (keep_marked sd d.name).key])
      exact ⟨h1.trans h2, hn2⟩
    next hlk =>
    have hnk := lookup_eq_none hlk
    split
    · obtain ⟨h2, hn2⟩ := ih (gotFail + 1) s svdefs hn
      exact ⟨(Walked.missed hnk (.refl s)).trans h2, hn2⟩
    split
    · next s1 ha =>
      obtain ⟨h2, hn2⟩ := ih (gotFail + 1) s1 svdefs hn
      have hw : Within Tame s s1 :=
        failed_within (activateFail_frame ha) (fun _ _ => trivial) fun _ _ => trivial
      exact ⟨(Walked.missed hnk hw).trans h2, hn2⟩
    · next s1 sd ha =>
      have h1 := Walked.activate hnk ha
      obtain ⟨h2, hn2⟩ := ih gotFail s1 _ (activate_nodup hn hnk ha)
      exact ⟨h1.trans h2, hn2⟩

end Walked

end Perp.PerpdWalk
