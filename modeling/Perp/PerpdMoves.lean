import Mathlib.Data.Multiset.Basic
import Mathlib.Logic.Relation
import Perp.PerpdActivate

set_option autoImplicit false

/-!
# The moves of perpd

The service table with the kernel and the open client descriptors, and the
moves every iteration of the main loop is made of. `TableOk` holds across them.
-/
namespace Perp.PerpdMoves
open PerpdState PerpdSvdef PerpdConn PerpdMainloop PerpdFrame PerpdEntry PerpdEffect PerpdSlots
  PerpdActivate

structure Table where
  sys : Sys
  svdefs : List Svdef
  /-- the open descriptors of `clients[]` -/
  conns : Multiset ℕ

/-- Events that are about no service and no descriptor. -/
def Plain : Event → Prop
  | .request _ | .sent _ _ | .scan | .scanned => True
  | _ => False

/-- The clock has been read some more times. -/
def Later (s s' : Sys) : Prop := ∃ n, s'.clock = fun m => s.clock (n + m)

theorem Later.of_eq {s s' : Sys} (h : s'.clock = s.clock) : Later s s' := ⟨0, by simp [h]⟩

theorem Later.refl (s : Sys) : Later s s := .of_eq rfl

theorem Later.trans {s t u : Sys} (h : Later s t) (h' : Later t u) : Later s u := by
  obtain ⟨n, hn⟩ := h
  obtain ⟨m, hm⟩ := h'
  exact ⟨n + m, by simp [hm, hn, Nat.add_assoc]⟩

theorem tainNow_later (s : Sys) : Later s s.tainNow.2 :=
  ⟨1, by simp [Sys.tainNow, Nat.add_comm]⟩

/-- Signals, clocks, counters and plain events. -/
structure Idle (s s' : Sys) : Prop where
  grows : ∃ evs, s'.trace = s.trace ++ evs ∧ ∀ e ∈ evs, Plain e
  clock : Later s s'
  fds : s'.fds = s.fds
  children : s'.children = s.children
  serial : s'.serial = s.serial
  terminating : s'.flagTerminating = s.flagTerminating
  signals : s'.sysstrSignal = s.sysstrSignal
  listen : s'.fdListen = s.fdListen

/-- `flag_term` up to the first `perpd_svdef_wantcull()` -/
def terminated (s : Sys) : Sys :=
  { s.emit .term with flagTerminating := true, flagTerm := 0, flagHup := 0 }.close s.fdListen

inductive Move (t : Table) : Table → Prop where
  | entry (i : ℕ) (sd : Svdef) (s' : Sys) (sd' : Svdef) (hi : t.svdefs[i]? = some sd)
      (hs : EntryStep t.sys sd s' sd')
      (ht : t.sys.flagTerminating = true →
        sd.has .cull = true ∨ (s', sd') = (perpdSvdefWantcull t.sys sd).1) :
      Move t ⟨s', t.svdefs.set i sd', t.conns⟩
  | activate (svdir : List Char) (st : Stat) (d : ActivateIn) (s' : Sys) (sd : Svdef)
      (hnew : perpdLookup t.svdefs st.dev st.ino = none) (hroom : t.svdefs.length < perpMax)
      (ht : t.sys.flagTerminating = false)
      (ha : perpdSvdefActivate t.sys svdir st d = (s', some sd)) :
      Move t ⟨s', t.svdefs ++ [sd.put .active], t.conns⟩
  | activateFail (svdir : List Char) (st : Stat) (d : ActivateIn) (s' : Sys)
      (hnew : perpdLookup t.svdefs st.dev st.ino = none)
      (ha : perpdSvdefActivate t.sys svdir st d = (s', none)) : Move t ⟨s', t.svdefs, t.conns⟩
  | cull (i : ℕ) (sd : Svdef) (hi : t.svdefs[i]? = some sd) (hc : perpdSvdefCullok sd = true) :
      Move t ⟨perpdSvdefClose (t.sys.emitSv sd .cull) sd, swapRemove t.svdefs i, t.conns⟩
  | accept (fd : ℕ) (hf : t.sys.fds fd = none) :
      Move t ⟨opened t.sys fd .client, t.svdefs, fd ::ₘ t.conns⟩
  | drop (fd : ℕ) (conns : Multiset ℕ) (hc : t.conns = fd ::ₘ conns) :
      Move t ⟨t.sys.close fd, t.svdefs, conns⟩
  | term (ht : t.sys.flagTerminating = false) : Move t ⟨terminated t.sys, t.svdefs, t.conns⟩
  | idle (s' : Sys) (h : Idle t.sys s') : Move t ⟨s', t.svdefs, t.conns⟩

abbrev Moves : Table → Table → Prop := Relation.ReflTransGen Move

/-- What holds of the table between any two moves. -/
structure TableOk (t : Table) : Prop where
  nodup : (t.svdefs.map Svdef.key).Nodup
  size : t.svdefs.length ≤ perpMax
  ok : ∀ sd ∈ t.svdefs, SvOk t.sys sd
  orphans : ∀ k, k ∉ t.svdefs.map Svdef.key → Childless t.sys k
  term : t.sys.flagTerminating = true ↔ .term ∈ t.sys.trace
  listen : ∀ fd, t.sys.fds fd = some .listen →
    fd = t.sys.fdListen ∧ t.sys.flagTerminating = false

theorem swapRemove_concat {α : Type} (front : List α) (last : α) (i : ℕ) :
    swapRemove (front ++ [last]) i = if i < front.length then front.set i last else front := by
  have hlast : (front ++ [last]).getLast? = some last := by simp
  simp only [swapRemove, hlast]
  split
  · next h => rw [List.set_append_left _ _ h, List.dropLast_concat]
  · next h =>
    by_cases he : i = front.length
    · subst he
      simp
    · rw [List.set_eq_of_length_le (by simp; omega), List.dropLast_concat]

theorem set_perm {α : Type} (l : List α) (i : ℕ) (x y : α) (h : l[i]? = some x) :
    (y :: l).Perm (x :: l.set i y) := by
  induction l generalizing i with
  | nil => simp at h
  | cons a l ih =>
    cases i with
    | zero =>
      obtain rfl : a = x := by simpa using h
      exact .swap a y l
    | succ i =>
      have hl := (ih i (by simpa using h)).cons a
      exact ((List.Perm.swap a y l).trans hl).trans (.swap x a _)

theorem swapRemove_perm {α : Type} (l : List α) (i : ℕ) (x : α) (h : l[i]? = some x) :
    l.Perm (x :: swapRemove l i) := by
  rcases List.eq_nil_or_concat l with rfl | ⟨front, last, rfl⟩
  · simp at h
  rw [List.concat_eq_append] at h ⊢
  rw [swapRemove_concat]
  split
  · next hi =>
    rw [List.getElem?_append_left hi] at h
    exact (List.perm_append_singleton last front).trans (set_perm front i x last h)
  · next hi =>
    obtain ⟨hlt, hx⟩ := List.getElem?_eq_some_iff.mp h
    have he : i = front.length := by simp at hlt; omega
    subst he
    obtain rfl : last = x := by simpa using hx
    exact List.perm_append_singleton last front

section Lists
variable {l : List Svdef} {i : ℕ} {sd sd' : Svdef}

theorem keys_set (hi : l[i]? = some sd) (hk : sd'.key = sd.key) :
    (l.set i sd').map Svdef.key = l.map Svdef.key := by
  rw [List.map_set, hk]
  refine List.ext_getElem? fun j => ?_
  rw [List.getElem?_set]
  split
  · next h =>
    subst h
    split <;> simp_all
  · rfl

theorem set_self {α : Type} {l : List α} {i : ℕ} {x : α} (h : l[i]? = some x) : l.set i x = l := by
  obtain ⟨hi, rfl⟩ := List.getElem?_eq_some_iff.mp h
  exact List.set_getElem_self hi

theorem mem_set_cases {x y : Svdef} (h : x ∈ l.set i y) : x = y ∨ ∃ j, j ≠ i ∧ l[j]? = some x := by
  obtain ⟨j, hj⟩ := List.getElem?_of_mem h
  by_cases hij : i = j
  · subst hij
    rw [List.getElem?_set] at hj
    simp only [↓reduceIte] at hj
    split at hj <;> simp_all
  · rw [List.getElem?_set_ne hij] at hj
    exact Or.inr ⟨j, Ne.symm hij, hj⟩

theorem key_ne_of_ne {j : ℕ} {x : Svdef} (hn : (l.map Svdef.key).Nodup) (hi : l[i]? = some sd)
    (hj : l[j]? = some x) (hij : j ≠ i) : sd.key ≠ x.key := by
  intro hk
  have h1 : (l.map Svdef.key)[i]? = some sd.key := by simp [hi]
  have h2 : (l.map Svdef.key)[j]? = some sd.key := by simp [hj, hk]
  have hlt : i < (l.map Svdef.key).length := by
    by_contra hge
    rw [List.getElem?_eq_none (by omega)] at h1
    simp at h1
  exact hij ((List.getElem?_inj hlt hn).mp (h1.trans h2.symm)).symm

theorem lookup_eq_none {dev ino : UInt64} (h : perpdLookup l dev ino = none) :
    (dev, ino) ∉ l.map Svdef.key := by
  intro hm
  obtain ⟨sd, hsd, hk⟩ := List.mem_map.mp hm
  have := (List.findIdx?_eq_none_iff.mp h) sd hsd
  simp only [Svdef.key, Prod.mk.injEq] at hk
  simp [hk.1, hk.2] at this

end Lists

theorem exists_other_key (k : Key) : ∃ k' : Key, k ≠ k' := by
  by_cases h : k = (0, 0)
  · exact ⟨(1, 0), by rw [h]; decide⟩
  · exact ⟨(0, 0), h⟩

theorem Idle.frame {s s' : Sys} (h : Idle s s') (k : Key) : Frame k s s' where
  grows := by
    obtain ⟨evs, ht, hp⟩ := h.grows
    refine ⟨evs, ht, ?_, ?_, ?_, fun fd o _ ho => Or.inl (by rwa [h.fds])⟩ <;> intro e he <;>
      have := hp e he <;> unfold Plain at this <;> split at this <;> simp_all [Event.key, Event.pid]
  opens _ _ _ ho := by rwa [h.fds] at ho
  listens _ ho := by rwa [h.fds] at ho
  children _ _ := by rw [h.children]
  serial := h.serial.ge
  terminating ht := by rwa [h.terminating]
  term ht := by
    obtain ⟨evs, he, hp⟩ := h.grows
    have hn : .term ∉ evs := fun hm => hp _ hm
    simpa [h.terminating, he, hn] using ht
  shut := Or.inl h.terminating
  signals := h.signals
  listen := h.listen

theorem Idle.of_silent {s s' : Sys} (ht : s'.trace = s.trace) (hf : s'.fds = s.fds)
    (hc : s'.children = s.children) (hn : s'.serial = s.serial)
    (hx : s'.flagTerminating = s.flagTerminating) (hg : s'.sysstrSignal = s.sysstrSignal)
    (hl : s'.fdListen = s.fdListen) (hk : s'.clock = s.clock) : Idle s s' :=
  ⟨⟨[], by simp [ht]⟩, .of_eq hk, hf, hc, hn, hx, hg, hl⟩

theorem Idle.emit (s : Sys) (e : Event) (he : Plain e) : Idle s (s.emit e) :=
  ⟨⟨[e], rfl, by simpa using he⟩, .of_eq rfl, rfl, rfl, rfl, rfl, rfl, rfl⟩

theorem Idle.trans {s t u : Sys} (h : Idle s t) (h' : Idle t u) : Idle s u where
  grows := by
    obtain ⟨a, ha, hpa⟩ := h.grows
    obtain ⟨b, hb, hpb⟩ := h'.grows
    exact ⟨a ++ b, by rw [hb, ha, List.append_assoc],
      fun e he => (List.mem_append.mp he).elim (hpa e) (hpb e)⟩
  clock := h.clock.trans h'.clock
  fds := h'.fds.trans h.fds
  children := h'.children.trans h.children
  serial := h'.serial.trans h.serial
  terminating := h'.terminating.trans h.terminating
  signals := h'.signals.trans h.signals
  listen := h'.listen.trans h.listen

theorem terminated_frame (s : Sys) (k : Key) (hl : ∀ fd, s.fds fd = some .listen → fd = s.fdListen) :
    Frame k s (terminated s) where
  grows := by
    refine ⟨[.term, .closed s.fdListen (s.fds s.fdListen)], by simp [terminated, Sys.close, Sys.emit],
      by simp [Event.key], by simp [Event.pid], by simp, fun fd o _ h => ?_⟩
    by_cases he : fd = s.fdListen
    · subst he
      exact Or.inr (by simp [h])
    · exact Or.inl (by simp [terminated, Sys.close, Sys.emit, Function.update_of_ne he, h])
  opens fd o _ h := by
    by_cases he : fd = s.fdListen
    · simp [terminated, Sys.close, Sys.emit, he] at h
    · simpa [terminated, Sys.close, Sys.emit, Function.update_of_ne he] using h
  listens fd h := by
    by_cases he : fd = s.fdListen
    · simp [terminated, Sys.close, Sys.emit, he] at h
    · simpa [terminated, Sys.close, Sys.emit, Function.update_of_ne he] using h
  children _ _ := Iff.rfl
  serial := le_refl _
  terminating _ := rfl
  term _ := by simp [terminated, Sys.close, Sys.emit]
  shut := by
    refine Or.inr fun fd h => ?_
    by_cases he : fd = s.fdListen
    · simp [terminated, Sys.close, Sys.emit, he] at h
    · exact he (hl fd (by simpa [terminated, Sys.close, Sys.emit, Function.update_of_ne he] using h))
  signals := rfl
  listen := rfl

theorem childless_of_cullok {s : Sys} {sd : Svdef} (h : SvOk s sd)
    (hc : perpdSvdefCullok sd = true) : Childless s sd.key := by
  intro p w hp
  obtain ⟨h0, hs⟩ := h.slot p w hp
  simp only [perpdSvdefCullok, Bool.and_eq_true, Bool.not_eq_true', decide_eq_false_iff_not,
    Bool.and_eq_false_iff] at hc
  obtain ⟨⟨_, hm⟩, hl⟩ := hc
  cases w with
  | main => exact hm (by simp only [Svdef.sv_main] at hs; omega)
  | log =>
    simp only [Svdef.sv_log] at hs
    rcases hl with hl | hl
    · have := (h.nolog hl).1
      omega
    · omega

theorem svOk_put_active {s : Sys} {sd : Svdef} (h : SvOk s sd) : SvOk s (sd.put .active) := by
  refine h.calmStep (.mark _ ⟨rfl, rfl, rfl, rfl, by simp, ?_, ?_⟩)
  · intro f hf _
    simp [hf.symm]
  · intro hc
    exact Or.inl (by simpa using hc)

theorem activate_svOk {s s' : Sys} {svdir : List Char} {st : Stat} {d : ActivateIn} {sd : Svdef}
    (hc : Childless s (st.dev, st.ino)) (ha : perpdSvdefActivate s svdir st d = (s', some sd)) :
    SvOk s' sd ∧ sd.key = (st.dev, st.ino) ∧ ∀ k, (st.dev, st.ino) ≠ k → Frame k s s' := by
  obtain ⟨sd0, s1, ho, rfl, rfl⟩ := activate_some ha
  have hk : sd0.key = (st.dev, st.ino) := ho.blank.key
  refine ⟨?_, (firstStart_kept _ _).key.trans hk, fun k hne => ?_⟩
  · refine firstStart_svOk (SvOk.emitSv ?_ _ _)
    refine Blank.svOk ho.blank fun p w => ?_
    rw [ho.children]
    exact hc p w
  · have he := Frame.emitSv s1 sd0 (.activate s.serial) (by rwa [hk]) (by simp [Event.pid])
    exact ((ho.frame hne).trans he).trans (firstStart_frame _ _ (by rwa [hk]))

theorem activateFail_frame {s s' : Sys} {svdir : List Char} {st : Stat} {d : ActivateIn}
    (ha : perpdSvdefActivate s svdir st d = (s', none)) :
    Failed s (st.dev, st.ino) s' := by
  rcases activate_cases s svdir st d with ⟨s1, h, hf⟩ | ⟨sd0, s1, _, h⟩ <;> rw [h] at ha
  · obtain ⟨rfl, _⟩ := Prod.mk.inj ha
    exact hf
  · simp at ha

theorem listen_frame {k : Key} {s s' : Sys} (hf : Frame k s s')
    (h : ∀ fd, s.fds fd = some .listen → fd = s.fdListen ∧ s.flagTerminating = false) (fd : ℕ)
    (hfd : s'.fds fd = some .listen) : fd = s'.fdListen ∧ s'.flagTerminating = false := by
  obtain ⟨he, ht⟩ := h fd (hf.listens fd hfd)
  rcases hf.shut with hs | hn
  · exact ⟨he.trans hf.listen.symm, hs.trans ht⟩
  · exact absurd hfd (hn fd)

namespace TableOk
variable {t t' : Table}

theorem of_frames (h : TableOk t) {s' : Sys} {conns : Multiset ℕ}
    (hf : ∀ k, Frame k t.sys s') : TableOk ⟨s', t.svdefs, conns⟩ where
  nodup := h.nodup
  size := h.size
  ok sd hsd := (h.ok sd hsd).frame (hf _)
  orphans k hk p w hp := h.orphans k hk p w (((hf k).children p w).mp hp)
  term := (hf (0, 0)).term h.term
  listen := listen_frame (hf (0, 0)) h.listen

theorem move (h : TableOk t) (hm : Move t t') : TableOk t' := by
  cases hm with
  | entry i sd s' sd' hi hs ht =>
    have hmem := List.mem_of_getElem? hi
    have hk : sd'.key = sd.key := (Kept.entryStep hs).key
    have hf (k : Key) (hne : sd.key ≠ k) := entryStep_frame hs (h.ok sd hmem) hne
    obtain ⟨k', hk'⟩ := exists_other_key sd.key
    refine ⟨?_, by simpa using h.size, ?_, ?_, (hf k' hk').term h.term,
      listen_frame (hf k' hk') h.listen⟩
    · exact (keys_set hi hk).symm ▸ h.nodup
    · intro x hx
      rcases mem_set_cases hx with rfl | ⟨j, hji, hj⟩
      · exact (h.ok sd hmem).entryStep hs
      · exact (h.ok x (List.mem_of_getElem? hj)).frame (hf _ (key_ne_of_ne h.nodup hi hj hji))
    · intro k hkn p w hp
      rw [keys_set hi hk] at hkn
      have hne : sd.key ≠ k := by
        rintro rfl
        exact hkn (List.mem_map_of_mem hmem)
      exact h.orphans k hkn p w (((hf k hne).children p w).mp hp)
  | activate svdir st d s' sd hnew hroom ht ha =>
    have hnk := lookup_eq_none hnew
    obtain ⟨hok, hk, hf⟩ := activate_svOk (h.orphans _ hnk) ha
    obtain ⟨k', hk'⟩ := exists_other_key (st.dev, st.ino)
    refine ⟨?_, by simp; omega, ?_, ?_, (hf k' hk').term h.term,
      listen_frame (hf k' hk') h.listen⟩
    · rw [List.map_append, List.nodup_append]
      refine ⟨h.nodup, by simp, ?_⟩
      simp only [List.map_cons, Svdef.put_key, List.map_nil, List.mem_singleton, forall_eq, hk]
      exact fun x hx hxe => hnk (hxe ▸ hx)
    · intro x hx
      rcases List.mem_append.mp hx with hx | hx
      · refine (h.ok x hx).frame (hf _ fun he => hnk ?_)
        exact he ▸ List.mem_map_of_mem hx
      · obtain rfl := List.mem_singleton.mp hx
        exact svOk_put_active hok
    · intro k hkn p w hp
      simp only [List.map_append, List.map_cons, Svdef.put_key, hk, List.map_nil, List.mem_append,
        List.mem_singleton, not_or] at hkn
      exact h.orphans k hkn.1 p w (((hf k (Ne.symm hkn.2)).children p w).mp hp)
  | activateFail svdir st d s' hnew ha =>
    have hf := activateFail_frame ha
    have hnk := lookup_eq_none hnew
    obtain ⟨k', hk'⟩ := exists_other_key (st.dev, st.ino)
    refine ⟨h.nodup, h.size, ?_, ?_, (hf.frame hk').term h.term,
      listen_frame (hf.frame hk') h.listen⟩
    · intro x hx
      refine (h.ok x hx).frame (hf.frame fun he => hnk ?_)
      exact he ▸ List.mem_map_of_mem hx
    · intro k hkn p w hp
      rw [hf.children] at hp
      exact h.orphans k hkn p w hp
  | cull i sd hi hc =>
    have hmem := List.mem_of_getElem? hi
    have hperm := swapRemove_perm _ _ _ hi
    have hkeys := hperm.map Svdef.key
    have hnd := hkeys.nodup_iff.mp h.nodup
    rw [List.map_cons, List.nodup_cons] at hnd
    have hf (k : Key) (hne : sd.key ≠ k) :
        Frame k t.sys (perpdSvdefClose (t.sys.emitSv sd .cull) sd) :=
      (Frame.emitSv _ _ _ hne (by simp [Event.pid])).trans (.close _ _)
    obtain ⟨k', hk'⟩ := exists_other_key sd.key
    refine ⟨hnd.2, ?_, ?_, ?_, (hf k' hk').term h.term, listen_frame (hf k' hk') h.listen⟩
    · have := hperm.length_eq
      have := h.size
      simp only [List.length_cons] at *
      omega
    · intro x hx
      refine (h.ok x (hperm.mem_iff.mpr (List.mem_cons_of_mem _ hx))).frame (hf _ ?_)
      exact fun he => hnd.1 (he ▸ List.mem_map_of_mem hx)
    · intro k hkn p w hp
      by_cases he : sd.key = k
      · subst he
        exact childless_of_cullok (h.ok sd hmem) hc p w hp
      · refine h.orphans k (fun hk => ?_) p w (((hf k he).children p w).mp hp)
        rw [hkeys.mem_iff, List.map_cons, List.mem_cons] at hk
        exact hk.elim (fun hk => he hk.symm) hkn
  | accept fd hf => exact h.of_frames fun k => opened_frame _ _ _ hf (by simp [Obj.key]) (by simp)
  | drop fd conns hc => exact h.of_frames fun k => .close _ _
  | term ht => exact h.of_frames fun k => terminated_frame _ k fun fd hfd => (h.listen fd hfd).1
  | idle s' hi => exact h.of_frames hi.frame

theorem moves (h : TableOk t) (hm : Moves t t') : TableOk t' := by
  induction hm with
  | refl => exact h
  | tail _ hm ih => exact ih.move hm

end TableOk

end Perp.PerpdMoves
