import Mathlib.Algebra.BigOperators.Group.List.Basic
import Mathlib.Algebra.Order.Group.Multiset
import Perp.PerpdStill

set_option autoImplicit false

/-!
# The loops of perpd are sequences of moves

Each routine that goes through `svdefs[]`, the dead children, the directory or
the clients is followed step by step. A stretch may remove and activate
services; work does not.
-/
namespace Perp.PerpdPhases
open PerpdState PerpdSvdef PerpdConn PerpdMainloop PerpdFrame PerpdEntry PerpdEffect PerpdSlots
  PerpdActivate PerpdMoves PerpdStill Pkt

/-- The open descriptor of a connection. -/
def connfd (c : Conn) : Multiset ℕ := c.connfd.elim 0 ({·})

def connfds (cs : List Conn) : Multiset ℕ := (cs.map connfd).sum

@[simp] theorem connfds_nil : connfds [] = 0 := rfl

@[simp] theorem connfds_cons (c : Conn) (cs : List Conn) :
    connfds (c :: cs) = connfd c + connfds cs := by
  simp [connfds]

@[simp] theorem connfds_append (cs ds : List Conn) :
    connfds (cs ++ ds) = connfds cs + connfds ds := by
  simp [connfds]

theorem connfds_perm {cs ds : List Conn} (h : cs.Perm ds) : connfds cs = connfds ds :=
  (h.map connfd).sum_eq

def table (w : Perpd) : Table := ⟨w.sys, w.svdefs, connfds w.clients⟩

/-- Once perpd is terminating every service is being deactivated. -/
def CullAll (t : Table) : Prop :=
  t.sys.flagTerminating = true → ∀ sd ∈ t.svdefs, sd.has .cull = true

def EntrySteps : Sys × Svdef → Sys × Svdef → Prop :=
  Relation.ReflTransGen fun a b => EntryStep a.1 a.2 b.1 b.2

theorem EntrySteps.one {s s' : Sys} {sd sd' : Svdef} (h : EntryStep s sd s' sd') :
    EntrySteps (s, sd) (s', sd') :=
  .single h

theorem EntrySteps.next {x : Sys × Svdef} {s s' : Sys} {sd sd' : Svdef} (hx : EntrySteps x (s, sd))
    (h : EntryStep s sd s' sd') : EntrySteps x (s', sd') :=
  hx.tail h

/-- A move that is no termination and no signal. -/
def Step (t t' : Table) : Prop := Move t t' ∧ Flags t.sys t'.sys

abbrev Steps : Table → Table → Prop := Relation.ReflTransGen Step

theorem Steps.moves {t t' : Table} (h : Steps t t') : Moves t t' :=
  Relation.ReflTransGen.mono (fun _ _ hs => hs.1) t t' h

theorem Steps.flags {t t' : Table} (h : Steps t t') : Flags t.sys t'.sys := by
  induction h with
  | refl => exact .refl _
  | tail _ hs ih => exact ih.trans hs.2

structure Stretch (t t' : Table) : Prop where
  steps : Steps t t'
  culled : CullAll t → CullAll t'

namespace Stretch
variable {t t' t'' : Table}

theorem moves (h : Stretch t t') : Moves t t' := h.steps.moves

theorem flags (h : Stretch t t') : Flags t.sys t'.sys := h.steps.flags

theorem refl (t : Table) : Stretch t t := ⟨.refl, id⟩

theorem trans (h : Stretch t t') (h' : Stretch t' t'') : Stretch t t'' :=
  ⟨h.steps.trans h'.steps, fun hc => h'.culled (h.culled hc)⟩

theorem cull (i : ℕ) (sd : Svdef) (hi : t.svdefs[i]? = some sd) (hc : perpdSvdefCullok sd = true) :
    Stretch t ⟨perpdSvdefClose (t.sys.emitSv sd .cull) sd, swapRemove t.svdefs i, t.conns⟩ where
  steps := .single ⟨.cull i sd hi hc, ⟨rfl, rfl, rfl, le_refl _⟩⟩
  culled h ht x hx :=
    h ht x ((swapRemove_perm _ _ _ hi).mem_iff.mpr (List.mem_cons_of_mem _ hx))

theorem idle (s' : Sys) (h : Idle t.sys s') (hf : Flags t.sys s') :
    Stretch t ⟨s', t.svdefs, t.conns⟩ where
  steps := .single ⟨.idle s' h, hf⟩
  culled hc ht := hc (by rwa [hf.terminating] at ht)

theorem activate (svdir : List Char) (st : Stat) (d : ActivateIn) (s' : Sys) (sd : Svdef)
    (hnew : perpdLookup t.svdefs st.dev st.ino = none) (hroom : t.svdefs.length < perpMax)
    (ht : t.sys.flagTerminating = false)
    (ha : perpdSvdefActivate t.sys svdir st d = (s', some sd)) :
    Stretch t ⟨s', t.svdefs ++ [sd.put .active], t.conns⟩ := by
  have hf : Flags t.sys s' := by simpa [ha] using activate_flags t.sys svdir st d
  refine ⟨.single ⟨.activate svdir st d s' sd hnew hroom ht ha, hf⟩, fun _ ht' => ?_⟩
  exact absurd ((hf.terminating.symm.trans ht').symm.trans ht) (by simp)

end Stretch

/-- Work in which no service comes or goes. -/
structure Work (t t' : Table) : Prop extends Stretch t t' where
  inside : Inside t.sys t'.sys

namespace Work
variable {t t' t'' : Table}

theorem refl (t : Table) : Work t t := ⟨.refl t, .refl _⟩

theorem trans (h : Work t t') (h' : Work t' t'') : Work t t'' :=
  ⟨h.toStretch.trans h'.toStretch, h.inside.trans h'.inside⟩

theorem entry (i : ℕ) (sd : Svdef) (s' : Sys) (sd' : Svdef) (hi : t.svdefs[i]? = some sd)
    (hs : EntryStep t.sys sd s' sd') (hc : CullAll t) :
    Work t ⟨s', t.svdefs.set i sd', t.conns⟩ where
  steps := .single ⟨.entry i sd s' sd' hi hs fun ht => Or.inl (hc ht _ (List.mem_of_getElem? hi)),
    .entryStep hs⟩
  inside := entryStep_inside hs
  culled h ht x hx := by
    replace ht : t.sys.flagTerminating = true := (Flags.entryStep hs).terminating ▸ ht
    rcases mem_set_cases hx with rfl | ⟨j, _, hj⟩
    · exact (Kept.entryStep hs).cull (h ht _ (List.mem_of_getElem? hi))
    · exact h ht x (List.mem_of_getElem? hj)

theorem wantcull (i : ℕ) (sd : Svdef) (hi : t.svdefs[i]? = some sd) :
    Work t ⟨(perpdSvdefWantcull t.sys sd).1.1, t.svdefs.set i (perpdSvdefWantcull t.sys sd).1.2,
      t.conns⟩ where
  steps := .single ⟨.entry i sd _ _ hi (.calm _ _ .wantcull) fun _ => Or.inr rfl,
    .calm (.wantcull _ _)⟩
  inside := entryStep_inside (.calm _ _ .wantcull)
  culled h ht x hx := by
    replace ht : t.sys.flagTerminating = true := (Flags.calm (.wantcull t.sys sd)).terminating ▸ ht
    rcases mem_set_cases hx with rfl | ⟨j, _, hj⟩
    · simp
    · exact h ht x (List.mem_of_getElem? hj)

theorem accept (fd : ℕ) (hf : t.sys.fds fd = none) :
    Work t ⟨opened t.sys fd .client, t.svdefs, fd ::ₘ t.conns⟩ where
  steps := .single ⟨.accept fd hf, ⟨rfl, rfl, rfl, le_refl _⟩⟩
  inside := .opened _ fd _ trivial
  culled h := h

theorem drop (fd : ℕ) (conns : Multiset ℕ) (hc : t.conns = fd ::ₘ conns) :
    Work t ⟨t.sys.close fd, t.svdefs, conns⟩ where
  steps := .single ⟨.drop fd conns hc, ⟨rfl, rfl, rfl, le_refl _⟩⟩
  inside := .close _ fd fun _ => trivial
  culled h := h

theorem idle (s' : Sys) (h : Idle t.sys s') (hf : Flags t.sys s') (hi : Inside t.sys s') :
    Work t ⟨s', t.svdefs, t.conns⟩ :=
  ⟨.idle s' h hf, hi⟩

theorem activateFail (svdir : List Char) (st : Stat) (d : ActivateIn) (s' : Sys)
    (hnew : perpdLookup t.svdefs st.dev st.ino = none)
    (ha : perpdSvdefActivate t.sys svdir st d = (s', none)) : Work t ⟨s', t.svdefs, t.conns⟩ := by
  have hf : Flags t.sys s' := by simpa [ha] using activate_flags t.sys svdir st d
  refine ⟨⟨.single ⟨.activateFail svdir st d s' hnew ha, hf⟩, fun hc ht => hc ?_⟩,
    failed_inside (activateFail_frame ha)⟩
  rwa [hf.terminating] at ht

theorem entries {s s' : Sys} {l : List Svdef} {conns : Multiset ℕ} {i : ℕ} {sd sd' : Svdef}
    (hi : l[i]? = some sd) (hc : CullAll ⟨s, l, conns⟩) (h : EntrySteps (s, sd) (s', sd')) :
    Work ⟨s, l, conns⟩ ⟨s', l.set i sd', conns⟩ := by
  generalize hx : (s', sd') = x at h
  induction h generalizing s' sd' with
  | refl =>
    obtain ⟨rfl, rfl⟩ := Prod.mk.inj hx
    rw [set_self hi]
    exact .refl _
  | tail _ hs ih =>
    next y z _ =>
    subst hx
    have hw := ih rfl
    have hi' : (l.set i y.2)[i]? = some y.2 := by
      simp [(List.getElem?_eq_some_iff.mp hi).1]
    have h1 := Work.entry (t := ⟨y.1, l.set i y.2, conns⟩) i y.2 s' sd' hi' hs (hw.culled hc)
    rw [List.set_set] at h1
    exact hw.trans h1

end Work

/-- Work on the services alone. -/
structure Chore (t t' : Table) : Prop extends Work t t' where
  owned : Within Own t.sys t'.sys

namespace Chore
variable {t t' t'' : Table}

theorem refl (t : Table) : Chore t t := ⟨.refl t, .refl _⟩

theorem trans (h : Chore t t') (h' : Chore t' t'') : Chore t t'' :=
  ⟨h.toWork.trans h'.toWork, h.owned.trans h'.owned⟩

theorem entry (i : ℕ) (sd : Svdef) (s' : Sys) (sd' : Svdef) (hi : t.svdefs[i]? = some sd)
    (hs : EntryStep t.sys sd s' sd') (hc : CullAll t) :
    Chore t ⟨s', t.svdefs.set i sd', t.conns⟩ :=
  ⟨.entry i sd s' sd' hi hs hc, entryStep_owned hs⟩

theorem wantcull (i : ℕ) (sd : Svdef) (hi : t.svdefs[i]? = some sd) :
    Chore t ⟨(perpdSvdefWantcull t.sys sd).1.1, t.svdefs.set i (perpdSvdefWantcull t.sys sd).1.2,
      t.conns⟩ :=
  ⟨.wantcull i sd hi, entryStep_owned (.calm _ _ .wantcull)⟩

theorem drop (fd : ℕ) (conns : Multiset ℕ) (hc : t.conns = fd ::ₘ conns) :
    Chore t ⟨t.sys.close fd, t.svdefs, conns⟩ :=
  ⟨.drop fd conns hc, .close _ fd fun _ => trivial⟩

end Chore

theorem emit_stretch (s : Sys) (svdefs : List Svdef) (rest : Multiset ℕ) (e : Event) (he : Plain e) :
    Stretch ⟨s, svdefs, rest⟩ ⟨s.emit e, svdefs, rest⟩ :=
  .idle (t := ⟨s, svdefs, rest⟩) _ (.emit s e he) ⟨rfl, rfl, rfl, le_refl _⟩

theorem emit_work (s : Sys) (svdefs : List Svdef) (rest : Multiset ℕ) (e : Event) (he : Plain e)
    (hi : Inner e) : Work ⟨s, svdefs, rest⟩ ⟨s.emit e, svdefs, rest⟩ :=
  ⟨emit_stretch s svdefs rest e he, .emit s e hi⟩

theorem tainNow_idle (s : Sys) : Idle s s.tainNow.2 :=
  ⟨⟨[], by simp [Sys.tainNow]⟩, tainNow_later s, rfl, rfl, rfl, rfl, rfl, rfl⟩

theorem tainNow_flags (s : Sys) : Flags s s.tainNow.2 := ⟨rfl, rfl, rfl, le_refl _⟩

theorem tainNow_work (s : Sys) (svdefs : List Svdef) (rest : Multiset ℕ) :
    Chore ⟨s, svdefs, rest⟩ ⟨s.tainNow.2, svdefs, rest⟩ := by
  have htr : s.tainNow.2.trace = s.trace ++ [] := by simp [Sys.tainNow]
  exact ⟨.idle (t := ⟨s, svdefs, rest⟩) _ (tainNow_idle s) (tainNow_flags s) ⟨[], htr, by simp⟩,
    [], htr, by simp⟩

section Connections
variable {svdefs : List Svdef} {rest : Multiset ℕ}

theorem connClose_work (s : Sys) (c : Conn) :
    Chore ⟨s, svdefs, connfd c + rest⟩
      ⟨(perpdConnClose s c).1, svdefs, connfd (perpdConnClose s c).2 + rest⟩ := by
  cases h : c.connfd with
  | none =>
    simp only [perpdConnClose, h, perpdConnReset, connfd]
    exact .refl _
  | some fd =>
    simp only [perpdConnClose, h, perpdConnReset, connfd, Option.elim_some, Option.elim_none,
      zero_add]
    exact .drop (t := ⟨s, svdefs, {fd} + rest⟩) fd rest (Multiset.singleton_add fd rest)

theorem checkstaleLoop_work (now : Tain) (cs : List Conn) (s : Sys) (rest : Multiset ℕ) :
    Chore ⟨s, svdefs, connfds cs + rest⟩
      ⟨(checkstaleLoop now cs s).1, svdefs, connfds (checkstaleLoop now cs s).2 + rest⟩ := by
  induction cs generalizing s rest with
  | nil => exact .refl _
  | cons c cs ih =>
    have hone : Chore ⟨s, svdefs, connfd c + (connfds cs + rest)⟩
        ⟨(if c.connfd.isSome then perpdConnCheckstale s c now else (s, c)).1, svdefs,
          connfd (if c.connfd.isSome then perpdConnCheckstale s c now else (s, c)).2 +
            (connfds cs + rest)⟩ := by
      unfold perpdConnCheckstale
      split
      · split
        · exact connClose_work s c
        · exact .refl _
      · exact .refl _
    simp only [checkstaleLoop, connfds_cons, add_assoc]
    refine hone.trans ?_
    rw [add_left_comm (connfd _) (connfds cs), add_left_comm (connfd _) (connfds _)]
    exact ih _ _

theorem connCullLoop_connfds (left i : ℕ) (cs : List Conn) :
    connfds (connCullLoop left i cs) = connfds cs := by
  induction left generalizing i cs with
  | zero => rfl
  | succ left ih =>
    unfold connCullLoop
    split
    · rfl
    next c hc =>
    split
    · next hn =>
      rw [ih, connfds_perm (swapRemove_perm cs i c hc)]
      simp [connfd, hn]
    · exact ih _ _

theorem loopTop_work (w : Perpd) : Chore (table w) (table (loopTop w)) := by
  have h0 := tainNow_work w.sys w.svdefs (connfds w.clients)
  have h1 := @checkstaleLoop_work w.svdefs w.sys.tainNow.1 w.clients w.sys.tainNow.2 0
  simp only [add_zero] at h1
  simp only [table, loopTop, connCullLoop_connfds]
  exact h0.trans h1

end Connections

section Control
variable {s : Sys} {sd : Svdef}

theorem doDown_steps (hc : sd.has .cull = false) (which : Which) (pg : Bool) :
    EntrySteps (s, sd) (doDown s sd which pg) ∧ (doDown s sd which pg).2.has .cull = false := by
  have hwant := EntrySteps.one (.calm _ _ (.want (s := s) which hc))
  have hc' : (sd.setSv which ((sd.sv which).put .wantdown)).has .cull = false := by simpa using hc
  unfold doDown
  dsimp only
  split
  · exact ⟨(hwant.next (.calm _ _ (.signal which .term pg hc' rfl))).next
      (.calm _ _ (.cont which pg hc')), by simpa [doContinue, doSignal, Cmd.signal] using hc⟩
  · exact ⟨hwant, hc'⟩

theorem doStart_cull (which : Which) (cmd : Cmd) :
    (doStart s sd which cmd).2.has .cull = sd.has .cull := by
  rcases start_cases s sd which cmd with ⟨_, he⟩ | ⟨_, he⟩ <;> simp [he]

theorem doControl_steps (hc : sd.has .cull = false) (which : Which) (cmd : Cmd) (pg : Bool) :
    EntrySteps (s, sd) (doControl s sd which cmd pg) := by
  have hsig (h : (Cmd.signal cmd).isSome = true) : EntrySteps (s, sd) (doSignal s sd which cmd pg) :=
    .single (.calm _ _ (.signal which cmd pg hc h))
  cases cmd with
  | metaDown =>
    have hn := EntrySteps.one (.calm _ _ (.note (s := s) which .metaDown hc (Or.inl rfl)))
    unfold doControl
    dsimp only
    split
    · have h1 := doDown_steps (s := s.emitSv sd (.control which .metaDown)) hc .main pg
      exact (hn.trans h1.1).trans (doDown_steps h1.2 .log pg).1
    · exact hn
  | metaUp =>
    have hn := EntrySteps.one (.calm _ _ (.note (s := s) which .metaUp hc (Or.inr rfl)))
    unfold doControl
    dsimp only
    split
    · refine (hn.next (.start .log .up hc (Or.inr rfl))).next (.start .main .up ?_ (Or.inr rfl))
      rw [doStart_cull]
      exact hc
    · exact hn
  | «continue» => exact .single (.calm _ _ (.cont which pg hc))
  | down => exact (doDown_steps hc which pg).1
  | once => exact .single (.start which .once hc (Or.inl rfl))
  | up => exact .single (.start which .up hc (Or.inr rfl))
  | pause => exact .single (.calm _ _ (.pause which pg hc))
  | alarm | hup | interrupt | kill | quit | term | winch | usr1 | usr2 => exact hsig rfl

end Control

section Requests
variable {svdefs : List Svdef} {rest : Multiset ℕ}

@[simp] theorem execReply_connfd (c : Conn) (err : UInt32) :
    connfd (perpdConnExecReply c err) = connfd c := rfl

theorem execControl_work {s : Sys} (c : Conn) (hc : CullAll ⟨s, svdefs, rest⟩) :
    let r := perpdConnExecControl s svdefs c
    Work ⟨s, svdefs, rest⟩ ⟨r.1.1, r.1.2, rest⟩ ∧ connfd r.2 = connfd c := by
  unfold perpdConnExecControl
  dsimp only
  split
  · exact ⟨.refl _, rfl⟩
  split
  · exact ⟨.refl _, rfl⟩
  next i _ _ sd hi =>
  split
  · exact ⟨.refl _, rfl⟩
  next hcull =>
  split
  · exact ⟨.refl _, rfl⟩
  · exact ⟨.entries hi hc (doControl_steps (by simpa using hcull) _ _ _), rfl⟩

theorem execQuery_work {s : Sys} (c : Conn) (hc : CullAll ⟨s, svdefs, rest⟩) :
    let r := perpdConnExecQuery s svdefs c
    Work ⟨s, svdefs, rest⟩ ⟨r.1, svdefs, rest⟩ ∧ connfd r.2 = connfd c := by
  unfold perpdConnExecQuery
  dsimp only
  split
  · exact ⟨.refl _, rfl⟩
  next sd hsd =>
  obtain ⟨i, _, hi⟩ := Option.bind_eq_some_iff.mp hsd
  have h := Work.entries hi hc (.single (.calm _ _ .status))
  rw [set_self hi] at h
  exact ⟨h, rfl⟩

theorem exec_work {s : Sys} (c : Conn) (hc : CullAll ⟨s, svdefs, rest⟩) :
    let r := perpdConnExec s svdefs c
    Work ⟨s, svdefs, rest⟩ ⟨r.1.1, r.1.2, rest⟩ ∧ connfd r.2 = connfd c := by
  have h0 := emit_work s svdefs rest (.request (c.pkt.take c.n)) trivial trivial
  have hfd : connfd (if c.n < pktHeader ∨ pktProto c.pkt ≠ 2 ∨ pktLen c.pkt ≠ c.n then
      perpdConnExecReply c ePROTO else c) = connfd c := by
    split <;> rfl
  intro r
  have hr : r = perpdConnExec s svdefs c := rfl
  clear_value r
  unfold perpdConnExec at hr
  extract_lets n s1 c1 type q at hr
  change connfd c1 = connfd c at hfd
  clear_value c1
  split at hr
  · split at hr <;> rw [hr]
    · exact ⟨h0, hfd⟩
    · obtain ⟨h1, h2⟩ := execControl_work c1 (h0.culled hc)
      exact ⟨h0.trans h1, h2.trans hfd⟩
  split at hr
  · split at hr <;> rw [hr]
    · exact ⟨h0, hfd⟩
    · obtain ⟨h1, h2⟩ := execQuery_work c1 (h0.culled hc)
      exact ⟨h0.trans h1, h2.trans hfd⟩
  split at hr <;> rw [hr]
  · exact ⟨h0, hfd⟩
  · exact ⟨h0, hfd⟩

theorem connRead_work {s : Sys} (c : Conn) (outs : List ReadRet)
    (hc : CullAll ⟨s, svdefs, connfd c + rest⟩) :
    let r := perpdConnRead s svdefs c outs
    Work ⟨s, svdefs, connfd c + rest⟩ ⟨r.1.1, r.1.2, connfd r.2 + rest⟩ := by
  unfold perpdConnRead
  dsimp only
  split
  · exact (connClose_work s { c with pkt := (pktRead outs c.pkt c.n).2 }).toWork
  split
  · obtain ⟨h1, h2⟩ := exec_work
      { c with
        pkt := (pktRead outs c.pkt c.n).2
        n := c.n + (pktRead outs c.pkt c.n).1.toNat } hc
    rw [h2]
    exact h1
  · exact .refl _

theorem connWrite_work (s : Sys) (c : Conn) (outs : List WriteRet) :
    let r := perpdConnWrite s c outs
    Work ⟨s, svdefs, connfd c + rest⟩ ⟨r.1, svdefs, connfd r.2 + rest⟩ := by
  have h0 (b : List UInt8) := emit_work s svdefs (connfd c + rest) (.sent c.connfd b) trivial trivial
  unfold perpdConnWrite
  dsimp only
  split
  · exact (h0 _).trans (connClose_work _ c).toWork
  split
  · exact (h0 _).trans (tainNow_work _ _ _).toWork
  · exact h0 _

theorem clientLoop_work (cs : List Conn) (inps : List ClientIn) (nready : ℕ) (s : Sys)
    (svdefs : List Svdef) (rest : Multiset ℕ) (hc : CullAll ⟨s, svdefs, connfds cs + rest⟩) :
    let r := clientLoop cs inps nready s svdefs
    Work ⟨s, svdefs, connfds cs + rest⟩ ⟨r.1.1, r.1.2, connfds r.2.1 + rest⟩ := by
  induction cs generalizing inps nready s svdefs rest with
  | nil => exact .refl _
  | cons c cs ih =>
    -- a step on one client, and then the others
    have hstep (s1 : Sys) (l1 : List Svdef) (c1 : Conn) (n : ℕ)
        (h : Work ⟨s, svdefs, connfd c + (connfds cs + rest)⟩
          ⟨s1, l1, connfd c1 + (connfds cs + rest)⟩) :
        Work ⟨s, svdefs, connfds (c :: cs) + rest⟩
          ⟨(clientLoop cs inps.tail n s1 l1).1.1, (clientLoop cs inps.tail n s1 l1).1.2,
            connfds (c1 :: (clientLoop cs inps.tail n s1 l1).2.1) + rest⟩ := by
      simp only [connfds_cons, add_assoc] at hc ⊢
      refine h.trans ?_
      rw [add_left_comm, add_left_comm (connfd c1) (connfds _) rest]
      refine ih _ _ _ _ _ ?_
      rw [← add_left_comm]
      exact h.culled hc
    have hc' : CullAll ⟨s, svdefs, connfd c + (connfds cs + rest)⟩ := by
      simpa only [connfds_cons, add_assoc] using hc
    unfold clientLoop
    dsimp only
    split
    · exact hstep _ _ _ _ (.refl _)
    split
    · exact .refl _
    split
    · exact hstep _ _ _ _ (connClose_work s c).toWork
    split
    · exact hstep _ _ _ _ (connRead_work c _ hc')
    split
    · exact hstep _ _ _ _ (connWrite_work s c _)
    · exact hstep _ _ _ _ (.refl _)

/-- Only a client whose `accept()` succeeds is added, and nothing else changes
but the kernel. -/
theorem loopAccept_cases (w : Perpd) (inp : AcceptIn) :
    ∃ s cs, loopAccept w inp = { w with sys := s, clients := cs } ∧
      (cs = w.clients ∨ w.clients.length ≠ perpdConnmax ∧ ∃ s0 fd, cs = w.clients ++
        [(perpdConnStart s0 ⟨none, .zero, .closed, List.replicate pktSize 0, 0, 0⟩ (some fd)).2]) := by
  unfold loopAccept
  dsimp only
  split
  · exact ⟨_, w.clients, rfl, Or.inl rfl⟩
  split
  · exact ⟨_, w.clients, rfl, Or.inl rfl⟩
  split
  · exact ⟨_, w.clients, rfl, Or.inl rfl⟩
  · next hroom => exact ⟨_, _, rfl, Or.inr ⟨hroom, _, _, rfl⟩⟩

theorem loopClients_cases (w : Perpd) (inp : IterIn) (nready : ℕ) :
    let r := clientLoop w.clients inp.clients nready w.sys w.svdefs
    let x : Perpd := { w with sys := r.1.1, svdefs := r.1.2, clients := r.2.1 }
    loopClients w inp nready = w ∨ loopClients w inp nready = x ∨
      loopClients w inp nready = loopAccept x inp.accept := by
  unfold loopClients
  dsimp only
  split
  · exact Or.inl rfl
  split
  · exact Or.inr (Or.inl rfl)
  split
  · exact Or.inr (Or.inr rfl)
  · exact Or.inr (Or.inl rfl)

end Requests

section Services
variable {rest : Multiset ℕ}

theorem cullLoop_stretch (left i : ℕ) (s : Sys) (svdefs : List Svdef) :
    Stretch ⟨s, svdefs, rest⟩
      ⟨(perpdCullLoop left i s svdefs).1, (perpdCullLoop left i s svdefs).2, rest⟩ := by
  induction left generalizing i s svdefs with
  | zero => exact .refl _
  | succ left ih =>
    unfold perpdCullLoop
    split
    · exact .refl _
    next sd hi =>
    split
    · next hc => exact (Stretch.cull (t := ⟨s, svdefs, rest⟩) i sd hi hc).trans (ih _ _ _)
    · exact ih _ _ _

theorem findPid_some {l : List Svdef} {pid i : ℕ} {w : Which} (h : findPid l pid = some (i, w)) :
    ∃ sd, l[i]? = some sd ∧ (sd.sv w).pid = pid := by
  induction l generalizing i with
  | nil => simp [findPid] at h
  | cons a l ih =>
    unfold findPid at h
    split at h
    · next hp =>
      simp only [Option.some.injEq, Prod.mk.injEq] at h
      obtain ⟨rfl, rfl⟩ := h
      exact ⟨a, rfl, hp.symm⟩
    split at h
    · next hp =>
      simp only [Option.some.injEq, Prod.mk.injEq] at h
      obtain ⟨rfl, rfl⟩ := h
      exact ⟨a, rfl, hp.symm⟩
    · obtain ⟨⟨j, w'⟩, hj, he⟩ := Option.map_eq_some_iff.mp h
      simp only [Prod.mk.injEq] at he
      obtain ⟨rfl, rfl⟩ := he
      exact ih hj

theorem findPid_none {l : List Svdef} {pid : ℕ} (h : findPid l pid = none) :
    ∀ sd ∈ l, ∀ w, (sd.sv w).pid ≠ pid := by
  induction l with
  | nil => simp
  | cons a l ih =>
    unfold findPid at h
    split at h
    · simp at h
    next hm =>
    split at h
    · simp at h
    next hl =>
    intro sd hsd w
    rcases List.mem_cons.mp hsd with rfl | hsd
    · cases w with
      | main => exact Ne.symm hm
      | log => exact Ne.symm hl
    · exact ih (by simpa using h) sd hsd w

theorem findPid_child {s : Sys} {svdefs : List Svdef} (h : TableOk ⟨s, svdefs, rest⟩) {pid : ℕ}
    (hc : (s.children pid).isSome = true) : ∃ i w sd, findPid svdefs pid = some (i, w) ∧
      svdefs[i]? = some sd ∧ (sd.sv w).pid = pid := by
  obtain ⟨⟨k, w⟩, hk⟩ := Option.isSome_iff_exists.mp hc
  by_cases hmem : k ∈ svdefs.map Svdef.key
  · obtain ⟨sd, hsd, rfl⟩ := List.mem_map.mp hmem
    have hpid := ((h.ok sd hsd).slot pid w hk).2
    cases hf : findPid svdefs pid with
    | none => exact absurd hpid (findPid_none hf sd hsd w)
    | some r =>
      obtain ⟨x, hx, hxp⟩ := findPid_some (w := r.2) hf
      exact ⟨r.1, r.2, x, rfl, hx, hxp⟩
  · exact absurd hk (h.orphans k hmem pid w)

theorem waitupLoop_work (reaps : List (ℕ × ℕ)) (gotCull gotCycle : ℕ) (s : Sys)
    (svdefs : List Svdef) (h : TableOk ⟨s, svdefs, rest⟩) (hc : CullAll ⟨s, svdefs, rest⟩) :
    let r := perpdWaitupLoop reaps gotCull gotCycle s svdefs
    Chore ⟨s, svdefs, rest⟩ ⟨r.1.1, r.1.2, rest⟩ := by
  induction reaps generalizing gotCull gotCycle s svdefs with
  | nil => exact .refl _
  | cons x reaps ih =>
    obtain ⟨pid, wstat⟩ := x
    unfold perpdWaitupLoop
    dsimp only
    split
    · next hg =>
      obtain ⟨hpos, hchild, hw⟩ := hg
      obtain ⟨i, w, sd, hf, hi, hpid⟩ := findPid_child h hchild
      have hw1 := Chore.entry (t := ⟨s, svdefs, rest⟩) i sd _ _ hi
        (.reap w wstat (by omega) hw) hc
      rw [hpid] at hw1
      simp only [hf, hi]
      exact hw1.trans (ih _ _ _ _ (h.moves hw1.moves) (hw1.culled hc))
    · exact ih _ _ _ _ h hc

theorem perpdTriggerScan_idle (s : Sys) : Idle s (perpdTriggerScan s) := by
  unfold perpdTriggerScan
  split
  · exact .of_silent rfl rfl rfl rfl rfl rfl rfl rfl
  · exact .of_silent rfl rfl rfl rfl rfl rfl rfl rfl

theorem wantcullLoop_work (left i gotCull : ℕ) (s : Sys) (svdefs : List Svdef) :
    let r := perpdWantcullLoop left i gotCull s svdefs
    Chore ⟨s, svdefs, rest⟩ ⟨r.1.1, r.1.2, rest⟩ := by
  induction left generalizing i gotCull s svdefs with
  | zero => exact .refl _
  | succ left ih =>
    unfold perpdWantcullLoop
    split
    · exact .refl _
    next sd hi =>
    exact (Chore.wantcull (t := ⟨s, svdefs, rest⟩) i sd hi).trans (ih _ _ _ _)

theorem checkfailLoop_work (left i : ℕ) (s : Sys) (svdefs : List Svdef)
    (hc : CullAll ⟨s, svdefs, rest⟩) :
    Chore ⟨s, svdefs, rest⟩
      ⟨(perpdCheckfailLoop left i s svdefs).1, (perpdCheckfailLoop left i s svdefs).2, rest⟩ := by
  induction left generalizing i s svdefs with
  | zero => exact .refl _
  | succ left ih =>
    unfold perpdCheckfailLoop
    split
    · exact .refl _
    next sd hi =>
    have hw := Chore.entry (t := ⟨s, svdefs, rest⟩) i sd _ _ hi .checkfail hc
    exact hw.trans (ih _ _ _ (hw.culled hc))

theorem keep_marked (sd : Svdef) (svdir : List Char) :
    Marked sd (if (perpdSvdefKeep sd svdir).has .cull then (perpdSvdefKeep sd svdir).put .cycle
      else perpdSvdefKeep sd svdir) := by
  have hk (f : SvdefFlag) : (perpdSvdefKeep sd svdir).has f = (decide (.active = f) || sd.has f) :=
    Svdef.put_has sd .active f
  split
  · next hc =>
    refine ⟨rfl, rfl, rfl, rfl, fun w => by cases w <;> rfl, ?_, ?_⟩
    · intro f ha hcy
      rw [Svdef.put_has, hk]
      simp [ha.symm, hcy.symm]
    · intro _
      rw [hk] at hc
      exact Or.inr (by simpa using hc)
  · refine ⟨rfl, rfl, rfl, rfl, fun w => by cases w <;> rfl, ?_, ?_⟩
    · intro f ha _
      rw [hk]
      simp [ha.symm]
    · intro h
      rw [hk] at h
      exact Or.inl (by simpa using h)

theorem drop_marked (sd : Svdef) (f : SvdefFlag) (hf : f = .active ∨ f = .cycle) :
    Marked sd (sd.drop f) := by
  refine ⟨rfl, rfl, rfl, rfl, by simp, ?_, ?_⟩
  · rintro g ha hcy
    rcases hf with rfl | rfl
    · simp [ha.symm]
    · simp [hcy.symm]
  · intro h
    simp only [Svdef.drop_has, Bool.and_eq_true] at h
    exact Or.inl h.2

theorem lookup_some {l : List Svdef} {dev ino : UInt64} {i : ℕ}
    (h : perpdLookup l dev ino = some i) : ∃ sd, l[i]? = some sd ∧ sd.key = (dev, ino) := by
  obtain ⟨hi, hp, _⟩ := List.findIdx?_eq_some_iff_getElem.mp h
  refine ⟨l[i], List.getElem?_eq_getElem hi, ?_⟩
  simp only [Bool.and_eq_true, beq_iff_eq] at hp
  exact Prod.ext hp.2 hp.1

theorem scanLoop_stretch (dirents : List Dirent) (gotFail : ℕ) (s : Sys) (svdefs : List Svdef)
    (hc : CullAll ⟨s, svdefs, rest⟩) (ht : s.flagTerminating = false) :
    let r := perpdScanLoop dirents gotFail s svdefs
    Stretch ⟨s, svdefs, rest⟩ ⟨r.1.1, r.1.2, rest⟩ := by
  induction dirents generalizing gotFail s svdefs with
  | nil => exact .refl _
  | cons d dirents ih =>
    unfold perpdScanLoop
    dsimp only
    split
    · exact ih _ _ _ hc ht
    next st _ =>
    split
    · next i hl =>
      obtain ⟨sd, hi, _⟩ := lookup_some hl
      have hm := Work.entry (t := ⟨s, svdefs, rest⟩) i sd _ _ hi
        (.calm _ _ (.mark _ (keep_marked sd d.name))) hc
      rw [List.modify_eq_set_getElem?, hi]
      exact hm.toStretch.trans (ih _ _ _ (hm.culled hc) ht)
    next hl =>
    split
    · exact ih _ _ _ hc ht
    next hroom =>
    split
    · next s1 ha =>
      have hw := Work.activateFail (t := ⟨s, svdefs, rest⟩) _ _ _ _ hl ha
      exact hw.toStretch.trans (ih _ _ _ (hw.culled hc) (hw.flags.terminating.trans ht))
    · next s1 sd ha =>
      have hw := Stretch.activate (t := ⟨s, svdefs, rest⟩) _ _ _ _ _ hl (by simpa using hroom) ht ha
      exact hw.trans (ih _ _ _ (hw.culled hc) (hw.flags.terminating.trans ht))

theorem scanCull_work (left i gotCull : ℕ) (s : Sys) (svdefs : List Svdef)
    (hc : CullAll ⟨s, svdefs, rest⟩) :
    let r := perpdScanCull left i gotCull s svdefs
    Chore ⟨s, svdefs, rest⟩ ⟨r.1.1, r.1.2, rest⟩ := by
  induction left generalizing i gotCull s svdefs with
  | zero => exact .refl _
  | succ left ih =>
    unfold perpdScanCull
    split
    · exact .refl _
    next sd hi =>
    split
    · exact ih _ _ _ _ hc
    split
    · have hw := Chore.wantcull (t := ⟨s, svdefs, rest⟩) i sd hi
      exact hw.trans (ih _ _ _ _ (hw.culled hc))
    · have hw := Chore.entry (t := ⟨s, svdefs, rest⟩) i sd _ _ hi
        (.calm _ _ (.mark _ (drop_marked sd .cycle (Or.inr rfl)))) hc
      exact hw.trans (ih _ _ _ _ (hw.culled hc))

theorem map_work (f : Svdef → Svdef) (hf : ∀ sd, Marked sd (f sd)) (s : Sys) (done svdefs : List Svdef)
    (hc : CullAll ⟨s, done ++ svdefs, rest⟩) :
    Work ⟨s, done ++ svdefs, rest⟩ ⟨s, done ++ svdefs.map f, rest⟩ := by
  induction svdefs generalizing done with
  | nil => exact .refl _
  | cons sd svdefs ih =>
    have hi : (done ++ sd :: svdefs)[done.length]? = some sd := by simp
    have hw := Work.entry (t := ⟨s, done ++ sd :: svdefs, rest⟩) done.length sd _ _ hi
      (.calm _ _ (.mark _ (hf sd))) hc
    have he : (done ++ sd :: svdefs).set done.length (f sd) = (done ++ [f sd]) ++ svdefs := by
      simp
    rw [he] at hw
    have h2 := ih (done ++ [f sd]) (hw.culled hc)
    rw [List.append_assoc, List.append_assoc, List.singleton_append, List.singleton_append] at h2
    exact hw.trans (by simpa using h2)

end Services

end Perp.PerpdPhases
