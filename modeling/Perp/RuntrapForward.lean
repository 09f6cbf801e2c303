import Mathlib.Data.List.Nodup
import Perp.Runtrap

set_option autoImplicit false

/-!
# What becomes of a signal

In every run of `runtrap`: one child at a time, none after SIGTERM; a trapper for
every signal that is caught, and for the child that is there; no sleep over a
child that has died.
-/
namespace Perp.RuntrapForward
open Deux (Signal)
open Runtrap TraceLaw

/-- The process that a call of `sig_trap()` waits for -/
def trapper (f : Frame) : Option ℕ :=
  match f.stage with
  | .waiting n => some n
  | _ => none

/-- The processes that have not been waited for, by what they are for -/
def ofRole (r : Role) (kids : List Kid) : List ℕ := (kids.filter (·.role = r)).map Kid.pid

section
variable {r : Role} {kids : List Kid} {n : ℕ}

theorem ofRole_cons (k : Kid) :
    ofRole r (k :: kids) = if k.role = r then k.pid :: ofRole r kids else ofRole r kids := by
  unfold ofRole
  by_cases h : k.role = r <;> simp [h]

theorem mem_ofRole : n ∈ ofRole r kids ↔ ∃ k ∈ kids, k.role = r ∧ k.pid = n := by
  simp [ofRole, and_assoc]

theorem ofRole_bury : ofRole r (kids.filter (·.pid ≠ n)) = (ofRole r kids).filter (· ≠ n) := by
  induction kids with
  | nil => rfl
  | cons k kids ih =>
    by_cases hn : k.pid = n <;> by_cases hr : k.role = r <;> simp_all [ofRole_cons]

/-- The end of a child changes neither its number nor what it is for. -/
theorem ofRole_exit (k : Kid) :
    ofRole r (kids.map fun x => if x = k then { k with dead := true } else x) = ofRole r kids := by
  induction kids with
  | nil => rfl
  | cons x kids ih =>
    rw [List.map_cons, ofRole_cons, ofRole_cons, ih]
    by_cases h : x = k
    · subst h
      simp
    · rw [if_neg h]

theorem pids_exit (k : Kid) :
    (kids.map fun x => if x = k then { k with dead := true } else x).map Kid.pid =
      kids.map Kid.pid := by
  rw [List.map_map]
  apply List.map_congr_left
  intro x _
  by_cases h : x = k <;> simp [h]

theorem pid_exit {k x : Kid}
    (h : x ∈ kids.map fun x => if x = k then { k with dead := true } else x) :
    ∃ y ∈ kids, y.pid = x.pid := by
  have hmem : x.pid ∈
      (kids.map fun x => if x = k then { k with dead := true } else x).map Kid.pid :=
    List.mem_map_of_mem h
  rw [pids_exit] at hmem
  obtain ⟨y, hy, hpid⟩ := List.mem_map.mp hmem
  exact ⟨y, hy, hpid⟩

end

/-- What `main_loop()` and `do_trap()` know of the processes -/
structure Records (w : World) : Prop where
  positive : ∀ k ∈ w.kids, 0 < k.pid
  nodup : (w.kids.map Kid.pid).Nodup
  child : ofRole .child w.kids = if w.pid = 0 then [] else [w.pid]
  trappers : ofRole .trapper w.kids = w.frames.filterMap trapper
  nested : w.frames ≠ [] → w.pc = .polling
  polling : w.pc = .polling → w.pid ≠ 0
  exec : w.pc.exec = true → w.pid = 0 ∧ w.flagTerm = false
  returned : w.pc = .returned → w.pid = 0 ∧ w.flagTerm = true

namespace Records
variable {w w' : World}

/-- A call goes on, and waits for no one, before and after. -/
theorem frame (h : Records w) {f : Frame} {fs : List Frame} (hf : w.frames = f :: fs)
    (hkids : w'.kids = w.kids) (hpid : w'.pid = w.pid) (hpc : w'.pc = w.pc) {st : Stage}
    (hfs : w'.frames = ⟨f.sig, st⟩ :: fs) (hold : trapper f = none)
    (hnew : trapper ⟨f.sig, st⟩ = none) : Records w' := by
  have hpoll : w.pc = .polling := h.nested (by simp [hf])
  refine ⟨by simpa [hkids] using h.positive, by simpa [hkids] using h.nodup,
    by simpa [hkids, hpid] using h.child, ?_, fun _ => hpc.trans hpoll, fun _ => ?_, fun he => ?_,
    fun hr => ?_⟩
  · rw [hkids, h.trappers, hfs, hf, List.filterMap_cons_none hold, List.filterMap_cons_none hnew]
  · rw [hpid]
    exact h.polling hpoll
  · rw [hpc, hpoll] at he
    cases he
  · rw [hpc, hpoll] at hr
    cases hr

theorem goto {pc : Pc} (h : Records w) (hg : Goto w pc) : Records { w with pc } := by
  have hnil : w.pc ≠ .polling → w.frames = [] := by
    intro hpc
    by_contra hne
    exact hpc (h.nested hne)
  refine ⟨h.positive, h.nodup, h.child, h.trappers, fun hne => ?_, fun hpc => ?_, fun hpc => ?_,
    fun hpc => ?_⟩
  · exfalso
    apply hne
    cases hg with
    | consume hf hpc => exact hf
    | exec hpc hpc' =>
      apply hnil
      intro hp
      rw [hp] at hpc
      cases hpc
    | leave hpc _ _ | begin hpc _ _ | poll hpc _ | reap hpc _ | done hpc _ =>
      apply hnil
      simp [hpc]
  · cases hg with
    | poll _ h0 => exact h0
    | exec _ hpc' =>
      cases hpc
      cases hpc'
    | _ => cases hpc
  · cases hg with
    | begin _ ht h0 => exact ⟨h0, ht⟩
    | exec hw _ => exact h.exec hw
    | _ => cases hpc
  · cases hg with
    | leave _ ht h0 => exact ⟨h0, ht⟩
    | exec _ hpc' =>
      cases hpc
      cases hpc'
    | _ => cases hpc

theorem start (h : Records w) {pid : ℕ} {now : Tain} (hf : w.frames = []) (hpc : w.pc = .forking)
    (hnew : New w pid) : Records (w.start pid now) := by
  have h0 : w.pid = 0 := (h.exec (by rw [hpc]; rfl)).1
  have hpos : pid ≠ 0 := Nat.pos_iff_ne_zero.mp hnew.1
  refine ⟨fun k hk => ?_, ?_, ?_, ?_, fun hne => absurd hf hne, fun _ => hpos, fun he => ?_,
    fun hr => ?_⟩
  · rcases List.mem_cons.mp hk with rfl | hk
    · exact hnew.1
    · exact h.positive k hk
  · exact List.nodup_cons.mpr ⟨hnew.2, h.nodup⟩
  · change ofRole .child (⟨pid, .child, false⟩ :: w.kids) = if pid = 0 then [] else [pid]
    rw [ofRole_cons, if_pos rfl, h.child, if_pos h0, if_neg hpos]
  · change ofRole .trapper (⟨pid, .child, false⟩ :: w.kids) = w.frames.filterMap trapper
    rw [ofRole_cons, if_neg Role.noConfusion, h.trappers]
  · cases he
  · cases hr

theorem trap (h : Records w) {pid : ℕ} {f : Frame} {fs : List Frame} (hf : w.frames = f :: fs)
    (hst : f.stage = .forking) (hnew : New w pid) : Records (w.trap f.sig pid fs) := by
  have hpoll : w.pc = .polling := h.nested (by simp [hf])
  have hold : trapper f = none := by simp [trapper, hst]
  refine ⟨fun k hk => ?_, ?_, ?_, ?_, fun _ => hpoll, fun _ => h.polling hpoll, fun he => ?_,
    fun hr => ?_⟩
  · rcases List.mem_cons.mp hk with rfl | hk
    · exact hnew.1
    · exact h.positive k hk
  · exact List.nodup_cons.mpr ⟨hnew.2, h.nodup⟩
  · change ofRole .child (⟨pid, .trapper, false⟩ :: w.kids) = if w.pid = 0 then [] else [w.pid]
    rw [ofRole_cons, if_neg Role.noConfusion, h.child]
  · change ofRole .trapper (⟨pid, .trapper, false⟩ :: w.kids) =
      (⟨f.sig, .waiting pid⟩ :: fs).filterMap trapper
    have hself : trapper ⟨f.sig, .waiting pid⟩ = some pid := rfl
    rw [ofRole_cons, if_pos rfl, h.trappers, hf, List.filterMap_cons_none hold,
      List.filterMap_cons_some hself]
  · change w.pc.exec = true at he
    rw [hpoll] at he
    cases he
  · change w.pc = .returned at hr
    rw [hpoll] at hr
    cases hr

theorem waiting (h : Records w) {pid : ℕ} {f : Frame} {fs : List Frame} (hf : w.frames = f :: fs)
    (hst : f.stage = .waiting pid) : ofRole .trapper w.kids = pid :: fs.filterMap trapper := by
  have hold : trapper f = some pid := by simp [trapper, hst]
  rw [h.trappers, hf, List.filterMap_cons_some hold]

/-- The child that is supervised is not the trapper. -/
theorem other (h : Records w) {pid : ℕ} {f : Frame} {fs : List Frame} (hf : w.frames = f :: fs)
    (hst : f.stage = .waiting pid) : w.pid ≠ pid := by
  intro he
  have hchild : pid ∈ ofRole .child w.kids := by
    rw [h.child, if_neg (h.polling (h.nested (by simp [hf]))), he]
    exact List.mem_cons_self
  have htrap : pid ∈ ofRole .trapper w.kids := by
    rw [h.waiting hf hst]
    exact List.mem_cons_self
  obtain ⟨k, hk, hrole, hpid⟩ := mem_ofRole.mp hchild
  obtain ⟨k', hk', hrole', hpid'⟩ := mem_ofRole.mp htrap
  have hsame : k = k' := List.inj_on_of_nodup_map h.nodup hk hk' (hpid.trans hpid'.symm)
  rw [hsame, hrole'] at hrole
  cases hrole

theorem waited (h : Records w) {pid : ℕ} {f : Frame} {fs : List Frame} (hf : w.frames = f :: fs)
    (hst : f.stage = .waiting pid) :
    Records ({ w with frames := ⟨f.sig, .pinging⟩ :: fs }.bury pid) := by
  have hpoll : w.pc = .polling := h.nested (by simp [hf])
  have htraps := h.waiting hf hst
  have hsub : (ofRole .trapper w.kids).Nodup :=
    (List.filter_sublist.map Kid.pid).nodup h.nodup
  have hother := h.other hf hst
  refine ⟨fun k hk => h.positive k (List.mem_filter.mp hk).1,
    (List.filter_sublist.map Kid.pid).nodup h.nodup, ?_, ?_, fun _ => hpoll,
    fun _ => h.polling hpoll, fun he => ?_, fun hr => ?_⟩
  · change ofRole .child (w.kids.filter (·.pid ≠ pid)) = if w.pid = 0 then [] else [w.pid]
    rw [ofRole_bury, h.child, if_neg (h.polling hpoll)]
    simp [hother]
  · change ofRole .trapper (w.kids.filter (·.pid ≠ pid)) =
      (⟨f.sig, .pinging⟩ :: fs).filterMap trapper
    rw [htraps, List.nodup_cons] at hsub
    rw [ofRole_bury, htraps, List.filterMap_cons_none rfl, List.filter_cons_of_neg (by simp),
      List.filter_eq_self.mpr]
    intro n hn
    have hne : n ≠ pid := fun he => hsub.1 (he ▸ hn)
    simpa using hne
  · change w.pc.exec = true at he
    rw [hpoll] at he
    cases he
  · change w.pc = .returned at hr
    rw [hpoll] at hr
    cases hr

theorem reap (h : Records w) {pid : ℕ} (hf : w.frames = []) (hpc : w.pc = .reaping)
    (hz : w.Zombie pid) : Records ((w.bury pid).childWait pid) := by
  obtain ⟨k, hk, hkp, -⟩ := hz
  have hpos : 0 < pid := by
    have := h.positive k hk
    omega
  have hpc' : ((w.bury pid).childWait pid).pc = .reaping := by
    unfold World.childWait
    split <;> exact hpc
  have hkids : ((w.bury pid).childWait pid).kids = w.kids.filter (·.pid ≠ pid) := by
    unfold World.childWait
    split <;> rfl
  have hframes : ((w.bury pid).childWait pid).frames = [] := by
    unfold World.childWait
    split <;> exact hf
  have hnew : ((w.bury pid).childWait pid).pid = if pid = w.pid then 0 else w.pid := by
    unfold World.childWait World.bury World.emit
    split <;> rfl
  refine ⟨?_, ?_, ?_, ?_, fun hne => absurd hframes hne, fun he => ?_, fun he => ?_, fun hr => ?_⟩
  · rw [hkids]
    intro k hk
    exact h.positive k (List.mem_filter.mp hk).1
  · rw [hkids]
    exact (List.filter_sublist.map Kid.pid).nodup h.nodup
  · rw [hkids, ofRole_bury, h.child, hnew]
    by_cases he : pid = w.pid
    · subst he
      simp [Nat.pos_iff_ne_zero.mp hpos]
    · by_cases h0 : w.pid = 0
      · simp [h0, Nat.pos_iff_ne_zero.mp hpos]
      · simp [h0, he, Ne.symm he]
  · rw [hkids, hframes, ofRole_bury, h.trappers, hf]
    rfl
  · rw [hpc'] at he
    cases he
  · rw [hpc'] at he
    cases he
  · rw [hpc'] at hr
    cases hr

theorem move (h : Records w) (hm : Move w w') : Records w' := by
  cases hm with
  | exits k hk hd =>
    refine ⟨fun x hx => ?_, ?_, ?_, ?_, h.nested, h.polling, h.exec, h.returned⟩
    · obtain ⟨y, hy, hpid⟩ := pid_exit hx
      rw [← hpid]
      exact h.positive y hy
    · exact (pids_exit k).symm ▸ h.nodup
    · exact (ofRole_exit k).trans h.child
    · exact (ofRole_exit k).trans h.trappers
  | raise s =>
    exact ⟨h.positive, h.nodup, h.child, h.trappers, h.nested, h.polling, h.exec, h.returned⟩
  | goto pc hg => exact h.goto hg
  | drain hpc =>
    exact ⟨h.positive, h.nodup, h.child, h.trappers, h.nested, h.polling, h.exec, h.returned⟩
  | start pid now hf hpc hnew => exact h.start hf hpc hnew
  | handler s hpc hs hnew =>
    exact ⟨h.positive, h.nodup, h.child, h.trappers.trans (List.filterMap_cons_none rfl).symm,
      fun _ => hpc, h.polling, h.exec, h.returned⟩
  | caught hf hst ht => exact h.frame hf rfl rfl rfl rfl (by simp [trapper, hst]) rfl
  | discarded hf hst ht => exact h.frame hf rfl rfl rfl rfl (by simp [trapper, hst]) rfl
  | wake hf hst hs => exact h.frame hf rfl rfl rfl rfl (by simp [trapper, hst]) rfl
  | term hf hst hs => exact h.frame hf rfl rfl rfl rfl (by simp [trapper, hst]) rfl
  | advance hf hst hst' hp hpass hs =>
    refine h.frame hf rfl rfl rfl rfl ?_ ?_
    · unfold trapper
      split
      · next n hw =>
        rw [hw] at hst
        cases hst
      · rfl
    · unfold trapper
      split
      · next n hw =>
        simp only at hw
        rw [hw] at hst'
        cases hst'
      · rfl
  | denied hf hst => exact h.frame hf rfl rfl rfl rfl (by simp [trapper, hst]) rfl
  | trap pid hf hst hnew => exact h.trap hf hst hnew
  | waited pid hf hst => exact h.waited hf hst
  | ping full hf hst =>
    have hpoll : w.pc = .polling := h.nested (by simp [hf])
    have htraps := h.trappers
    rw [hf, List.filterMap_cons_none (by simp [trapper, hst])] at htraps
    unfold World.sigpipePing
    split <;>
      exact ⟨h.positive, h.nodup, h.child, htraps, fun _ => hpoll, h.polling, h.exec, h.returned⟩
  | reap pid hf hpc hz => exact h.reap hf hpc hz

end Records

/-! ## No sleep over a dead child -/

/-- A child that died has left a trace for `poll()`. -/
def Awake (w : World) : Prop :=
  w.pc ≠ .consuming → w.pc ≠ .reaping →
    (∃ k ∈ w.kids, k.role ≠ .foreign ∧ k.dead = true) →
    w.pending .sigchld = true ∨ 0 < w.pipe ∨ w.frames ≠ []

theorem sigpipePing_pipe (w : World) (full : Bool) : 0 < (w.sigpipePing full).pipe := by
  unfold World.sigpipePing
  split
  · next h => exact h.2
  · exact Nat.succ_pos _

theorem awake_move {w w' : World} (h : Awake w) (hm : Move w w') : Awake w' := by
  cases hm with
  | exits k hk hd => exact fun _ _ _ => .inl (by simp [World.exit])
  | raise s =>
    intro hc hr hd
    by_cases hs : s = .sigchld
    · exact .inl (by simp [hs])
    · simpa [Function.update_of_ne (Ne.symm hs)] using h hc hr hd
  | goto pc hg =>
    intro hc hr hd
    cases hg with
    | consume _ _ => exact absurd rfl hc
    | reap _ _ => exact absurd rfl hr
    | done hpc hall =>
      obtain ⟨k, hk, -, hdead⟩ := hd
      rw [hall k hk] at hdead
      cases hdead
    | exec hpc _ =>
      refine h ?_ ?_ hd
      · intro he
        rw [he] at hpc
        cases hpc
      · intro he
        rw [he] at hpc
        cases hpc
    | leave hpc _ _ | begin hpc _ _ | poll hpc _ => exact h (by simp [hpc]) (by simp [hpc]) hd
  | drain hpc => exact fun hc => absurd hpc hc
  | start pid now hf hpc hnew =>
    rintro - - ⟨k, hk, hrole, hd⟩
    rcases List.mem_cons.mp hk with rfl | hk
    · cases hd
    · exact h (by simp [hpc]) (by simp [hpc]) ⟨k, hk, hrole, hd⟩
  | ping full hf hst => exact fun _ _ _ => .inr (.inl (sigpipePing_pipe _ full))
  | reap pid hf hpc hz =>
    intro _ hr
    apply absurd _ hr
    unfold World.childWait
    split <;> exact hpc
  | handler | caught | discarded | wake | term | advance | denied | trap | waited =>
    exact fun _ _ _ => .inr (.inr (List.cons_ne_nil _ _))

/-! ## What the trace tells -/

/-- The child that is supervised, from the trace -/
def owner : Monitor Event (Option ℕ) where
  init := none
  next q e :=
    match e with
    | .started p => some p
    | .reaped p => if q = some p then none else q
    | _ => q

/-- One child at a time, and none after SIGTERM; a signal that is caught after SIGTERM is
discarded; and a trapper is told of the child that has not been waited for. -/
def Lawful (past : List Event) : Event → Prop
  | .started _ => owner.run past = none ∧ .term ∉ past
  | .caught _ => .term ∉ past
  | .discarded _ => .term ∈ past
  | .term => .term ∉ past
  | .trapped _ target _ => owner.run past = some target
  | _ => True

/-- A trapper is forked for the signal. -/
def Event.trapsFor (s : Signal) : Event → Bool
  | .trapped s' _ _ => s' = s
  | _ => false

/-- A trapper is still to be forked for the signal. -/
def Frame.owes (s : Signal) (f : Frame) : Bool := f.sig = s ∧ f.stage.forks = true

/-- Every signal that was caught has had its trapper, or none was there to trap for, or
its handler is on the way to it. -/
def Handed (w : World) (s : Signal) : Prop :=
  w.trace.count (.caught s) = w.trace.countP (Event.trapsFor s) + w.trace.count (.denied s) +
    w.frames.countP (Frame.owes s)

structure Told (w : World) : Prop where
  owner : owner.run w.trace = if w.pid = 0 then none else some w.pid
  term : .term ∈ w.trace ↔ w.flagTerm = true
  lawful : Along Lawful w.trace
  sigs : (w.frames.map Frame.sig).Nodup
  fresh : ∀ f ∈ w.frames, f.sig = .sigterm → f.stage = .passed → w.flagTerm = false
  handed : ∀ s, s ≠ .sigchld → Handed w s

namespace Told
variable {w w' : World}

/-- A step that leaves no trace, and changes the last call at most. -/
theorem silent (h : Told w) (ht : w'.trace = w.trace) (hp : w'.pid = w.pid)
    (hf : w'.flagTerm = w.flagTerm) (hs : (w'.frames.map Frame.sig).Nodup)
    (hfresh : ∀ f ∈ w'.frames, f.sig = .sigterm → f.stage = .passed → f ∈ w.frames)
    (hh : ∀ s, s ≠ .sigchld → w'.frames.countP (Frame.owes s) = w.frames.countP (Frame.owes s)) :
    Told w' := by
  refine ⟨by rw [ht, hp]; exact h.owner, by rw [ht, hf]; exact h.term, ht ▸ h.lawful, hs,
    fun f hm hsig hst => hf ▸ h.fresh f (hfresh f hm hsig hst) hsig hst, fun s hs => ?_⟩
  unfold Handed
  rw [ht, hh s hs]
  exact h.handed s hs

/-- An event that is of the last call -/
theorem emits (h : Told w) {f : Frame} {fs : List Frame} {st : Stage} {e : Event}
    (hf : w.frames = f :: fs) (hfs : w'.frames = ⟨f.sig, st⟩ :: fs)
    (ht : w'.trace = w.trace ++ [e]) (hp : w'.pid = w.pid)
    (hown : RuntrapForward.owner.next (RuntrapForward.owner.run w.trace) e =
      RuntrapForward.owner.run w.trace)
    (hterm : w'.flagTerm = true ↔ w.flagTerm = true ∨ e = .term) (hlaw : Lawful w.trace e)
    (hfresh : ∀ x ∈ w'.frames, x.sig = .sigterm → x.stage = .passed → w'.flagTerm = false)
    (hh : ∀ s, s ≠ .sigchld → Handed w' s) : Told w' := by
  refine ⟨?_, ?_, ?_, ?_, hfresh, hh⟩
  · rw [ht, Monitor.run_concat, hown, hp]
    exact h.owner
  · rw [ht, hterm, ← h.term]
    simp [eq_comm]
  · rw [ht, along_concat]
    exact ⟨h.lawful, hlaw⟩
  · have hsigs := h.sigs
    rw [hf] at hsigs
    rw [hfs]
    exact hsigs

/-- The count goes on when the last call passes on what it owes, or does not owe. -/
theorem handed_step (h : Told w) {f : Frame} {fs : List Frame} {st : Stage} {e : Event}
    (hf : w.frames = f :: fs) (hfs : w'.frames = ⟨f.sig, st⟩ :: fs)
    (ht : w'.trace = w.trace ++ [e]) {s : Signal} (hs : s ≠ .sigchld)
    (he : (if e = .caught s then 1 else 0) + (if Frame.owes s f then 1 else 0) =
      (if Event.trapsFor s e then 1 else 0) + (if e = .denied s then 1 else 0) +
        if Frame.owes s ⟨f.sig, st⟩ then 1 else 0) : Handed w' s := by
  have hold := h.handed s hs
  unfold Handed at hold ⊢
  rw [hf, List.countP_cons] at hold
  rw [hfs, ht, List.countP_cons, List.count_append, List.countP_append, List.count_append,
    List.count_singleton, List.countP_singleton, List.count_singleton]
  simp only [beq_iff_eq] at he ⊢
  omega

theorem start (h : Told w) (hrec : Records w) {pid : ℕ} {now : Tain} (hf : w.frames = [])
    (hpc : w.pc = .forking) (hnew : New w pid) : Told (w.start pid now) := by
  obtain ⟨h0, hterm⟩ := hrec.exec (by rw [hpc]; rfl)
  have htr : (w.start pid now).trace = w.trace ++ [.started pid] := rfl
  have hno : .term ∉ w.trace := fun hm => by simp [h.term.mp hm] at hterm
  have hfr : (w.start pid now).frames = [] := hf
  refine ⟨?_, ?_, ?_, by simp [hfr], by simp [hfr], fun s hs => ?_⟩
  · rw [htr, Monitor.run_concat]
    exact (if_neg (Nat.pos_iff_ne_zero.mp hnew.1)).symm
  · have hflag : (w.start pid now).flagTerm = false := hterm
    rw [htr, hflag]
    simp [hno]
  · rw [htr, along_concat]
    refine ⟨h.lawful, ?_, hno⟩
    rw [h.owner, if_pos h0]
  · have hold := h.handed s hs
    unfold Handed at hold ⊢
    rw [hf] at hold
    rw [htr, hfr]
    simpa [Event.trapsFor] using hold

theorem reap (h : Told w) (hrec : Records w) {pid : ℕ} (hf : w.frames = []) (hz : w.Zombie pid) :
    Told ((w.bury pid).childWait pid) := by
  obtain ⟨k, hk, hkp, -⟩ := hz
  have hpos : pid ≠ 0 := by
    have := hrec.positive k hk
    omega
  have htr : ((w.bury pid).childWait pid).trace = w.trace ++ [.reaped pid] := by
    unfold World.childWait
    split <;> rfl
  have hfr : ((w.bury pid).childWait pid).frames = [] := by
    unfold World.childWait
    split <;> exact hf
  have hflag : ((w.bury pid).childWait pid).flagTerm = w.flagTerm := by
    unfold World.childWait
    split <;> rfl
  have hnew : ((w.bury pid).childWait pid).pid = if pid = w.pid then 0 else w.pid := by
    unfold World.childWait World.bury World.emit
    split <;> rfl
  refine ⟨?_, ?_, ?_, by simp [hfr], by simp [hfr], fun s hs => ?_⟩
  · rw [htr, Monitor.run_concat, h.owner, hnew]
    change (if (if w.pid = 0 then none else some w.pid) = some pid then none
      else if w.pid = 0 then none else some w.pid) = _
    by_cases he : pid = w.pid
    · simp [he]
    · by_cases h0 : w.pid = 0 <;> simp [h0, he, Ne.symm he]
  · rw [htr, hflag, ← h.term]
    simp
  · rw [htr, along_concat]
    exact ⟨h.lawful, trivial⟩
  · have hold := h.handed s hs
    unfold Handed at hold ⊢
    rw [hf] at hold
    rw [htr, hfr]
    simpa [Event.trapsFor] using hold

theorem move (h : Told w) (hrec : Records w) (hm : Move w w') : Told w' := by
  have hsigs := h.sigs
  have hfresh := h.fresh
  cases hm with
  | exits k hk hd => exact h.silent rfl rfl rfl hsigs (fun _ hf _ _ => hf) fun _ _ => rfl
  | raise s => exact h.silent rfl rfl rfl hsigs (fun _ hf _ _ => hf) fun _ _ => rfl
  | goto pc hg => exact h.silent rfl rfl rfl hsigs (fun _ hf _ _ => hf) fun _ _ => rfl
  | drain hpc => exact h.silent rfl rfl rfl hsigs (fun _ hf _ _ => hf) fun _ _ => rfl
  | start pid now hf hpc hnew => exact h.start hrec hf hpc hnew
  | handler s hpc hs hnew =>
    refine h.silent rfl rfl rfl (List.nodup_cons.mpr ⟨hnew, hsigs⟩) (fun f hm _ hst => ?_)
      fun s' _ => ?_
    · rcases List.mem_cons.mp hm with rfl | hm
      · cases hst
      · exact hm
    · rw [List.countP_cons_of_neg]
      simp [Frame.owes, Stage.forks]
  | @caught f fs hf hst ht =>
    have hno : .term ∉ w.trace := fun hm => by simp [h.term.mp hm] at ht
    refine h.emits hf rfl rfl rfl rfl (by simp [World.emit]) hno (fun _ _ _ _ => ht) fun s hs =>
      h.handed_step hf rfl rfl hs ?_
    simp [Frame.owes, hst, Stage.forks, Event.trapsFor]
  | @discarded f fs hf hst ht =>
    refine h.emits hf rfl rfl rfl rfl (by simp [World.emit]) (h.term.mpr ht)
      (fun x hm hsig hxs => ?_)
      fun s hs => h.handed_step hf rfl rfl hs ?_
    · rcases List.mem_cons.mp hm with rfl | hm
      · cases hxs
      · exact hfresh x (by rw [hf]; exact List.mem_cons_of_mem _ hm) hsig hxs
    · simp [Frame.owes, hst, Stage.forks, Event.trapsFor]
  | @wake f fs hf hst hs =>
    rw [hf] at hsigs
    refine h.silent rfl rfl rfl hsigs (fun x hm _ hxs => ?_) fun s' hs' => ?_
    · rcases List.mem_cons.mp hm with rfl | hm
      · cases hxs
      · rw [hf]
        exact List.mem_cons_of_mem _ hm
    · rw [hf, List.countP_cons, List.countP_cons]
      simp [Frame.owes, hs, Ne.symm hs']
  | @term f fs hf hst hs =>
    have hflag : w.flagTerm = false := hfresh f (by rw [hf]; exact List.mem_cons_self) hs hst
    have hno : .term ∉ w.trace := fun hm => by simp [h.term.mp hm] at hflag
    rw [hf, List.map_cons, List.nodup_cons] at hsigs
    refine h.emits hf rfl rfl rfl rfl (by simp [World.emit]) hno (fun x hm hsig hxs => ?_)
      fun s hs => h.handed_step hf rfl rfl hs ?_
    · -- no other call is for SIGTERM
      rcases List.mem_cons.mp hm with rfl | hm
      · cases hxs
      · exact absurd (List.mem_map.mpr ⟨x, hm, hsig.trans hs.symm⟩) hsigs.1
    · simp [Frame.owes, hst, Stage.forks, Event.trapsFor]
  | @advance f fs hf hst st hst' hp hpass hs =>
    rw [hf] at hsigs
    refine h.silent rfl rfl rfl hsigs (fun x hm _ hxs => ?_) fun s' hs' => ?_
    · rcases List.mem_cons.mp hm with rfl | hm
      · exact absurd hxs hpass
      · rw [hf]
        exact List.mem_cons_of_mem _ hm
    · rw [hf, List.countP_cons, List.countP_cons]
      simp [Frame.owes, hst, hst']
  | @denied f fs hf hst =>
    refine h.emits hf rfl rfl rfl rfl (by simp [World.emit]) trivial (fun x hm hsig hxs => ?_)
      fun s hs => h.handed_step hf rfl rfl hs ?_
    · rcases List.mem_cons.mp hm with rfl | hm
      · cases hxs
      · exact hfresh x (by rw [hf]; exact List.mem_cons_of_mem _ hm) hsig hxs
    · simp [Frame.owes, hst, Stage.forks, Event.trapsFor]
  | @trap pid f fs hf hst hnew =>
    have hpos : w.pid ≠ 0 := hrec.polling (hrec.nested (by simp [hf]))
    refine h.emits hf rfl rfl rfl rfl (by simp [World.trap, World.emit])
      (h.owner.trans (if_neg hpos)) (fun x hm hsig hxs => ?_)
      fun s hs => h.handed_step hf rfl rfl hs ?_
    · rcases List.mem_cons.mp hm with rfl | hm
      · cases hxs
      · exact hfresh x (by rw [hf]; exact List.mem_cons_of_mem _ hm) hsig hxs
    · simp [Frame.owes, hst, Stage.forks, Event.trapsFor]
  | @waited pid f fs hf hst =>
    have hpos : w.pid ≠ 0 := hrec.polling (hrec.nested (by simp [hf]))
    have hother := hrec.other hf hst
    refine h.emits hf rfl rfl rfl ?_ (by simp [World.bury, World.emit]) trivial
      (fun x hm hsig hxs => ?_) fun s hs => h.handed_step hf rfl rfl hs ?_
    · rw [h.owner, if_neg hpos]
      exact if_neg fun he => hother (Option.some.inj he)
    · rcases List.mem_cons.mp hm with rfl | hm
      · cases hxs
      · exact hfresh x (by rw [hf]; exact List.mem_cons_of_mem _ hm) hsig hxs
    · simp [Frame.owes, hst, Stage.forks, Event.trapsFor]
  | @ping full f fs hf hst =>
    rw [hf, List.map_cons, List.nodup_cons] at hsigs
    have hping : ∀ w : World, Told w → Told (w.sigpipePing full) := by
      intro w hw
      unfold World.sigpipePing
      split
      · exact hw
      · exact hw.silent rfl rfl rfl hw.sigs (fun _ hf _ _ => hf) fun _ _ => rfl
    apply hping
    refine h.silent rfl rfl rfl hsigs.2
      (fun x hm _ _ => by rw [hf]; exact List.mem_cons_of_mem _ hm)
      fun s' _ => ?_
    rw [hf, List.countP_cons_of_neg]
    simp [Frame.owes, hst, Stage.forks]
  | reap pid hf hpc hz => exact h.reap hrec hf hz

end Told

/-! ## Every run -/

structure Inv (w : World) : Prop where
  records : Records w
  awake : Awake w
  told : Told w

theorem inv_start (c : Start) : Inv (start c) := by
  have hnone : ∀ r, r ≠ .foreign → ofRole r c.kids = [] := by
    intro r hr
    rw [ofRole, List.filter_eq_nil_iff.mpr]
    · rfl
    · intro k hk
      rw [c.foreign k hk]
      simpa using Ne.symm hr
  refine ⟨⟨c.positive, c.nodup, ?_, ?_, fun h => absurd rfl h, fun h => ?_, fun h => ?_,
    fun h => ?_⟩,
    ?_, ⟨rfl, ?_, along_nil, List.nodup_nil, ?_, fun s _ => rfl⟩⟩
  · exact hnone .child (by decide)
  · exact hnone .trapper (by decide)
  · cases h
  · cases h
  · cases h
  · rintro - - ⟨k, hk, hrole, -⟩
    exact absurd (c.foreign k hk) hrole
  · simp [start]
  · simp [start]

theorem inv_run {w w' : World} {acts : List Act} (h : Inv w) (hrun : run w acts = some w') :
    Inv w' := by
  induction acts generalizing w with
  | nil =>
    obtain rfl := Option.some.inj hrun
    exact h
  | cons a acts ih =>
    rw [run] at hrun
    obtain ⟨v, hstep, hrun⟩ := Option.bind_eq_some_iff.mp hrun
    have hm := step_move hstep
    exact ih ⟨h.records.move hm, awake_move h.awake hm, h.told.move h.records hm⟩ hrun

/-- What holds of `runtrap` in every state that it reaches. -/
structure Forwards (w : World) : Prop where
  /-- The child that is supervised is there and has not been waited for, and it is the only one. -/
  single : ofRole .child w.kids = if w.pid = 0 then [] else [w.pid]
  /-- The trappers that have not been waited for are those that the handlers wait for. -/
  trappers : ofRole .trapper w.kids = w.frames.filterMap trapper
  lawful : Along Lawful w.trace
  /-- No signal is lost: there is a trapper for each that was caught before SIGTERM was, unless
  `kill()` refused, or its handler is on the way. -/
  handed : ∀ s, s ≠ .sigchld → Handed w s
  /-- `poll()` sleeps only over a child that lives. -/
  awake : w.pc = .polling → w.frames = [] → w.pipe = 0 → (∀ s, w.pending s = false) →
    ∃ k ∈ w.kids, k.pid = w.pid ∧ k.role = .child ∧ k.dead = false
  /-- It ends after SIGTERM, and leaves no child and no trapper behind. -/
  ended : w.pc = .returned →
    .term ∈ w.trace ∧ ofRole .child w.kids = [] ∧ ofRole .trapper w.kids = []

theorem runtrap_forwards (c : Start) (acts : List Act) {w : World}
    (hrun : run (start c) acts = some w) : Forwards w := by
  obtain ⟨hrec, hawake, htold⟩ := inv_run (inv_start c) hrun
  refine ⟨hrec.child, hrec.trappers, htold.lawful, htold.handed, fun hpc hf hp hnone => ?_,
    fun hpc => ?_⟩
  · have hchild : w.pid ∈ ofRole .child w.kids := by
      rw [hrec.child, if_neg (hrec.polling hpc)]
      exact List.mem_cons_self
    obtain ⟨k, hk, hrole, hpid⟩ := mem_ofRole.mp hchild
    refine ⟨k, hk, hpid, hrole, ?_⟩
    by_contra hdead
    have hlive := hawake (by simp [hpc]) (by simp [hpc])
      ⟨k, hk, by simp [hrole], by simpa using hdead⟩
    simp [hnone, hp, hf] at hlive
  · obtain ⟨h0, hterm⟩ := hrec.returned hpc
    have hf : w.frames = [] := by
      by_contra hne
      rw [hrec.nested hne] at hpc
      cases hpc
    refine ⟨htold.term.mpr hterm, ?_, ?_⟩
    · rw [hrec.child, if_pos h0]
    · rw [hrec.trappers, hf]
      rfl

/-- SIGHUP is caught, SIGTERM on top of it; the child ends. -/
def nested : List Act :=
  [.go, .clock (.load 10 0), .forked 100 (.load 10 0), .raise .sighup, .handler .sighup, .go, .go,
    .raise .sigterm, .handler .sigterm, .go, .go, .kill false, .forked 101 (.load 0 0),
    .exits ⟨101, .trapper, false⟩, .waitpid 101, .ping false, .kill false,
    .forked 102 (.load 0 0), .exits ⟨100, .child, false⟩, .exits ⟨102, .trapper, false⟩,
    .waitpid 102, .ping false, .handler .sigchld, .go, .ping false, .go, .go, .go, .go, .go,
    .waitpid 100, .noChild, .go]

def alone : Start := ⟨[], fun _ => false, by simp, by simp, by simp⟩

theorem runtrap_forwards_nested : ∃ w, run (start alone) nested = some w ∧ w.pc = .returned ∧
    Event.trapped .sighup 100 102 ∈ w.trace ∧ Forwards w := by
  have hsome : ((run (start alone) nested).map fun w =>
      (w.pc, decide (Event.trapped .sighup 100 102 ∈ w.trace))) = some (.returned, true) := by
    decide +kernel
  obtain ⟨w, hrun, hw⟩ := Option.map_eq_some_iff.mp hsome
  obtain ⟨hpc, htrap⟩ := Prod.mk.inj hw
  exact ⟨w, hrun, hpc, of_decide_eq_true htrap, runtrap_forwards alone nested hrun⟩

end Perp.RuntrapForward
