import Perp.FdLedger
import Perp.PerpdClient
import Perp.PerpdDescriptors

set_option autoImplicit false

/-!
# Every descriptor of a service is closed once

An activation opens a directory and perhaps a pipe. The removal closes the
directory; the pipe is left to the log shutdown, which not every way out takes.
-/
namespace Perp.PerpdCloses
open PerpdState PerpdSvdef PerpdConn PerpdMainloop PerpdClient PerpdFrame PerpdEntry PerpdEffect
  PerpdSlots PerpdActivate PerpdMoves PerpdPhases PerpdRuns PerpdService PerpdStill PerpdDescriptors TraceLaw
  FdLedger

/-- The calls that opened and closed descriptors. -/
def posting : Event → Option (Entry Obj)
  | .opened fd o => some (.opened fd o)
  | .closed fd o => some (.closed fd o)
  | _ => none

def ledger (t : List Event) : List (Entry Obj) := t.filterMap posting

/-- The log pipe is shut down once in each activation, and before the removal. -/
def ShutOnce (past : List Event) : Event → Prop
  | .sv sd (.closeLog _ _) => ((pipeOf sd.key).run past).map Prod.snd = some false
  | .sv sd .cull => sd.has .haslog = true → ((pipeOf sd.key).run past).map Prod.snd = some true
  | _ => True

instance (past : List Event) : (e : Event) → Decidable (ShutOnce past e)
  | .sv sd (.closeLog _ _) =>
    inferInstanceAs (Decidable (((pipeOf sd.key).run past).map Prod.snd = some false))
  | .sv sd .cull => inferInstanceAs (Decidable (sd.has .haslog = true →
    ((pipeOf sd.key).run past).map Prod.snd = some true))
  | .sv _ (.fork _ _ _ _ _ _ _) | .sv _ (.activate _) | .sv _ (.reap _ _) | .sv _ (.kill _ _ _)
  | .sv _ (.control _ _) | .sv _ .checkfail | .sv _ .wantcull | .sv _ .status =>
    isTrue trivial
  | .opened _ _ | .closed _ _ | .request _ | .sent _ _ | .term | .scan | .scanned => isTrue trivial

theorem firstShut_of_shutOnce {t : List Event} (h : Along ShutOnce t) : Along FirstShut t := by
  refine h.mono fun past e he => ?_
  unfold FirstShut
  split
  · exact he
  · trivial

/-- The activation that an object of a service was opened in. -/
def Obj.serial : Obj → ℕ
  | .svdir _ n | .logpipe0 _ n | .logpipe1 _ n => n
  | _ => 0

section Books

/-- The books on all objects of services. -/
structure BooksOk (s : Sys) : Prop where
  books : ∀ o, o.key ≠ none → Books s.fds (ledger s.trace) o
  fresh : ∀ o, o.key ≠ none → s.serial ≤ Obj.serial o → opens o (ledger s.trace) = 0

namespace BooksOk
variable {s t : Sys} {sd : Svdef}

theorem of_eq (h : BooksOk s) (hl : ledger t.trace = ledger s.trace) (hf : t.fds = s.fds)
    (hn : s.serial ≤ t.serial) : BooksOk t where
  books o ho := by rw [hl, hf]; exact h.books o ho
  fresh o ho hs := by rw [hl]; exact h.fresh o ho (hn.trans hs)

theorem still (h : BooksOk s) (hs : Still s sd t) : BooksOk t := by
  obtain ⟨evs, ht, hp⟩ := hs.grows
  have hevs : ledger evs = [] := by
    refine List.filterMap_eq_nil_iff.mpr fun e he => ?_
    have := hp e he
    unfold Apart at this
    unfold posting
    split <;> simp_all
  refine h.of_eq ?_ hs.fds hs.serial.ge
  rw [ht, ledger, List.filterMap_append]
  exact (congrArg _ hevs).trans (List.append_nil _)

theorem emitSv (h : BooksOk s) (x : Svdef) (e : SvEvent) : BooksOk (s.emitSv x e) :=
  h.of_eq (by simp [ledger, Sys.emitSv, Sys.emit, posting]) rfl (Nat.le_refl _)

theorem close (h : BooksOk s) (fd : ℕ) : BooksOk (s.close fd) := by
  have hl : ledger (s.close fd).trace = ledger s.trace ++ [.closed fd (s.fds fd)] := by
    simp [ledger, Sys.close, Sys.emit, posting]
  refine ⟨fun o ho => ?_, fun o ho hs => ?_⟩
  · rw [hl]
    exact (h.books o ho).closed fd
  · rw [hl, opens_concat, h.fresh o ho hs]
    rfl

theorem opened (h : BooksOk s) (fd : ℕ) (o : Obj) (hfree : s.fds fd = none)
    (hnew : o.key ≠ none → opens o (ledger s.trace) = 0 ∧ Obj.serial o < s.serial) :
    BooksOk (opened s fd o) := by
  have hl : ledger (PerpdActivate.opened s fd o).trace = ledger s.trace ++ [.opened fd o] := by
    simp [ledger, PerpdActivate.opened, Sys.emit, posting]
  refine ⟨fun o' ho => ?_, fun o' ho hs => ?_⟩
  · rw [hl]
    by_cases he : o = o'
    · subst he
      exact (h.books o ho).opened fd (hnew ho).1
    · exact (h.books o' ho).opened_other fd he hfree
  · change s.serial ≤ _ at hs
    rw [hl, opens_concat, h.fresh o' ho hs]
    have hne : o ≠ o' := by
      rintro rfl
      have := (hnew ho).2
      omega
    simp [Entry.opens, hne]

theorem begun (h : BooksOk s) : BooksOk (begun s) := h.of_eq rfl rfl (Nat.le_succ _)

theorem opens_opened (fd : ℕ) {o o' : Obj} (hne : o ≠ o')
    (h : opens o' (ledger s.trace) = 0) :
    opens o' (ledger (PerpdActivate.opened s fd o).trace) = 0 := by
  have hl : ledger (PerpdActivate.opened s fd o).trace = ledger s.trace ++ [.opened fd o] := by
    simp [ledger, PerpdActivate.opened, Sys.emit, posting]
  rw [hl, opens_concat, h]
  simp [Entry.opens, hne]

theorem openedSv (h : BooksOk s) {key : Key} {sd : Svdef} (ho : Opened s key sd t) : BooksOk t := by
  have hfresh (o : Obj) (hk : o.key ≠ none) (hn : Obj.serial o = s.serial) :
      opens o (ledger (PerpdActivate.begun s).trace) = 0 := h.fresh o hk hn.ge
  have hlt : s.serial < (PerpdActivate.begun s).serial := Nat.lt_succ_self _
  cases ho with
  | plain hb hl hd =>
    exact h.begun.opened _ _ hd fun hk => ⟨hfresh _ hk rfl, hlt⟩
  | logged hb hl hd h0 h1 hd0 hd1 h01 =>
    have hbd := h.begun.opened sd.fdDir (.svdir key s.serial) hd fun hk => ⟨hfresh _ hk rfl, hlt⟩
    have hb0 := hbd.opened sd.logpipe0 (.logpipe0 key s.serial)
      (by simpa [Function.update_of_ne hd0] using h0)
      fun hk => ⟨opens_opened _ (by simp) (hfresh _ hk rfl), hlt⟩
    exact hb0.opened sd.logpipe1 (.logpipe1 key s.serial)
      (by simpa [Function.update_of_ne hd1, Function.update_of_ne h01.symm] using h1)
      fun hk => ⟨opens_opened _ (by simp) (opens_opened _ (by simp) (hfresh _ hk rfl)), hlt⟩

theorem failed (h : BooksOk s) {key : Key} (hf : Failed s key t) : BooksOk t := by
  cases hf with
  | long => exact h.of_eq rfl rfl (Nat.le_succ _)
  | nodir => exact h.begun
  | nopipe fd hfd =>
    refine (h.begun.opened fd _ hfd fun hk => ⟨?_, Nat.lt_succ_self _⟩).close fd
    exact h.fresh _ hk (Nat.le_refl _)

end BooksOk

theorem books_fdStep {s s' : Sys} {sd sd' : Svdef} (h : BooksOk s) (hs : FdStep s sd s' sd') :
    BooksOk s' := by
  cases hs with
  | still hs => exact h.still hs
  | shut s1 x _ _ _ h1 h2 => exact ((((h.still h1).emitSv x _).close _).close _).still h2

theorem books_move {t t' : Table} (h : BooksOk t.sys) (hm : Move t t') : BooksOk t'.sys := by
  cases hm with
  | entry i sd s' sd' hi hs hterm => exact books_fdStep h (entryStep_fd hs)
  | activate svdir st d s' sd hnew hroom hterm ha =>
    obtain ⟨sd0, s1, ho, rfl, -⟩ := activate_some ha
    exact ((h.openedSv ho).emitSv sd0 _).still (.firstStart _ sd0)
  | activateFail svdir st d s' hnew ha => exact h.failed (activateFail_frame ha)
  | cull i sd hi hc => exact (h.emitSv sd .cull).close _
  | accept fd hf => exact h.opened fd .client hf fun hk => absurd rfl hk
  | drop fd conns hc => exact h.close fd
  | term hterm =>
    have h0 : BooksOk { t.sys.emit .term with flagTerminating := true, flagTerm := 0, flagHup := 0 } :=
      h.of_eq (by simp [ledger, Sys.emit, posting]) rfl (Nat.le_refl _)
    exact h0.close _
  | idle s' hi =>
    obtain ⟨evs, ht, hp⟩ := hi.grows
    have hevs : ledger evs = [] := by
      refine List.filterMap_eq_nil_iff.mpr fun e he => ?_
      have := hp e he
      unfold Plain at this
      split at this <;> first | exact this.elim | rfl
    refine h.of_eq ?_ hi.fds hi.serial.ge
    rw [ht, ledger, List.filterMap_append]
    exact (congrArg _ hevs).trans (List.append_nil _)

end Books

section Placed

/-- The descriptors that are an entry's own in its `n`-th activation. -/
def Own (sd : Svdef) (n : ℕ) (shut : Bool) (fd : ℕ) (o : Obj) : Prop :=
  (fd = sd.fdDir ∧ o = .svdir sd.key n) ∨
  (sd.has .haslog = true ∧ shut = false ∧
    (fd = sd.logpipe0 ∧ o = .logpipe0 sd.key n ∨ fd = sd.logpipe1 ∧ o = .logpipe1 sd.key n))

theorem Own.kept {sd sd' : Svdef} {n : ℕ} {b : Bool} {fd : ℕ} {o : Obj} (h : Own sd n b fd o)
    (hk : Kept sd sd') : Own sd' n b fd o := by
  unfold Own
  rw [hk.fdDir, hk.key, hk.haslog, hk.logpipe0, hk.logpipe1]
  exact h

/-- Everything that is open has its place: with a client, with perpd itself, or
with an entry of the table. -/
def Placed (base : ℕ → Option Obj) (t : Table) (fd : ℕ) : Obj → Prop
  | .client => fd ∈ t.conns
  | .listen => base fd = some .listen
  | .other => base fd = some .other
  | o => ∃ sd ∈ t.svdefs, ∃ n shut, (pipeOf sd.key).run t.sys.trace = some (n, shut) ∧
      Own sd n shut fd o

def AllPlaced (base : ℕ → Option Obj) (t : Table) : Prop :=
  ∀ fd o, t.sys.fds fd = some o → Placed base t fd o

theorem placed_iff {base : ℕ → Option Obj} {t : Table} {fd : ℕ} {o : Obj} {k : Key}
    (ho : o.key = some k) : Placed base t fd o ↔
      ∃ sd ∈ t.svdefs, sd.key = k ∧ ∃ n shut, (pipeOf sd.key).run t.sys.trace = some (n, shut) ∧
        Own sd n shut fd o := by
  have hkey {sd : Svdef} {n : ℕ} {shut : Bool} (h : Own sd n shut fd o) : sd.key = k := by
    rcases h with ⟨_, rfl⟩ | ⟨_, _, ⟨_, rfl⟩ | ⟨_, rfl⟩⟩ <;> exact Option.some.inj ho
  have hiff : (∃ sd ∈ t.svdefs, ∃ n shut, (pipeOf sd.key).run t.sys.trace = some (n, shut) ∧
      Own sd n shut fd o) ↔ ∃ sd ∈ t.svdefs, sd.key = k ∧ ∃ n shut,
        (pipeOf sd.key).run t.sys.trace = some (n, shut) ∧ Own sd n shut fd o := by
    constructor
    · rintro ⟨sd, hsd, n, b, hl, h⟩
      exact ⟨sd, hsd, hkey h, n, b, hl, h⟩
    · rintro ⟨sd, hsd, _, h⟩
      exact ⟨sd, hsd, h⟩
  cases o <;> first | exact hiff | simp [Obj.key] at ho

theorem AllPlaced.keep {base : ℕ → Option Obj} {t t' : Table} (h : AllPlaced base t)
    (hfds : ∀ fd o, t'.sys.fds fd = some o → t.sys.fds fd = some o)
    (hc : ∀ fd, t'.sys.fds fd = some .client → fd ∈ t.conns → fd ∈ t'.conns)
    (ho : ∀ fd o, t'.sys.fds fd = some o → ∀ sd ∈ t.svdefs, ∀ n shut,
      (pipeOf sd.key).run t.sys.trace = some (n, shut) → Own sd n shut fd o →
        ∃ sd' ∈ t'.svdefs, ∃ n shut, (pipeOf sd'.key).run t'.sys.trace = some (n, shut) ∧
          Own sd' n shut fd o) : AllPlaced base t' := by
  intro fd o hfd
  have hp := h fd o (hfds fd o hfd)
  cases o with
  | client => exact hc fd hfd hp
  | listen => exact hp
  | other => exact hp
  | _ =>
    obtain ⟨sd, hsd, n, b, hl, hown⟩ := hp
    exact ho fd _ hfd sd hsd n b hl hown

theorem close_sub {s : Sys} {fd x : ℕ} {o : Obj} (h : (s.close fd).fds x = some o) :
    x ≠ fd ∧ s.fds x = some o := by
  have hne : x ≠ fd := by
    rintro rfl
    simp [Sys.close] at h
  exact ⟨hne, by simpa [Sys.close, Function.update_of_ne hne] using h⟩

theorem closeLogpipe_sub {s : Sys} {x : Svdef} {fd : ℕ} {o : Obj}
    (h : (closeLogpipe s x).fds fd = some o) :
    fd ≠ x.logpipe0 ∧ fd ≠ x.logpipe1 ∧ s.fds fd = some o := by
  obtain ⟨h0, h⟩ := close_sub h
  obtain ⟨h1, h⟩ := close_sub h
  exact ⟨h0, h1, h⟩

theorem fdStep_placed {s s' : Sys} {sd sd' : Svdef} (h : FdStep s sd s' sd') (hk : Kept sd sd')
    {fd : ℕ} {o : Obj} (hfd : s'.fds fd = some o) : s.fds fd = some o ∧
      ∀ n b, (pipeOf sd.key).run s.trace = some (n, b) → Own sd n b fd o →
        ∃ n b, (pipeOf sd'.key).run s'.trace = some (n, b) ∧ Own sd' n b fd o := by
  cases h with
  | still h =>
    rw [h.fds] at hfd
    refine ⟨hfd, fun n b hl ho => ⟨n, b, ?_, ho.kept hk⟩⟩
    rw [still_pipeOf h, hk.key, hl]
  | shut s1 x hx hx' hlog h1 h2 =>
    rw [h2.fds] at hfd
    obtain ⟨hn0, hn1, hfd⟩ := closeLogpipe_sub hfd
    rw [h1.fds] at hfd
    refine ⟨hfd, fun n b hl ho => ⟨n, true, ?_, Own.kept ?_ hk⟩⟩
    · rw [still_pipeOf h2, hk.key, closeLogpipe_pipeOf, if_pos hx.key, still_pipeOf h1, hl]
      rfl
    · rw [hx.logpipe0] at hn0
      rw [hx.logpipe1] at hn1
      rcases ho with ho | ⟨_, _, ⟨rfl, _⟩ | ⟨rfl, _⟩⟩
      · exact Or.inl ho
      · exact absurd rfl hn0
      · exact absurd rfl hn1

theorem fdStep_other {s s' : Sys} {sd sd' : Svdef} (h : FdStep s sd s' sd') {k : Key}
    (hk : sd.key ≠ k) : (pipeOf k).run s'.trace = (pipeOf k).run s.trace := by
  cases h with
  | still h => exact still_pipeOf h k
  | shut s1 x hx _ _ h1 h2 =>
    rw [still_pipeOf h2, closeLogpipe_pipeOf, if_neg (by rwa [hx.key]), still_pipeOf h1]

theorem opened_placed {s s' : Sys} {key : Key} {sd : Svdef} (h : Opened s key sd s') {fd : ℕ}
    {o : Obj} (hfd : s'.fds fd = some o) : s.fds fd = some o ∨ Own sd s.serial false fd o := by
  have hnew {f : ℕ → Option Obj} {x : ℕ} {p : Obj} (hx : Function.update f x (some p) fd = some o) :
      f fd = some o ∨ fd = x ∧ o = p := by
    by_cases he : fd = x
    · subst he
      simp only [Function.update_self, Option.some.injEq] at hx
      exact Or.inr ⟨rfl, hx.symm⟩
    · exact Or.inl (by rwa [Function.update_of_ne he] at hx)
  unfold Own
  rw [h.blank.key]
  cases h with
  | plain hb hl hd => exact (hnew hfd).imp_right Or.inl
  | logged hb hl hd h0 h1 hd0 hd1 h01 =>
    rcases hnew hfd with hfd | hp
    · rcases hnew hfd with hfd | hp
      · exact (hnew hfd).imp_right Or.inl
      · exact Or.inr (Or.inr ⟨hl, rfl, Or.inl hp⟩)
    · exact Or.inr (Or.inr ⟨hl, rfl, Or.inr hp⟩)

theorem AllPlaced.entry {base : ℕ → Option Obj} {t : Table} {i : ℕ} {sd sd' : Svdef} {s' : Sys}
    (h : AllPlaced base t) (ht : TableOk t) (hi : t.svdefs[i]? = some sd)
    (hs : EntryStep t.sys sd s' sd') : AllPlaced base ⟨s', t.svdefs.set i sd', t.conns⟩ := by
  have hfd := entryStep_fd hs
  have hk := Kept.entryStep hs
  refine h.keep (fun fd o ho => (fdStep_placed hfd hk ho).1) (fun fd _ hm => hm) ?_
  intro fd o ho x hx n b hl hown
  obtain ⟨j, hj⟩ := List.getElem?_of_mem hx
  have hlt := (List.getElem?_eq_some_iff.mp hi).1
  by_cases hij : j = i
  · subst hij
    obtain rfl : sd = x := Option.some.inj (hi.symm.trans hj)
    obtain ⟨n', b', h1, h2⟩ := (fdStep_placed hfd hk ho).2 n b hl hown
    exact ⟨sd', List.mem_of_getElem? (i := j) (by simp [hlt]), n', b', h1, h2⟩
  · refine ⟨x, List.mem_of_getElem? (i := j) ?_, n, b, ?_, hown⟩
    · rwa [List.getElem?_set_ne (Ne.symm hij)]
    · rw [fdStep_other hfd (key_ne_of_ne ht.nodup hi hj hij), hl]

theorem AllPlaced.activate {base : ℕ → Option Obj} {t : Table} {sd : Svdef} {s1 : Sys} {k : Key}
    (h : AllPlaced base t) (hnk : k ∉ t.svdefs.map Svdef.key) (ho : Opened t.sys k sd s1) :
    AllPlaced base ⟨(firstStart (s1.emitSv sd (.activate t.sys.serial)) sd).1,
      t.svdefs ++ [(firstStart (s1.emitSv sd (.activate t.sys.serial)) sd).2.put .active],
      t.conns⟩ := by
  have hstill := Still.firstStart (s1.emitSv sd (.activate t.sys.serial)) sd
  have hkept := firstStart_kept (s1.emitSv sd (.activate t.sys.serial)) sd
  have hact : Kept sd ((firstStart (s1.emitSv sd (.activate t.sys.serial)) sd).2.put .active) :=
    hkept.trans (by constructor <;> simp)
  intro fd o hfd
  have hfd' : s1.fds fd = some o := by
    have : (firstStart (s1.emitSv sd (.activate t.sys.serial)) sd).1.fds fd = some o := hfd
    rwa [hstill.fds] at this
  rcases opened_placed ho hfd' with hold | hown
  · have hpl := h fd o hold
    have hothers : (∃ x ∈ t.svdefs, ∃ n shut, (pipeOf x.key).run t.sys.trace = some (n, shut) ∧
        Own x n shut fd o) → ∃ x ∈ t.svdefs ++
          [(firstStart (s1.emitSv sd (.activate t.sys.serial)) sd).2.put .active], ∃ n shut,
            (pipeOf x.key).run
              (firstStart (s1.emitSv sd (.activate t.sys.serial)) sd).1.trace = some (n, shut) ∧
              Own x n shut fd o := by
      rintro ⟨x, hx, n, b, hl, hown⟩
      have hne : k ≠ x.key := fun he => hnk (he ▸ List.mem_map_of_mem hx)
      exact ⟨x, List.mem_append_left _ hx, n, b, (activated_pipeOf ho hne).trans hl, hown⟩
    cases o <;> first | exact hpl | exact hothers hpl
  · have hkey : o.key = some sd.key := by
      rcases hown with ⟨_, rfl⟩ | ⟨_, _, ⟨_, rfl⟩ | ⟨_, rfl⟩⟩ <;> rfl
    rw [placed_iff hkey]
    refine ⟨_, List.mem_append_right _ (List.mem_singleton_self _), hact.key, t.sys.serial, false, ?_,
      hown.kept hact⟩
    have := (opened_owns ho).life
    rw [hact.key]
    exact (still_pipeOf hstill _).trans this

theorem placed_move {base : ℕ → Option Obj} {t t' : Table} (h : AllPlaced base t)
    (ht : TableOk t) (hm : Move t t') (hp : Along ShutOnce t'.sys.trace) :
    AllPlaced base t' := by
  cases hm with
  | entry i sd s' sd' hi hs hterm =>
    exact h.entry ht hi hs
  | activate svdir st d s' sd hnew hroom hterm ha =>
    obtain ⟨sd0, s1, ho, rfl, rfl⟩ := activate_some ha
    exact h.activate (lookup_eq_none hnew) ho
  | activateFail svdir st d s' hnew ha =>
    have hfl := activateFail_frame ha
    refine h.keep (fun fd o ho => by rwa [failed_fds hfl] at ho) (fun _ _ hm => hm) ?_
    intro fd o _ x hx n b hl hown
    exact ⟨x, hx, n, b, (failed_pipeOf hfl _).trans hl, hown⟩
  | cull i sd hi hc =>
    have hperm := swapRemove_perm _ _ _ hi
    refine h.keep (fun fd o ho => (close_sub ho).2) (fun _ _ hm => hm) ?_
    intro fd o ho x hx n b hl hown
    have hpipe : (pipeOf x.key).run (perpdSvdefClose (t.sys.emitSv sd .cull) sd).trace =
        (pipeOf x.key).run t.sys.trace := by
      rw [perpdSvdefClose, close_pipeOf]
      simp [Sys.emitSv, Sys.emit, pipeOf]
    rcases List.mem_cons.mp (hperm.mem_iff.mp hx) with rfl | hx
    · -- the entry that is removed has closed all that was its own
      exfalso
      have hcull := hp t.sys.trace (.sv x .cull) [.closed x.fdDir (t.sys.fds x.fdDir)]
        (by simp [perpdSvdefClose, Sys.close, Sys.emitSv, Sys.emit])
      rcases hown with ⟨rfl, _⟩ | ⟨hlog, rfl, _⟩
      · exact (close_sub ho).1 rfl
      · have := hcull hlog
        simp [hl] at this
    · exact ⟨x, hx, n, b, hpipe.trans hl, hown⟩
  | accept fd hfree =>
    intro x o hx
    by_cases he : x = fd
    · subst he
      obtain rfl : Obj.client = o := by simpa using hx
      exact Multiset.mem_cons_self x t.conns
    · have hx' : t.sys.fds x = some o := by simpa [Function.update_of_ne he] using hx
      have hpl := h x o hx'
      have hpipe (k : Key) := opened_pipeOf t.sys fd .client k
      cases o with
      | client => exact Multiset.mem_cons_of_mem hpl
      | listen => exact hpl
      | other => exact hpl
      | _ =>
        obtain ⟨sd, hsd, n, b, hl, hown⟩ := hpl
        exact ⟨sd, hsd, n, b, (hpipe _).trans hl, hown⟩
  | drop fd conns hc =>
    refine h.keep (fun x o ho => (close_sub ho).2) (fun x ho hm => ?_) ?_
    · rw [hc] at hm
      exact (Multiset.mem_cons.mp hm).resolve_left (close_sub ho).1
    · intro x o _ sd hsd n b hl hown
      exact ⟨sd, hsd, n, b, (close_pipeOf _ _ _).trans hl, hown⟩
  | term hterm =>
    refine h.keep (fun x o ho => (close_sub ho).2) (fun _ _ hm => hm) ?_
    intro x o _ sd hsd n b hl hown
    refine ⟨sd, hsd, n, b, ?_, hown⟩
    rw [terminated, close_pipeOf]
    simpa [Sys.emit, pipeOf] using hl
  | idle s' hi =>
    refine h.keep (fun x o ho => by rwa [hi.fds] at ho) (fun _ _ hm => hm) ?_
    intro x o _ sd hsd n b hl hown
    exact ⟨sd, hsd, n, b, (idle_pipeOf hi _).trans hl, hown⟩

end Placed

/-- A close of what is open. -/
def Hit : Event → Prop
  | .closed _ none => False
  | _ => True

section Hits
variable {P : List Event → Event → Prop} (hP : ∀ past e, Hit e → P past e)
include hP

section Steps
variable {s t : Sys} {sd : Svdef} (h : Along P s.trace)
include h

theorem along_still (hs : Still s sd t) : Along P t.trace := by
  obtain ⟨evs, ht, hp⟩ := hs.grows
  rw [ht]
  refine h.append_free fun e he past => hP past e ?_
  have := hp e he
  unfold Hit
  split
  · exact this
  · trivial

theorem along_close {fd : ℕ} {o : Obj} (ho : s.fds fd = some o) : Along P (s.close fd).trace := by
  simp only [Sys.close, Sys.emit, along_concat, ho]
  exact ⟨h, hP _ _ trivial⟩

theorem along_emitSv (x : Svdef) (e : SvEvent) : Along P (s.emitSv x e).trace := by
  simp only [Sys.emitSv, Sys.emit, along_concat]
  exact ⟨h, hP _ _ trivial⟩

theorem along_opened (fd : ℕ) (o : Obj) : Along P (opened s fd o).trace := by
  simp only [opened, Sys.emit, along_concat]
  exact ⟨h, hP _ _ trivial⟩

theorem along_firstShut {n : ℕ} (ho : Owns s sd n false) (hl : sd.has .haslog = true) :
    Along P (closeLogpipe s sd).trace := by
  obtain ⟨h0, h1⟩ := ho.pipe hl rfl
  have hne : sd.logpipe0 ≠ sd.logpipe1 := fun he => by
    rw [he, h1] at h0
    simp at h0
  refine along_close hP (along_close hP (along_emitSv hP h sd _) h1) (o := .logpipe0 sd.key n) ?_
  simpa [Sys.close, Function.update_of_ne hne] using h0

end Steps

theorem along_move {base : ℕ → Option Obj} {t t' : Table} (h : Along P t.sys.trace)
    (hf : FdsOk base t) (hm : Move t t')
    (hshut : ∀ s x n b, Owns s x n b → x.has .haslog = true → Along P s.trace →
      (∃ evs, t'.sys.trace = (closeLogpipe s x).trace ++ evs) →
      Along P (closeLogpipe s x).trace) : Along P t'.sys.trace := by
  cases hm with
  | entry i sd s' sd' hi hs hterm =>
    obtain ⟨n, b, ho⟩ := hf.owns sd (List.mem_of_getElem? hi)
    cases entryStep_fd hs with
    | still hs => exact along_still hP h hs
    | shut s1 x hx hx' hlog h1 h2 =>
      have ho1 := (ho.still h1).kept hx
      obtain ⟨evs, ht, _⟩ := h2.grows
      exact along_still hP (hshut s1 x n b ho1 hlog (along_still hP h h1) ⟨evs, ht⟩) h2
  | activate svdir st d s' sd hnew hroom hterm ha =>
    obtain ⟨sd0, s1, ho, rfl, -⟩ := activate_some ha
    have h0 : Along P (begun t.sys).trace := h
    refine along_still hP (along_emitSv hP ?_ sd0 _) (.firstStart _ sd0)
    cases ho with
    | plain => exact along_opened hP h0 _ _
    | logged =>
      exact along_opened hP (along_opened hP (along_opened hP h0 _ _) _ _) _ _
  | activateFail svdir st d s' hnew ha =>
    cases activateFail_frame ha with
    | long => exact h
    | nodir => exact h
    | nopipe fd hfd =>
      have h0 : Along P (begun t.sys).trace := h
      exact along_close hP (along_opened hP h0 fd (.svdir _ _))
        (o := .svdir (st.dev, st.ino) t.sys.serial) (by simp)
  | cull i sd hi hc =>
    obtain ⟨n, b, ho⟩ := hf.owns sd (List.mem_of_getElem? hi)
    exact along_close hP (along_emitSv hP h sd .cull) ho.dir
  | accept fd hfree => exact along_opened hP h fd .client
  | drop fd conns hc => exact along_close hP h (hf.clients fd (by simp [hc]))
  | term hterm =>
    have h0 : Along P { t.sys.emit .term with
        flagTerminating := true, flagTerm := 0, flagHup := 0 }.trace :=
      (along_concat _ _).mpr ⟨h, hP _ _ trivial⟩
    exact along_close hP h0 (hf.listen hterm)
  | idle s' hi =>
    obtain ⟨evs, ht, hp⟩ := hi.grows
    rw [ht]
    refine h.append_free fun e he past => hP past e ?_
    have := hp e he
    unfold Plain at this
    split at this <;> first | exact this.elim | trivial

end Hits

/-- What holds of the descriptors of the table. -/
structure Closing (cfg : Config) (t : Table) : Prop where
  fds : FdsOk cfg.fds t
  books : BooksOk t.sys
  placed : AllPlaced cfg.fds t
  hits : Along (fun _ => Hit) t.sys.trace
  listen : t.sys.fdListen = cfg.fdListen

theorem table_closing (cfg : Config) : TableInv cfg ShutOnce (Closing cfg) where
  start := by
    have hf : (table (perpdStart cfg)).sys.fds = cfg.fds := by
      simp [table, perpdStart, perpdTriggerScan, Sys.selfpipePing]
    have hbase (fd : ℕ) (o : Obj) (h : cfg.fds fd = some o) : o.key = none := by
      rcases cfg.fds_base fd o h with rfl | ⟨_, rfl⟩ <;> rfl
    refine ⟨.start cfg, ⟨fun o ho => ?_, fun o _ _ => ?_⟩, fun fd o ho => ?_, by simp [table], ?_⟩
    · have hl : ledger (table (perpdStart cfg)).sys.trace = [] := by simp [table, ledger]
      rw [hl]
      refine .blank fun fd hfd => ho (hbase fd o ?_)
      rwa [hf] at hfd
    · simp [table, ledger, opens]
    · rw [hf] at ho
      rcases cfg.fds_base fd o ho with rfl | ⟨_, rfl⟩
      · exact ho
      · exact ho
    · simp [table, perpdStart, perpdTriggerScan, Sys.selfpipePing]
  step := by
    intro t t' ht hm hp h
    have hfirst := firstShut_of_shutOnce hp
    refine ⟨h.fds.move ht hm (firstShut_harmless hfirst), books_move h.books hm, placed_move h.placed ht hm hp,
      along_move (fun _ _ => id) h.hits h.fds hm fun s x n b ho hl hs ht => ?_,
      (move_listen ht hm).trans h.listen⟩
    obtain rfl := firstShut_owns ho ht hfirst
    exact along_firstShut (fun _ _ => id) hs ho hl

/-- Every descriptor of a service is opened and closed in good order. -/
structure DescriptorsClosed (cfg : Config) (p : Perpd) : Prop where
  /-- no close of what is not open -/
  hits : ∀ fd, .closed fd none ∉ p.sys.trace
  /-- each was opened once, and is open or was closed once -/
  books : ∀ o, o.key ≠ none → Books p.sys.fds (ledger p.sys.trace) o
  /-- what is open belongs to an entry that has not been removed -/
  removed : ∀ fd o k, o.key = some k → p.sys.fds fd = some o → ∃ sd ∈ p.svdefs, sd.key = k ∧
    ∃ n shut, (pipeOf k).run p.sys.trace = some (n, shut) ∧ Own sd n shut fd o
  /-- with all services and clients gone, the open descriptors are those of the beginning -/
  restored : p.svdefs = [] → connfds p.clients = 0 → p.sys.flagTerminating = false →
    p.sys.fds = cfg.fds

/-- The log of a service is commanded down, then the service is deactivated. -/
def logDownGone : List IterIn :=
  [connects (scans quiet [loggedFoo]) 9,
    { quiet with clients := [sends (ctlRequest (1, 2) 'd' svcmdFlagLog)] },
    exits quiet [(100, 15)], exits quiet [(102, 0)], scans quiet [], exits quiet [(101, 15)],
    exits quiet [(103, 0)]]

end Perp.PerpdCloses
