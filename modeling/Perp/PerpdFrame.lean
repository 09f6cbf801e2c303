import Perp.PerpdMainloop

set_option autoImplicit false

/-!
# What one service can do to another

Every routine that works on one entry of `svdefs[]` leaves the kernel's records
of the other services as they were, up to descriptors closed by number, which
the trace shows.
-/
namespace Perp.PerpdFrame
open PerpdState PerpdSvdef PerpdConn PerpdMainloop

/-- The pid an event is about. -/
def Event.pid : Event → Option ℕ
  | .sv _ (.fork _ _ _ _ _ _ ret) => ret
  | .sv _ (.kill _ target _) => some target.natAbs
  | _ => none

/-- From `s` to `s'` nothing was done on behalf of the service `k`. -/
structure Frame (k : Key) (s s' : Sys) : Prop where
  grows : ∃ evs, s'.trace = s.trace ++ evs ∧
    (∀ e ∈ evs, e.key ≠ some k) ∧
    (∀ e ∈ evs, ∀ p, Event.pid e = some p → ∀ w, s.children p ≠ some (k, w)) ∧
    (∀ e ∈ evs, ∀ fd o, e = .opened fd o → o.key ≠ some k) ∧
    (∀ fd o, o.key = some k → s.fds fd = some o →
      s'.fds fd = some o ∨ .closed fd (some o) ∈ evs)
  opens : ∀ fd o, o.key = some k → s'.fds fd = some o → s.fds fd = some o
  listens : ∀ fd, s'.fds fd = some .listen → s.fds fd = some .listen
  children : ∀ p w, s'.children p = some (k, w) ↔ s.children p = some (k, w)
  serial : s.serial ≤ s'.serial
  terminating : s.flagTerminating = true → s'.flagTerminating = true
  term : (s.flagTerminating = true ↔ .term ∈ s.trace) →
    (s'.flagTerminating = true ↔ .term ∈ s'.trace)
  shut : s'.flagTerminating = s.flagTerminating ∨ ∀ fd, s'.fds fd ≠ some .listen
  signals : s'.sysstrSignal = s.sysstrSignal
  listen : s'.fdListen = s.fdListen

namespace Frame
variable {k : Key} {s t u : Sys}

theorem refl (k : Key) (s : Sys) : Frame k s s where
  grows := ⟨[], by simp⟩
  opens _ _ _ h := h
  listens _ h := h
  children _ _ := Iff.rfl
  serial := le_refl _
  terminating h := h
  term h := h
  shut := Or.inl rfl
  signals := rfl
  listen := rfl

theorem trans (h : Frame k s t) (h' : Frame k t u) : Frame k s u where
  grows := by
    obtain ⟨a, ha, hka, hpa, hoa, hca⟩ := h.grows
    obtain ⟨b, hb, hkb, hpb, hob, hcb⟩ := h'.grows
    refine ⟨a ++ b, by rw [hb, ha, List.append_assoc], ?_, ?_, ?_, ?_⟩
    · exact fun e he => (List.mem_append.mp he).elim (hka e) (hkb e)
    · intro e he p hp w
      rcases List.mem_append.mp he with he | he
      · exact hpa e he p hp w
      · rw [Ne, ← h.children]
        exact hpb e he p hp w
    · intro e he
      rcases List.mem_append.mp he with he | he
      · exact hoa e he
      · exact hob e he
    · intro fd o ho hs
      rcases hca fd o ho hs with hs | hs
      · rcases hcb fd o ho hs with hs | hs
        · exact Or.inl hs
        · exact Or.inr (List.mem_append_right _ hs)
      · exact Or.inr (List.mem_append_left _ hs)
  opens fd o ho hu := h.opens fd o ho (h'.opens fd o ho hu)
  listens fd hu := h.listens fd (h'.listens fd hu)
  children p w := (h'.children p w).trans (h.children p w)
  serial := h.serial.trans h'.serial
  terminating hs := h'.terminating (h.terminating hs)
  term hs := h'.term (h.term hs)
  shut := by
    rcases h'.shut with ht | hn
    · rcases h.shut with hs | hn
      · exact Or.inl (ht.trans hs)
      · exact Or.inr fun fd hu => hn fd (h'.listens fd hu)
    · exact Or.inr hn
  signals := h'.signals.trans h.signals
  listen := h'.listen.trans h.listen

theorem of_silent (ht : t.trace = s.trace) (hf : t.fds = s.fds) (hc : t.children = s.children)
    (hn : s.serial ≤ t.serial) (hx : t.flagTerminating = s.flagTerminating)
    (hg : t.sysstrSignal = s.sysstrSignal) (hl : t.fdListen = s.fdListen) : Frame k s t where
  grows := ⟨[], by simp [ht, hf]⟩
  opens _ _ _ h := by rwa [hf] at h
  listens _ h := by rwa [hf] at h
  children _ _ := by rw [hc]
  serial := hn
  terminating h := hx ▸ h
  term h := by rwa [hx, ht]
  shut := Or.inl hx
  signals := hg
  listen := hl

theorem tainNow (s : Sys) : Frame k s s.tainNow.2 :=
  of_silent rfl rfl rfl (le_refl _) rfl rfl rfl

theorem perpdTriggerScan (s : Sys) : Frame k s (perpdTriggerScan s) := by
  unfold PerpdState.perpdTriggerScan
  split
  · exact refl k s
  · exact of_silent rfl rfl rfl (le_refl _) rfl rfl rfl

theorem emit (s : Sys) (e : Event) (hk : e.key ≠ some k) (ht : e ≠ .term)
    (hp : ∀ p, Event.pid e = some p → ∀ w, s.children p ≠ some (k, w))
    (ho : ∀ fd o, e = .opened fd o → o.key ≠ some k) : Frame k s (s.emit e) where
  grows := ⟨[e], rfl, by simpa using hk, by simpa using hp, by simpa using ho,
    fun fd o _ h => Or.inl h⟩
  opens _ _ _ h := h
  listens _ h := h
  children _ _ := Iff.rfl
  serial := le_refl _
  terminating h := h
  term h := by simpa [Sys.emit, ht.symm] using h
  shut := Or.inl rfl
  signals := rfl
  listen := rfl

theorem emitSv (s : Sys) (sd : Svdef) (e : SvEvent) (hk : sd.key ≠ k)
    (hp : ∀ p, Event.pid (.sv sd e) = some p → ∀ w, s.children p ≠ some (k, w)) :
    Frame k s (s.emitSv sd e) :=
  emit s _ (by simpa [Event.key] using hk) (by simp) hp (by simp)

theorem waited (s : Sys) (pid : ℕ) (h : ∀ w, s.children pid ≠ some (k, w)) :
    Frame k s (s.waited pid) where
  grows := ⟨[], by simp [Sys.waited]⟩
  opens _ _ _ ho := ho
  listens _ ho := ho
  children p w := by
    by_cases hp : p = pid
    · subst hp
      simp [Sys.waited, h w]
    · simp [Sys.waited, Function.update_of_ne hp]
  serial := le_refl _
  terminating h := h
  term h := by simpa [Sys.waited, Sys.close, Sys.emit] using h
  shut := Or.inl rfl
  signals := rfl
  listen := rfl

theorem close (s : Sys) (fd : ℕ) : Frame k s (s.close fd) where
  grows := by
    refine ⟨[.closed fd (s.fds fd)], rfl, by simp [Event.key], by simp [Event.pid], by simp, ?_⟩
    intro fd' o _ h
    by_cases he : fd' = fd
    · subst he
      exact Or.inr (by simp [h])
    · exact Or.inl (by simp [Sys.close, Function.update_of_ne he, h])
  opens fd' o _ h := by
    by_cases he : fd' = fd
    · subst he
      simp [Sys.close] at h
    · simpa [Sys.close, Function.update_of_ne he] using h
  listens fd' h := by
    by_cases he : fd' = fd
    · subst he
      simp [Sys.close] at h
    · simpa [Sys.close, Function.update_of_ne he] using h
  children _ _ := Iff.rfl
  serial := le_refl _
  terminating h := h
  term h := by simpa [Sys.waited, Sys.close, Sys.emit] using h
  shut := Or.inl rfl
  signals := rfl
  listen := rfl

theorem openFd (s : Sys) (ret : Option ℕ) (o : Obj) (ho : o.key ≠ some k) (hl : o ≠ .listen) :
    Frame k s (s.openFd ret o).2 := by
  unfold Sys.openFd
  split
  · exact refl k s
  · split
    · rename_i fd hfree
      constructor
      · refine ⟨[.opened fd o], rfl, by simp [Event.key], by simp [Event.pid], ?_, ?_⟩
        · intro e he fd' o' h
          simp only [List.mem_singleton] at he
          subst he
          simp only [Event.opened.injEq] at h
          exact h.2 ▸ ho
        · intro fd' o' _ h
          have hne : fd' ≠ fd := by
            rintro rfl
            simp [hfree] at h
          exact Or.inl (by simp [Function.update_of_ne hne, h])
      · intro fd' o' ho' h
        by_cases he : fd' = fd
        · subst he
          simp only [Function.update_self, Option.some.injEq] at h
          exact absurd (h ▸ ho') ho
        · simpa [Function.update_of_ne he] using h
      · intro fd' h
        by_cases he : fd' = fd
        · subst he
          simp only [Function.update_self, Option.some.injEq] at h
          exact absurd h hl
        · simpa [Function.update_of_ne he] using h
      · exact fun _ _ => Iff.rfl
      · exact le_refl _
      · exact id
      · exact fun h => by simpa [Sys.emit] using h
      · exact Or.inl rfl
      · rfl
      · rfl
    · exact refl k s

end Frame

end Perp.PerpdFrame
