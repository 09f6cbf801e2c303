import Mathlib.Data.List.Count
import Mathlib.Order.Nat
import Mathlib.Logic.Function.Basic

set_option autoImplicit false

/-!
# A ledger of descriptors

A table of open descriptors, each of which refers to an object, and the record
of the calls that opened and closed them. The books on an object are in order
when it was opened at most once, and since then is open or was closed once.
-/
namespace Perp.FdLedger

universe u
variable {Ω : Type u}

inductive Entry (Ω : Type u) where
  | opened (fd : ℕ) (o : Ω)
  /-- a close, with what it found -/
  | closed (fd : ℕ) (o : Option Ω)

variable [DecidableEq Ω]

def Entry.opens (o : Ω) : Entry Ω → Bool
  | .opened _ o' => o' = o
  | .closed _ _ => false

def Entry.closes (o : Ω) : Entry Ω → Bool
  | .opened _ _ => false
  | .closed _ o' => o' = some o

def opens (o : Ω) (l : List (Entry Ω)) : ℕ := l.countP (Entry.opens o)
def closes (o : Ω) (l : List (Entry Ω)) : ℕ := l.countP (Entry.closes o)

theorem opens_concat (o : Ω) (l : List (Entry Ω)) (e : Entry Ω) :
    opens o (l ++ [e]) = opens o l + if e.opens o then 1 else 0 := by
  cases h : e.opens o <;> simp [opens, h]

theorem closes_concat (o : Ω) (l : List (Entry Ω)) (e : Entry Ω) :
    closes o (l ++ [e]) = closes o l + if e.closes o then 1 else 0 := by
  cases h : e.closes o <;> simp [closes, h]

/-- The books on the object `o`. -/
structure Books (fds : ℕ → Option Ω) (l : List (Entry Ω)) (o : Ω) : Prop where
  single : ∀ fd fd', fds fd = some o → fds fd' = some o → fd = fd'
  isOpen : ∀ fd, fds fd = some o → opens o l = 1 ∧ closes o l = 0
  isShut : (∀ fd, fds fd ≠ some o) → closes o l = opens o l
  once : opens o l ≤ 1

namespace Books
variable {fds : ℕ → Option Ω} {l : List (Entry Ω)} {o : Ω}

theorem blank (h : ∀ fd, fds fd ≠ some o) : Books fds [] o where
  single fd _ hfd := absurd hfd (h fd)
  isOpen fd hfd := absurd hfd (h fd)
  isShut _ := rfl
  once := Nat.zero_le _

theorem opened (h : Books fds l o) (fd : ℕ) (hnew : opens o l = 0) :
    Books (Function.update fds fd (some o)) (l ++ [.opened fd o]) o := by
  have hno (x : ℕ) : fds x ≠ some o := fun hx => by
    have := (h.isOpen x hx).1
    omega
  have hat (x : ℕ) (hx : Function.update fds fd (some o) x = some o) : x = fd := by
    by_contra hne
    rw [Function.update_of_ne hne] at hx
    exact hno x hx
  have hop : opens o (l ++ [.opened fd o]) = 1 := by simp [opens_concat, Entry.opens, hnew]
  refine ⟨fun x y hx hy => (hat x hx).trans (hat y hy).symm, fun x _ => ⟨hop, ?_⟩, ?_, hop.le⟩
  · rw [closes_concat, h.isShut hno, hnew]
    rfl
  · intro hn
    exact absurd (Function.update_self fd (some o) fds) (hn fd)

theorem opened_other (h : Books fds l o) (fd : ℕ) {o' : Ω} (ho : o' ≠ o) (hfree : fds fd = none) :
    Books (Function.update fds fd (some o')) (l ++ [.opened fd o']) o := by
  have hiff (x : ℕ) : Function.update fds fd (some o') x = some o ↔ fds x = some o := by
    by_cases hx : x = fd
    · subst hx
      simp [hfree, ho]
    · rw [Function.update_of_ne hx]
  have hop : opens o (l ++ [.opened fd o']) = opens o l := by simp [opens_concat, Entry.opens, ho]
  have hcl : closes o (l ++ [.opened fd o']) = closes o l := by simp [closes_concat, Entry.closes]
  refine ⟨fun x y hx hy => h.single x y ((hiff x).mp hx) ((hiff y).mp hy), fun x hx => ?_, fun hn => ?_,
    hop.trans_le h.once⟩
  · rw [hop, hcl]
    exact h.isOpen x ((hiff x).mp hx)
  · rw [hop, hcl]
    exact h.isShut fun x hx => hn x ((hiff x).mpr hx)

theorem closed (h : Books fds l o) (fd : ℕ) :
    Books (Function.update fds fd none) (l ++ [.closed fd (fds fd)]) o := by
  have hop : opens o (l ++ [.closed fd (fds fd)]) = opens o l := by simp [opens_concat, Entry.opens]
  have hsub (x : ℕ) (hx : Function.update fds fd none x = some o) : x ≠ fd ∧ fds x = some o := by
    have hne : x ≠ fd := by
      rintro rfl
      simp at hx
    rw [Function.update_of_ne hne] at hx
    exact ⟨hne, hx⟩
  refine ⟨fun x y hx hy => h.single x y (hsub x hx).2 (hsub y hy).2, fun x hx => ?_, fun hn => ?_,
    hop.trans_le h.once⟩
  · obtain ⟨hne, hx⟩ := hsub x hx
    have hfd : fds fd ≠ some o := fun hfd => hne (h.single x fd hx hfd)
    obtain ⟨h1, h2⟩ := h.isOpen x hx
    rw [hop, closes_concat]
    exact ⟨h1, by simp [h2, Entry.closes, hfd]⟩
  · rw [hop, closes_concat]
    by_cases hfd : fds fd = some o
    · obtain ⟨h1, h2⟩ := h.isOpen fd hfd
      simp [h1, h2, Entry.closes, hfd]
    · rw [h.isShut fun x hx => ?_]
      · simp [Entry.closes, hfd]
      · have hne : x ≠ fd := fun he => hfd (he ▸ hx)
        exact hn x (by rw [Function.update_of_ne hne]; exact hx)

end Books

end Perp.FdLedger
