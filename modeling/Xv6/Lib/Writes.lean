import Mathlib

/-!
# Sequences of writes to a store

A store maps addresses to values. `apply` runs a list of writes from left to right.
-/

open Function

namespace Xv6.Writes

variable {κ β : Type} [DecidableEq κ]

def apply (ws : List (κ × β)) (d : κ → β) : κ → β :=
  ws.foldl (fun d w => Function.update d w.1 w.2) d

theorem apply_append (ws vs : List (κ × β)) (d : κ → β) :
    apply (ws ++ vs) d = apply vs (apply ws d) := by
  simp [apply]

theorem apply_snoc (ws : List (κ × β)) (d : κ → β) (b : κ) (v : β) :
    apply (ws ++ [(b, v)]) d = update (apply ws d) b v := by
  simp [apply]

/-- An address that no write names keeps its value. -/
theorem apply_other (ws : List (κ × β)) (d : κ → β) (b : κ) (h : ∀ w ∈ ws, w.1 ≠ b) :
    apply ws d b = d b := by
  induction ws generalizing d with
  | nil => rfl
  | cons w ws ih =>
    have hw : b ≠ w.1 := (h w (by simp)).symm
    change apply ws (update d w.1 w.2) b = d b
    rw [ih _ (fun x hx => h x (by simp [hx])), update_of_ne hw]

end Xv6.Writes
