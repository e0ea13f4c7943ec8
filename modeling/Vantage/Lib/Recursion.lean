import Mathlib.Logic.Function.Iterate
import Mathlib.Tactic.Common

/-!
# Recursive definitions that return

A recursive definition is a functional `F`, and `F^[n] g` is the definition unfolded `n` times, with
`g` in the place of the calls that are nested deeper.  If the value does not depend on `g`, no
deeper call is made.

* `ReturnsWithin F n a`: the call at `a` returns within `n` nested calls.
-/

variable {α β : Type}

/-- The call at `a` returns within `n` nested calls. -/
def ReturnsWithin (F : (α → β) → α → β) (n : ℕ) (a : α) : Prop := ∀ g g', F^[n] g a = F^[n] g' a

namespace ReturnsWithin

variable {F : (α → β) → α → β} {n : ℕ} {a : α}

theorem eq_of_le (h : ReturnsWithin F n a) {m : ℕ} (hm : n ≤ m) (g g' : α → β) :
    F^[m] g a = F^[n] g' a := by
  obtain ⟨k, rfl⟩ := Nat.exists_eq_add_of_le hm
  rw [Function.iterate_add_apply]
  exact h _ _

/-- `W` singles out the functions that behave well and `P` the arguments that occur; a call at `a`
may then rely on its nested calls at smaller arguments. -/
theorem of_measure {W : (α → β) → Prop} {P : α → Prop} {μ : α → ℕ} (hW : ∀ g, W g → W (F g))
    (h : ∀ g g' a, W g' → P a → (∀ b, P b → μ b < μ a → g b = g' b) → F g a = F g' a)
    {g₀ : α → β} (h₀ : W g₀) (ha : P a) (hn : μ a < n) : ReturnsWithin F n a := by
  have key : ∀ n g a, P a → μ a < n → F^[n] g a = F^[n] g₀ a := by
    intro n
    induction n with
    | zero => exact fun g a _ hn => absurd hn (Nat.not_lt_zero _)
    | succ n ih =>
      intro g a ha hn
      rw [Function.iterate_succ_apply', Function.iterate_succ_apply']
      have hg : W (F^[n] g₀) := Function.Iterate.rec W h₀ hW n
      exact h _ _ a hg ha fun b hb hlt => ih g b hb (by omega)
  exact fun g g' => (key n g a ha hn).trans (key n g' a ha hn).symm

end ReturnsWithin
