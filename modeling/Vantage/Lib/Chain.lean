import Mathlib.Tactic.Common
import Mathlib.Data.List.Induction

/-!
# Chains of links

A chain folds a list into one value: it starts with a seed and links each element, with its
position, to what came before. If links are injective and never give the seed, the value of a
chain determines the list.
-/

namespace Vantage

/-- A seed, and a function that links an element at a position to the value before it. -/
structure Chain (D α : Type) where
  seed : D
  link : ℕ → D → α → D

namespace Chain

variable {D α : Type} (c : Chain D α)

/-- The value after linking a list to `previous`, from the given position on. -/
def runFrom (i : ℕ) (previous : D) : List α → D
  | [] => previous
  | a :: as => runFrom (i + 1) (c.link i previous a) as

def head (as : List α) : D := c.runFrom 0 c.seed as

variable {c} {as bs : List α}

@[simp] theorem runFrom_nil {i : ℕ} {previous : D} : c.runFrom i previous [] = previous := rfl

@[simp] theorem runFrom_cons {i : ℕ} {previous : D} {a : α} {as : List α} :
    c.runFrom i previous (a :: as) = c.runFrom (i + 1) (c.link i previous a) as := rfl

theorem runFrom_append {i : ℕ} {previous : D} :
    c.runFrom i previous (as ++ bs) = c.runFrom (i + as.length) (c.runFrom i previous as) bs := by
  induction as generalizing i previous with
  | nil => simp
  | cons a as ih =>
    rw [List.cons_append, runFrom_cons, ih, runFrom_cons, List.length_cons,
      show i + 1 + as.length = i + (as.length + 1) by omega]

theorem head_append :
    c.head (as ++ bs) = c.runFrom as.length (c.head as) bs := by
  rw [head, runFrom_append, Nat.zero_add, head]

theorem head_concat {as : List α} {a : α} :
    c.head (as ++ [a]) = c.link as.length (c.head as) a := by
  rw [head_append, runFrom_cons, runFrom_nil]

theorem runFrom_concat {i : ℕ} {previous : D} {as : List α} {a : α} :
    c.runFrom i previous (as ++ [a]) = c.link (i + as.length) (c.runFrom i previous as) a := by
  rw [runFrom_append, runFrom_cons, runFrom_nil]

/-- Links are injective in all arguments and never give the seed. -/
structure Binding (c : Chain D α) : Prop where
  link_injective : ∀ {i j p q a b}, c.link i p a = c.link j q b → i = j ∧ p = q ∧ a = b
  link_ne_seed : ∀ {i p a}, c.link i p a ≠ c.seed

namespace Binding

/-- Lists of one length that lead to one value, from any two starting points, are equal. -/
theorem runFrom_injective (h : c.Binding) {i : ℕ} {p q : D} (hlen : as.length = bs.length)
    (he : c.runFrom i p as = c.runFrom i q bs) :
    p = q ∧ as = bs := by
  induction as generalizing i p q bs with
  | nil =>
    obtain rfl := List.length_eq_zero_iff.mp hlen.symm
    exact ⟨he, rfl⟩
  | cons a as ih =>
    cases bs with
    | nil => cases hlen
    | cons b bs =>
      obtain ⟨hlink, rfl⟩ := ih (Nat.succ.inj hlen) he
      obtain ⟨-, rfl, rfl⟩ := h.link_injective hlink
      exact ⟨rfl, rfl⟩

/-- The value of a chain determines the list. -/
theorem head_injective (h : c.Binding) (he : c.head as = c.head bs) :
    as = bs := by
  induction as using List.reverseRecOn generalizing bs with
  | nil =>
    rcases List.eq_nil_or_concat bs with rfl | ⟨bs, b, rfl⟩
    · rfl
    · rw [List.concat_eq_append, head_concat] at he
      exact absurd he.symm h.link_ne_seed
  | append_singleton as a ih =>
    rcases List.eq_nil_or_concat bs with rfl | ⟨bs, b, rfl⟩
    · rw [head_concat] at he
      exact absurd he h.link_ne_seed
    · rw [List.concat_eq_append, head_concat, head_concat] at he
      obtain ⟨-, hhead, rfl⟩ := h.link_injective he
      rw [ih hhead, List.concat_eq_append]

end Binding

end Chain

end Vantage
