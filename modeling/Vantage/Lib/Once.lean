import Mathlib.Data.List.Nodup
import Mathlib.Tactic.Common

/-!
# Effects that are emitted at most once

Some effects carry a key.  A key may be used once, and once more for each effect that grants it;
the state marks the keys that have been used up.

* `keyCount key k es`: how often the key is used.
-/

variable {σ ε κ : Type} [DecidableEq κ] {key : ε → Option κ}

/-- The number of effects with a key. -/
def keyCount (key : ε → Option κ) (k : κ) (es : List ε) : ℕ := (es.filterMap key).count k

theorem keyCount_append (key : ε → Option κ) (k : κ) (es es' : List ε) :
    keyCount key k (es ++ es') = keyCount key k es + keyCount key k es' := by
  rw [keyCount, List.filterMap_append, List.count_append]
  rfl

theorem keyCount_eq_zero {k : κ} {es : List ε} (h : ∀ x ∈ es, key x ≠ some k) :
    keyCount key k es = 0 := by
  refine List.count_eq_zero.mpr fun hk => ?_
  obtain ⟨x, hx, hkey⟩ := List.mem_filterMap.mp hk
  exact h x hx hkey

theorem keyCount_le_one {es : List ε} (h : (es.filterMap key).Nodup) (k : κ) :
    keyCount key k es ≤ 1 := List.nodup_iff_count_le_one.mp h k

/-- Every key is used at most once more than it is granted, and then it is marked. -/
structure Once (key grant : ε → Option κ) (marked : σ → κ → Prop) (s : σ) (out : List ε) :
    Prop where
  le : ∀ k, keyCount key k out ≤ keyCount grant k out + 1
  marked : ∀ k, keyCount grant k out < keyCount key k out → marked s k

namespace Once

variable {key grant : ε → Option κ} {marked marked' : σ → κ → Prop} {s s' : σ} {out es : List ε}

/-- The marks stay, and a use without a grant is paid for with a new mark. -/
theorem step (h : Once key grant marked s out) (hkeep : ∀ k, marked s k → marked' s' k)
    (hpay : ∀ k, keyCount key k es ≤ keyCount grant k es ∨
      keyCount key k es ≤ keyCount grant k es + 1 ∧ ¬marked s k ∧ marked' s' k) :
    Once key grant marked' s' (out ++ es) := by
  refine ⟨fun k => ?_, fun k hlt => ?_⟩
  · rw [keyCount_append, keyCount_append]
    have hle := h.le k
    rcases hpay k with hfree | ⟨hone, hnew, -⟩
    · omega
    · have := mt (h.marked k) hnew
      omega
  · rw [keyCount_append, keyCount_append] at hlt
    rcases hpay k with hfree | ⟨-, -, hmark⟩
    · exact hkeep k (h.marked k (by omega))
    · exact hmark

/-- Effects with different keys that are marked only now. -/
theorem fresh (h : Once key grant marked s out) (hkeep : ∀ k, marked s k → marked' s' k)
    (hd : (es.filterMap key).Nodup)
    (hnew : ∀ k ∈ es.filterMap key, ¬marked s k ∧ marked' s' k) :
    Once key grant marked' s' (out ++ es) := by
  refine h.step hkeep fun k => ?_
  by_cases hk : k ∈ es.filterMap key
  · exact .inr ⟨Nat.le_add_left_of_le (keyCount_le_one hd k), hnew k hk⟩
  · rw [keyCount, List.count_eq_zero.mpr hk]
    exact .inl (Nat.zero_le _)

theorem free (h : Once key grant marked s out) (hkeep : ∀ k, marked s k → marked' s' k)
    (hes : ∀ x ∈ es, key x = none) : Once key grant marked' s' (out ++ es) := by
  have hnil : es.filterMap key = [] := List.filterMap_eq_nil_iff.mpr hes
  refine h.fresh hkeep ?_ ?_ <;> rw [hnil]
  · exact .nil
  · exact fun k hk => absurd hk List.not_mem_nil

end Once
