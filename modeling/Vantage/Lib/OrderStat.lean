import Mathlib.Data.List.Sort
import Mathlib.Data.Finset.Dedup
import Mathlib.Order.BoundedOrder.Basic
import Vantage.Lib.Quorum

/-!
# Order statistics

The `k`th largest element of a list reaches a bound exactly when `k` of the elements do, so an
order statistic of one value per member is a statement about how many members have a property.
-/

namespace OrderStat

variable {α : Type} [LinearOrder α] [OrderBot α]

/-- The `k`th largest element of a list, counted from one; `⊥` when the list is shorter. -/
def kthLargest (values : List α) (k : ℕ) : α := (values.insertionSort (· ≥ ·)).getD (k - 1) ⊥

theorem le_getD_iff_of_pairwise {v : α} (hv : ⊥ < v) {l : List α} (hl : l.Pairwise (· ≥ ·)) :
    ∀ j, v ≤ l.getD j ⊥ ↔ j < (l.filter (v ≤ ·)).length := by
  induction l with
  | nil =>
    intro j
    simpa using hv.ne'
  | cons a l ih =>
    obtain ⟨ha, hl⟩ := List.pairwise_cons.mp hl
    intro j
    by_cases hva : v ≤ a
    · rw [List.filter_cons_of_pos (by simpa using hva), List.length_cons]
      cases j with
      | zero => simpa using hva
      | succ j => rw [List.getD_cons_succ, ih hl j, Nat.succ_lt_succ_iff]
    · -- nothing after an element below the bound reaches it
      have hbelow : ∀ x ∈ a :: l, ¬ v ≤ x := by
        intro x hx hvx
        rcases List.mem_cons.mp hx with rfl | hx
        · exact hva hvx
        · exact hva (hvx.trans (ha x hx))
      rw [List.filter_eq_nil_iff.mpr (by simpa using hbelow), List.length_nil]
      refine iff_of_false ?_ (Nat.not_lt_zero j)
      rw [List.getD_eq_getElem?_getD]
      cases hj : (a :: l)[j]? with
      | none => simpa using hv.ne'
      | some x => exact hbelow x (List.mem_of_getElem? hj)

/-- The `k`th largest element reaches a bound iff `k` elements do. -/
theorem le_kthLargest_iff {v : α} (hv : ⊥ < v) {k : ℕ} (hk : 0 < k) (values : List α) :
    v ≤ kthLargest values k ↔ k ≤ (values.filter (v ≤ ·)).length := by
  rw [kthLargest, le_getD_iff_of_pairwise hv (List.pairwise_insertionSort _ values),
    ((List.perm_insertionSort (· ≥ ·) values).filter _).length_eq]
  omega

omit [LinearOrder α] [OrderBot α] in
private theorem length_filter_filterMap {K : Type} (f : K → Option α) (p : α → Bool) (l : List K) :
    ((l.filterMap f).filter p).length = (l.filter fun q => (f q).any p).length := by
  induction l with
  | nil => rfl
  | cons q l ih =>
    cases hq : f q with
    | none => simp [hq, ih]
    | some x => by_cases hx : p x <;> simp [hq, hx, ih]

/-- When the `k`th largest of the values that the keys of a list have reaches a bound, then so do
the values of `k` members. -/
theorem atLeast_of_le_kthLargest {K : Type} [DecidableEq K] {members : Finset K} {l : List K}
    (hl : l.Nodup) (hmem : ∀ q ∈ l, q ∈ members) (f : K → Option α) {v : α} (hv : ⊥ < v) {k : ℕ}
    (hk : 0 < k) (h : v ≤ kthLargest (l.filterMap f) k) :
    AtLeast members k fun q => ∃ x ∈ f q, v ≤ x := by
  rw [le_kthLargest_iff hv hk, length_filter_filterMap] at h
  refine ⟨(l.filter fun q => (f q).any (v ≤ ·)).toFinset, ?_, ?_, ?_⟩
  · intro q hq
    exact hmem q (List.mem_of_mem_filter (List.mem_toFinset.mp hq))
  · rwa [List.toFinset_card_of_nodup (hl.filter _)]
  · intro q hq
    have hany := List.of_mem_filter (List.mem_toFinset.mp hq)
    cases hx : f q with
    | none => simp [hx] at hany
    | some x => exact ⟨x, rfl, by simpa [hx] using hany⟩

end OrderStat
