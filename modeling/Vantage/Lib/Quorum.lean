import Mathlib.Data.Finset.Card
import Mathlib.Tactic.Common

/-!
# Quorums under a bounded number of faults

`FaultModel` fixes a finite set of members of which at most `f` are faulty, with
`3 * f < n`.  A quorum is any set of at least `n - f` members.
-/

/-- At least `n` members have the property `P`. -/
def AtLeast {K : Type} (members : Finset K) (n : ℕ) (P : K → Prop) : Prop :=
  ∃ A ⊆ members, n ≤ A.card ∧ ∀ k ∈ A, P k

theorem AtLeast.mono {K : Type} {members : Finset K} {n : ℕ} {P Q : K → Prop}
    (h : AtLeast members n P) (hPQ : ∀ k ∈ members, P k → Q k) : AtLeast members n Q := by
  obtain ⟨A, hA, hn, hP⟩ := h
  exact ⟨A, hA, hn, fun k hk => hPQ k (hA hk) (hP k hk)⟩

theorem AtLeast.all {K : Type} {members : Finset K} {P : K → Prop}
    (h : AtLeast members members.card P) {k : K} (hk : k ∈ members) : P k := by
  obtain ⟨A, hA, hn, hP⟩ := h
  rw [← Finset.eq_of_subset_of_card_le hA hn] at hk
  exact hP k hk

theorem AtLeast.exists_notMem {K : Type} [DecidableEq K] {members faulty : Finset K} {n : ℕ}
    {P : K → Prop} (h : AtLeast members n P) (hf : (members ∩ faulty).card < n) :
    ∃ k ∈ members, k ∉ faulty ∧ P k := by
  obtain ⟨A, hA, hn, hP⟩ := h
  have hlt : (members ∩ faulty).card < A.card := by omega
  obtain ⟨k, hk, hno⟩ := Finset.exists_mem_notMem_of_card_lt_card hlt
  exact ⟨k, hA hk, fun hf => hno (Finset.mem_inter.mpr ⟨hA hk, hf⟩), hP k hk⟩

/-- Members of which at most `f` are faulty, with `3 * f < n`. -/
structure FaultModel (K : Type) [DecidableEq K] where
  members : Finset K
  faulty : Finset K
  f : ℕ
  faulty_card_le : (members ∩ faulty).card ≤ f
  three_f_lt : 3 * f < members.card

namespace FaultModel

variable {K : Type} [DecidableEq K] (F : FaultModel K)

def quorum : ℕ := F.members.card - F.f

def Correct (k : K) : Prop := k ∈ F.members ∧ k ∉ F.faulty

variable {F} {A : Finset K}

theorem card_faulty_inter_le (hA : A ⊆ F.members) :
    (A ∩ F.faulty).card ≤ F.f :=
  (Finset.card_le_card (Finset.inter_subset_inter_right hA)).trans F.faulty_card_le

/-- More than `f` members contain a correct one. -/
theorem exists_correct (hA : A ⊆ F.members) (h : F.f < A.card) :
    ∃ k ∈ A, F.Correct k := by
  by_contra hno
  push Not at hno
  have hsub : A ⊆ A ∩ F.faulty := by
    intro k hk
    refine Finset.mem_inter.mpr ⟨hk, ?_⟩
    by_contra hf
    exact hno k hk ⟨hA hk, hf⟩
  have := (Finset.card_le_card hsub).trans (card_faulty_inter_le hA)
  omega

theorem card_sub_le_correct (hA : A ⊆ F.members) :
    A.card ≤ (A \ F.faulty).card + F.f := by
  have h := Finset.card_sdiff_add_card_inter A F.faulty
  have := card_faulty_inter_le (F := F) hA
  omega

theorem f_lt_quorum : F.f < F.quorum := by
  have := F.three_f_lt
  rw [quorum]
  omega

theorem correct_card (hA : A ⊆ F.members) (h : F.quorum ≤ A.card) :
    F.f < (A \ F.faulty).card := by
  have h1 := card_sub_le_correct (F := F) hA
  have h2 := F.three_f_lt
  rw [quorum] at h
  omega

theorem quorum_correct (hA : A ⊆ F.members) (h : F.quorum ≤ A.card) :
    ∃ k ∈ A, F.Correct k :=
  exists_correct hA (f_lt_quorum.trans_le h)

theorem inter_card {A B : Finset K} (hA : A ⊆ F.members) (hB : B ⊆ F.members) :
    A.card + B.card ≤ (A ∩ B).card + F.members.card := by
  have h1 := Finset.card_union_add_card_inter A B
  have h2 := Finset.card_le_card (Finset.union_subset hA hB)
  omega

/-- Two quorums share a correct member. -/
theorem quorum_inter {A B : Finset K} (hA : A ⊆ F.members) (hB : B ⊆ F.members)
    (hqA : F.quorum ≤ A.card) (hqB : F.quorum ≤ B.card) :
    ∃ k, k ∈ A ∧ k ∈ B ∧ F.Correct k := by
  have h1 := inter_card hA hB
  have h2 := F.three_f_lt
  rw [quorum] at hqA hqB
  have hAB : A ∩ B ⊆ F.members := Finset.inter_subset_left.trans hA
  obtain ⟨k, hk, hc⟩ := exists_correct hAB (by omega)
  exact ⟨k, (Finset.mem_inter.mp hk).1, (Finset.mem_inter.mp hk).2, hc⟩

/-- More than `f` members with a property include a correct one. -/
theorem atLeast_correct {P : K → Prop} {n : ℕ} (h : AtLeast F.members n P) (hn : F.f < n) :
    ∃ k, F.Correct k ∧ P k := by
  obtain ⟨A, hA, hcard, hP⟩ := h
  obtain ⟨k, hk, hc⟩ := exists_correct hA (hn.trans_le hcard)
  exact ⟨k, hc, hP k hk⟩

/-- Two properties of quorums hold together at a correct member. -/
theorem atLeast_inter {P Q : K → Prop} (hP : AtLeast F.members F.quorum P)
    (hQ : AtLeast F.members F.quorum Q) : ∃ k, F.Correct k ∧ P k ∧ Q k := by
  obtain ⟨A, hA, hqA, hP⟩ := hP
  obtain ⟨B, hB, hqB, hQ⟩ := hQ
  obtain ⟨k, hkA, hkB, hc⟩ := quorum_inter hA hB hqA hqB
  exact ⟨k, hc, hP k hkA, hQ k hkB⟩

end FaultModel
