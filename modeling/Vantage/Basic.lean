import Mathlib.Data.List.Sort
import Mathlib.Data.Finset.Card
import Mathlib.Algebra.BigOperators.Group.Finset.Basic
import Mathlib.Algebra.GroupWithZero.Nat
import Mathlib.Tactic.Common
import Vantage.Lib.Quorum

/-!
# Committees, thresholds and hashing

Public keys `K` and digests `D` are arbitrary ordered types: no digest type with finitely
many values has an injective hash, so the results that need one are about all digest types.
Views, heights, stakes and instants are natural numbers.
-/

namespace Vantage

/-- The members and their stakes. -/
structure Committee (K : Type) where
  authorities : Finset K
  stakeOf : K → ℕ
  nonempty : authorities.Nonempty

namespace Committee

variable {K : Type} (c : Committee K)

def size : ℕ := c.authorities.card

def stake [DecidableEq K] (name : K) : ℕ :=
  if name ∈ c.authorities then c.stakeOf name else 0

def totalStake : ℕ := ∑ k ∈ c.authorities, c.stakeOf k

def quorumThreshold : ℕ := 2 * c.totalStake / 3 + 1

def validityThreshold : ℕ := (c.totalStake + 2) / 3

/-- The authorities in increasing order, as the ordered map of the source iterates over them. -/
def sorted [LinearOrder K] : List K :=
  Quotient.liftOn c.authorities.val (List.insertionSort (· ≤ ·)) fun a b h =>
    List.Perm.eq_of_sortedLE (List.sortedLE_insertionSort) (List.sortedLE_insertionSort)
      (((List.perm_insertionSort _ a).trans h).trans (List.perm_insertionSort _ b).symm)

theorem size_pos : 0 < c.size := Finset.card_pos.mpr c.nonempty

theorem sorted_length [LinearOrder K] : c.sorted.length = c.size := by
  obtain ⟨⟨s, hs⟩, w, hn⟩ := c
  induction s using Quotient.inductionOn with
  | h l => exact List.length_insertionSort _ l

theorem sorted_perm [LinearOrder K] : (c.sorted : Multiset K) = c.authorities.val := by
  obtain ⟨⟨s, hs⟩, w, hn⟩ := c
  induction s using Quotient.inductionOn with
  | h l => exact Quotient.sound (List.perm_insertionSort _ l)

theorem sorted_nodup [LinearOrder K] : c.sorted.Nodup := by
  rw [← Multiset.coe_nodup, sorted_perm]
  exact c.authorities.nodup

theorem mem_sorted [LinearOrder K] {k : K} : k ∈ c.sorted ↔ k ∈ c.authorities := by
  rw [← Multiset.mem_coe, sorted_perm]
  exact Iff.rfl

def oneBased [LinearOrder K] (round : ℕ) : K :=
  c.sorted.get ⟨(round - 1) % c.size, by
    rw [c.sorted_length]
    exact Nat.mod_lt _ c.size_pos⟩

def UnitStakes : Prop := ∀ k ∈ c.authorities, c.stakeOf k = 1

end Committee

/-! Small committees have numerals for their members. -/

instance neZeroOne : NeZero 1 := ⟨by decide⟩

instance neZeroTwo : NeZero 2 := ⟨by decide⟩

instance neZeroFour : NeZero 4 := ⟨by decide⟩

/-- The numbers of parties that the protocols wait for. -/
structure Thresholds where
  n : ℕ
  fParties : ℕ
  fPlus1Parties : ℕ
  nMinusFParties : ℕ

/-- `f`, `f + 1` and the protocol quorum `n - f`. -/
def Thresholds.fromPartyCount (n : ℕ) : Thresholds where
  n := n
  fParties := (n - 1) / 3
  fPlus1Parties := (n - 1) / 3 + 1
  nMinusFParties := n - (n - 1) / 3

/-! ### Hashing -/

/-- The domains that hashes are separated by. -/
inductive Tag
  | viewProposal
  | viewProposalBatch
  | resolutionValue
  | sequenceOutcome
  | sequenceDelta
  | sequenceItem
  | sequenceRecord
  | sequenceGenesis
  deriving DecidableEq

/-- A hash of a domain tag, a session identifier and a serialized value; `P` is the type of
the values that are serialized. -/
structure DomainHash (D P : Type) where
  domainHash : Tag → D → P → D

/-- Equal hashes under one session come from equal tags and equal values. -/
def DomainHash.CollisionFree {D P : Type} (H : DomainHash D P) : Prop :=
  ∀ sid t p t' p', H.domainHash t sid p = H.domainHash t' sid p' → t = t' ∧ p = p'

/-! ### Lane references -/

/-- The name of a block. -/
structure BlockRef (K D : Type) where
  author : K
  height : ℕ
  digest : D
  deriving DecidableEq

/-- Entries are ordered strictly by author, with at most one entry per author. -/
abbrev Manifest (K D : Type) : Type := List (BlockRef K D)

/-! ### Fault bounds -/

section Faults

variable {K : Type} (c : Committee K)

theorem three_mul_fParties_lt : 3 * (Thresholds.fromPartyCount c.size).fParties < c.size := by
  have := c.size_pos
  simp only [Thresholds.fromPartyCount]
  omega

/-- The committee with at most `f = (n - 1) / 3` Byzantine authorities. -/
def Committee.faultModel [DecidableEq K] (byzantine : Finset K)
    (h : (c.authorities ∩ byzantine).card ≤ (Thresholds.fromPartyCount c.size).fParties) :
    FaultModel K where
  members := c.authorities
  faulty := byzantine
  f := (Thresholds.fromPartyCount c.size).fParties
  faulty_card_le := h
  three_f_lt := three_mul_fParties_lt c

theorem Committee.totalStake_of_unitStakes (h : c.UnitStakes) : c.totalStake = c.size := by
  rw [totalStake, Finset.sum_congr rfl h, Finset.sum_const, Nat.nsmul_eq_mul, Nat.mul_one, size]

theorem Committee.quorumThreshold_of_unitStakes (h : c.UnitStakes) :
    c.quorumThreshold = (Thresholds.fromPartyCount c.size).nMinusFParties := by
  have := c.size_pos
  rw [quorumThreshold, totalStake_of_unitStakes c h]
  simp only [Thresholds.fromPartyCount]
  omega

theorem Committee.stake_of_unitStakes [DecidableEq K] (h : c.UnitStakes) {k : K}
    (hk : k ∈ c.authorities) : c.stake k = 1 := by
  rw [stake, if_pos hk, h k hk]

end Faults

end Vantage
