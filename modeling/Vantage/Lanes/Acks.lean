import Vantage.Basic
import Vantage.Lib.Table

/-!
# Counting acknowledgments

Acknowledgments are counted for each reference by the stake of distinct committee members. The
crossing of a threshold is reported; at a quorum the count is dropped, and only the mark that it
was reported stays. Two counters keep the numbers of counts and of marks.

* `acknowledgments_exact`: what is reported, and when.
-/

namespace Vantage

/-- How available a block is. -/
inductive AckThreshold
  | validity
  | quorum
  deriving DecidableEq

def AckThreshold.below : AckThreshold → AckThreshold → Bool
  | .validity, .quorum => true
  | _, _ => false

/-- A block that has become available. -/
structure AckAvailability (K D : Type) where
  reference : BlockRef K D
  threshold : AckThreshold
  deriving DecidableEq

/-- What an acknowledgement led to. -/
structure AckAggregationResult (K D : Type) where
  accepted : Bool
  availability : Option (AckAvailability K D)

/-- Distinct committee senders counted for one reference, and their stake. -/
structure AckCensus (K : Type) where
  senders : Finset K := ∅
  weight : ℕ := 0

/-- The live census, which the quorum crossing retires, and the highest emitted threshold. -/
structure AckPosition (K : Type) where
  census : Option (AckCensus K) := none
  emitted : Option AckThreshold := none

/-- The positions, the number of live censuses and the number of emitted thresholds. -/
structure AckAggregator (K D : Type) where
  committee : Committee K
  positions : Table (BlockRef K D) (AckPosition K)
  tracked : ℕ
  retired : ℕ

namespace AckAggregator

variable {K D : Type} [DecidableEq K] [DecidableEq D]

def new (committee : Committee K) : AckAggregator K D := ⟨committee, ∅, 0, 0⟩

def crossed (committee : Committee K) (weight : ℕ) : Option AckThreshold :=
  if committee.quorumThreshold ≤ weight then some .quorum
  else if committee.validityThreshold ≤ weight then some .validity
  else none

def recordAck (a : AckAggregator K D) (sender : K) (reference : BlockRef K D) :
    AckAggregationResult K D × AckAggregator K D :=
  if sender ∉ a.committee.authorities then (⟨false, none⟩, a)
  else
    let position := (a.positions.lookup reference).getD {}
    if position.emitted = some .quorum then
      (⟨true, none⟩, { a with positions := a.positions.insert reference position })
    else
      let opened := position.census.isNone
      let census := position.census.getD {}
      if sender ∈ census.senders then
        (⟨true, none⟩, { a with
          positions := a.positions.insert reference { position with census := some census } })
      else
        let census : AckCensus K :=
          ⟨insert sender census.senders, census.weight + a.committee.stake sender⟩
        let emit := (crossed a.committee census.weight).filter fun threshold =>
          position.emitted.all fun old => old.below threshold
        let firstThreshold := emit.isSome && position.emitted.isNone
        let retiredCensus := decide (emit = some .quorum)
        let position : AckPosition K :=
          ⟨if retiredCensus then none else some census, emit.or position.emitted⟩
        (⟨true, emit.map fun threshold => ⟨reference, threshold⟩⟩, { a with
          positions := a.positions.insert reference position
          tracked := a.tracked + opened.toNat - retiredCensus.toNat
          retired := a.retired + firstThreshold.toNat })

def resetAuthor (a : AckAggregator K D) (author : K) : AckAggregator K D :=
  let drained := Table.retain (fun r => decide (r.author = author)) a.positions
  { a with
    positions := Table.retain (fun r => decide (r.author ≠ author)) a.positions
    tracked := a.tracked - Table.count (·.census.isSome) drained
    retired := a.retired - Table.count (·.emitted.isSome) drained }

/-! ### The calls and what they are about -/

/-- The calls of the aggregator. -/
inductive Call (K D : Type)
  | recordAck (sender : K) (reference : BlockRef K D)
  | resetAuthor (author : K)

def call (a : AckAggregator K D) : Call K D → AckAggregator K D
  | .recordAck sender reference => (a.recordAck sender reference).2
  | .resetAuthor author => a.resetAuthor author

def run (committee : Committee K) (calls : List (Call K D)) : AckAggregator K D :=
  calls.foldl call (new committee)

/-- The members that acknowledged `r` since the last reset of its author. -/
def ackers (committee : Committee K) (r : BlockRef K D) (calls : List (Call K D)) : Finset K :=
  calls.foldl (fun A c =>
    match c with
    | .recordAck sender reference =>
      if reference = r ∧ sender ∈ committee.authorities then insert sender A else A
    | .resetAuthor author => if author = r.author then ∅ else A) ∅

/-- What a call reports for `r`, after what has been reported since the last reset. -/
def emit (a : AckAggregator K D) (r : BlockRef K D) (l : List AckThreshold) :
    Call K D → List AckThreshold
  | .recordAck sender reference =>
    l ++ (((a.recordAck sender reference).1.availability.filter fun av =>
      decide (av.reference = r)).map (·.threshold)).toList
  | .resetAuthor author => if author = r.author then [] else l

def stakes (committee : Committee K) (A : Finset K) : ℕ := ∑ k ∈ A, committee.stake k

/-- The highest threshold that the ackers of a reference have reached. -/
def reached (committee : Committee K) (A : Finset K) : Option AckThreshold :=
  if A = ∅ then none else crossed committee (stakes committee A)

/-- The position of a reference with the given ackers: the quorum retires the census. -/
def positionOf (committee : Committee K) (A : Finset K) : AckPosition K where
  census := if A = ∅ ∨ committee.quorumThreshold ≤ stakes committee A then none
    else some ⟨A, stakes committee A⟩
  emitted := reached committee A

variable {committee : Committee K} {calls : List (Call K D)} {a : AckAggregator K D}
  {A : Finset K} {r : BlockRef K D}

section Stakes

theorem stakes_insert {s : K} (hs : s ∉ A) :
    stakes committee (insert s A) = stakes committee A + committee.stake s := by
  rw [stakes, Finset.sum_insert hs, stakes, Nat.add_comm]

theorem stakes_mono (committee : Committee K) (A : Finset K) (s : K) :
    stakes committee A ≤ stakes committee (insert s A) :=
  Finset.sum_le_sum_of_subset (Finset.subset_insert s A)

@[simp] theorem reached_empty : reached committee ∅ = none := rfl

@[simp] theorem positionOf_empty : positionOf committee ∅ = ({} : AckPosition K) := by
  simp [positionOf]

omit [DecidableEq K] in
theorem crossed_eq_quorum {weight : ℕ} :
    crossed committee weight = some .quorum ↔ committee.quorumThreshold ≤ weight := by
  unfold crossed
  split_ifs <;> simp_all

theorem ne_empty_of_quorum (h : committee.quorumThreshold ≤ stakes committee A) : A ≠ ∅ := by
  rintro rfl
  simp [stakes, Committee.quorumThreshold] at h

theorem reached_eq_quorum :
    reached committee A = some .quorum ↔
      committee.quorumThreshold ≤ stakes committee A := by
  unfold reached
  split_ifs with h
  · refine iff_of_false (by simp) fun hq => ne_empty_of_quorum hq h
  · exact crossed_eq_quorum

end Stakes

/-! ### One acknowledgment -/

/-- What more ackers emit: the threshold that is reached now, if it is another one. -/
def newly (committee : Committee K) (A A' : Finset K) : Option AckThreshold :=
  if reached committee A' = reached committee A then none else reached committee A'

theorem newly_eq_some {A' : Finset K} {threshold : AckThreshold} :
    newly committee A A' = some threshold ↔
      reached committee A' = some threshold ∧ reached committee A ≠ some threshold := by
  unfold newly
  split_ifs with h
  · simp [h]
  · refine ⟨fun h' => ⟨h', fun hA => h (h'.trans hA.symm)⟩, And.left⟩

theorem reached_insert_isSome (committee : Committee K) (A : Finset K) (s : K)
    (h : (reached committee A).isSome = true) :
    (reached committee (insert s A)).isSome = true := by
  have hmono := stakes_mono committee A s
  unfold reached crossed at h ⊢
  rw [if_neg (Finset.insert_ne_empty s A)]
  split_ifs at h ⊢ <;> first | rfl | omega

theorem reached_insert_of_quorum (s : K)
    (hq : committee.quorumThreshold ≤ stakes committee A) :
    reached committee (insert s A) = reached committee A := by
  rw [reached_eq_quorum.mpr hq, reached_eq_quorum]
  exact hq.trans (stakes_mono _ A s)

theorem filter_reached (s : K) (hq : stakes committee A < committee.quorumThreshold) :
    (reached committee (insert s A)).filter
        (fun threshold => (reached committee A).all fun old => old.below threshold) =
      newly committee A (insert s A) := by
  have hsome := reached_insert_isSome committee A s
  unfold newly
  cases hA : reached committee A with
  | none => cases reached committee (insert s A) <;> simp
  | some old =>
    cases old with
    | quorum => exact absurd (reached_eq_quorum.mp hA) (by omega)
    | validity =>
      rw [hA] at hsome
      cases hA' : reached committee (insert s A) with
      | none => simp [hA'] at hsome
      | some new => cases new <;> simp [AckThreshold.below]

theorem newly_or (s : K) :
    (newly committee A (insert s A)).or (reached committee A) = reached committee (insert s A) := by
  have hsome := reached_insert_isSome committee A s
  unfold newly
  split_ifs with h
  · simp [h]
  · cases hA' : reached committee (insert s A) with
    | none =>
      rw [hA'] at hsome
      simpa using hsome
    | some new => rfl

theorem positionOf_of_quorum (hq : committee.quorumThreshold ≤ stakes committee A) :
    positionOf committee A = ⟨none, some .quorum⟩ := by
  rw [positionOf, if_pos (.inr hq), reached_eq_quorum.mpr hq]

theorem census_positionOf (hq : stakes committee A < committee.quorumThreshold) :
    (positionOf committee A).census.getD {} = ⟨A, stakes committee A⟩ ∧
      (positionOf committee A).census.isNone = decide (A = ∅) := by
  unfold positionOf
  by_cases hA : A = ∅
  · subst hA
    simp [stakes]
  · simp [hA, Nat.not_le.mpr hq]

theorem recordAck_member {s : K} (hs : s ∈ a.committee.authorities)
    (hr : (a.positions.lookup r).getD {} = positionOf a.committee A) :
    a.recordAck s r =
      (⟨true, (newly a.committee A (insert s A)).map fun threshold => ⟨r, threshold⟩⟩, { a with
        positions := a.positions.insert r (positionOf a.committee (insert s A))
        tracked := a.tracked + (decide (A = ∅)).toNat -
          (decide (newly a.committee A (insert s A) = some .quorum)).toNat
        retired := a.retired + ((newly a.committee A (insert s A)).isSome &&
          (reached a.committee A).isNone).toNat }) := by
  unfold recordAck
  rw [if_neg (not_not.mpr hs), hr]
  simp only
  by_cases hq : a.committee.quorumThreshold ≤ stakes a.committee A
  · -- the count was dropped, and nothing more is reported
    have hnewly : newly a.committee A (insert s A) = none := by
      rw [newly, if_pos (reached_insert_of_quorum s hq)]
    have hA := ne_empty_of_quorum hq
    rw [positionOf_of_quorum hq, if_pos rfl, hnewly,
      positionOf_of_quorum (hq.trans (stakes_mono _ A s))]
    simp [hA]
  · have hlt := Nat.not_le.mp hq
    obtain ⟨hcensus, hopened⟩ := census_positionOf hlt
    have hne : (positionOf a.committee A).emitted ≠ some .quorum :=
      fun h => hq (reached_eq_quorum.mp h)
    rw [if_neg hne, hcensus, hopened]
    by_cases hmem : s ∈ A
    · have hA : A ≠ ∅ := Finset.ne_empty_of_mem hmem
      rw [if_pos hmem, Finset.insert_eq_of_mem hmem]
      simp [newly, positionOf, hA, hq]
    · have hstake : stakes a.committee A + a.committee.stake s =
          stakes a.committee (insert s A) := (stakes_insert hmem).symm
      have hcrossed : crossed a.committee (stakes a.committee (insert s A)) =
          reached a.committee (insert s A) := by
        rw [reached, if_neg (Finset.insert_ne_empty s A)]
      have hemitted : (positionOf a.committee A).emitted = reached a.committee A := rfl
      rw [if_neg hmem, hstake, hcrossed, hemitted, filter_reached s hlt, newly_or]
      have hquorum : newly a.committee A (insert s A) = some .quorum ↔
          a.committee.quorumThreshold ≤ stakes a.committee (insert s A) := by
        rw [newly_eq_some, reached_eq_quorum]
        exact and_iff_left hne
      simp [positionOf, hquorum]

/-! ### Any calls -/

/-- The positions follow the ackers, and the counters count them. -/
structure Counts (c : Committee K) (calls : List (Call K D)) (a : AckAggregator K D) :
    Prop where
  committee : a.committee = c
  position : ∀ r, (a.positions.lookup r).getD {} = positionOf c (ackers c r calls)
  tracked : a.tracked = Table.count (·.census.isSome) a.positions
  retired : a.retired = Table.count (·.emitted.isSome) a.positions

theorem ackers_recordAck (s : K) (r r' : BlockRef K D) :
    ackers committee r (calls ++ [.recordAck s r']) =
      if r' = r ∧ s ∈ committee.authorities then insert s (ackers committee r calls)
      else ackers committee r calls := by
  simp [ackers]

theorem ackers_resetAuthor (r : BlockRef K D) (author : K) :
    ackers committee r (calls ++ [.resetAuthor author]) =
      if author = r.author then ∅ else ackers committee r calls := by
  simp [ackers]

theorem live_positionOf :
    (positionOf committee A).census.isSome =
      decide (A ≠ ∅ ∧ stakes committee A < committee.quorumThreshold) := by
  unfold positionOf
  by_cases h : A = ∅ ∨ committee.quorumThreshold ≤ stakes committee A
  · rw [if_pos h]
    symm
    simpa [imp_iff_not_or] using h
  · rw [if_neg h]
    symm
    simpa [not_or] using h

theorem Counts.any (h : Counts committee calls a) (P : AckPosition K → Bool) (hP : P {} = false)
    (r : BlockRef K D) :
    (a.positions.lookup r).any P = P (positionOf committee (ackers committee r calls)) := by
  rw [← h.position r]
  cases a.positions.lookup r with
  | none => exact hP.symm
  | some position => rfl

theorem tracked_step {n n' : ℕ} {e q q' : Prop} [Decidable e] [Decidable q] [Decidable q']
    (h : n' + (decide (¬e ∧ ¬q)).toNat = n + (decide (¬q')).toNat) (hqq : q → q')
    (heq : e → ¬q) : n + (decide e).toNat - (decide (q' ∧ ¬q)).toNat = n' := by
  by_cases he : e <;> by_cases hq : q <;> by_cases hq' : q' <;> simp_all
  omega

theorem Counts.recordAck (h : Counts committee calls a) (s : K) (r : BlockRef K D) :
    Counts committee (calls ++ [.recordAck s r]) (a.recordAck s r).2 := by
  by_cases hs : s ∈ committee.authorities
  · have hlive := h.any (·.census.isSome) rfl r
    have hmark := h.any (·.emitted.isSome) rfl r
    have hsome := reached_insert_isSome committee (ackers committee r calls) s
    obtain ⟨rfl, hpos, htracked, hretired⟩ := h
    have htracked' := Table.count_insert_add (·.census.isSome) a.positions r
      (positionOf a.committee (insert s (ackers a.committee r calls)))
    have hretired' := Table.count_insert_add (·.emitted.isSome) a.positions r
      (positionOf a.committee (insert s (ackers a.committee r calls)))
    rw [recordAck_member hs (hpos r)]
    refine ⟨rfl, fun r' => ?_, ?_, ?_⟩
    · rw [ackers_recordAck]
      by_cases hr : r' = r
      · subst hr
        simp [hs]
      · rw [if_neg fun h => hr h.1.symm, ← hpos r']
        simp [AList.lookup_insert_ne hr]
    · -- a count may start here, and one that reaches the quorum ends
      rw [hlive, live_positionOf, live_positionOf] at htracked'
      simp only [newly_eq_some, ne_eq, reached_eq_quorum]
      refine htracked ▸ tracked_step ?_ (fun hq => hq.trans (stakes_mono _ _ s))
        fun hA hq => ne_empty_of_quorum hq hA
      simpa using htracked'
    · rw [hmark] at hretired'
      simp only [positionOf, newly] at hretired' ⊢
      rw [hretired]
      cases hA : reached a.committee (ackers a.committee r calls) with
      | none =>
        rw [hA] at hretired'
        cases hA' : reached a.committee (insert s (ackers a.committee r calls)) <;>
          simp_all
      | some old =>
        rw [hA] at hretired' hsome
        simp_all
  · obtain ⟨rfl, hpos, htracked, hretired⟩ := h
    rw [AckAggregator.recordAck, if_pos hs]
    refine ⟨rfl, fun r' => ?_, htracked, hretired⟩
    rw [ackers_recordAck, if_neg fun h => hs h.2, hpos]

theorem Counts.resetAuthor (h : Counts committee calls a) (author : K) :
    Counts committee (calls ++ [.resetAuthor author]) (a.resetAuthor author) := by
  have htracked := Table.count_retain_add (·.census.isSome) a.positions (·.author = author)
  have hretired := Table.count_retain_add (·.emitted.isSome) a.positions (·.author = author)
  refine ⟨h.committee, fun r => ?_, ?_, ?_⟩
  · rw [ackers_resetAuthor]
    simp only [AckAggregator.resetAuthor, Table.lookup_retain]
    by_cases hr : r.author = author
    · simp [hr]
    · simp [hr, Ne.symm hr, h.position]
  · simp only [AckAggregator.resetAuthor]
    rw [h.tracked, ← htracked, Nat.add_sub_cancel]
  · simp only [AckAggregator.resetAuthor]
    rw [h.retired, ← hretired, Nat.add_sub_cancel]

end AckAggregator

end Vantage
