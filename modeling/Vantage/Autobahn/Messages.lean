import Mathlib.Logic.Equiv.List
import Vantage.Basic
import Vantage.Lib.Table

/-!
# Autobahn: cars, cuts and certificates

Every check is modelled by its verdict.  The `tc` and `qc_ticket` of a Prepare are left out: no
digest binds them and no check below reads them.
-/

namespace Vantage

/-- Every name occurs once and has stake, and the stakes reach the threshold. -/
def Committee.admits {K : Type} [DecidableEq K] (c : Committee K) (threshold : ℕ)
    (names : List K) : Bool :=
  decide (names.Nodup ∧ (∀ k ∈ names, 0 < c.stake k) ∧ threshold ≤ (names.map c.stake).sum)

/-- On the fast path everyone has to vote. -/
def Committee.fastThreshold {K : Type} (c : Committee K) : ℕ := c.totalStake

theorem Committee.fParties_lt_validityThreshold {K : Type} {c : Committee K} (hu : c.UnitStakes) :
    (Thresholds.fromPartyCount c.size).fParties < c.validityThreshold := by
  have hsize := c.size_pos
  rw [Committee.validityThreshold, c.totalStake_of_unitStakes hu]
  simp only [Thresholds.fromPartyCount]
  omega

namespace Autobahn

/-- What the hasher is fed, a constructor for each tagged form.  `tip` without evidence is the
untagged reference of an optimistic tip; the last six are the keys of the verified cache. -/
inductive Preimage (K D S : Type)
  | tip (headerDigest : D) (height : ℕ) (evidence : Option D)
  | poa (author : K) (height : ℕ) (headerDigest : D) (votes : List (K × S))
  | qc (id : D) (votes : List (K × S))
  | cut (entries : List (K × D))
  | prepare (slot view : ℕ) (cut : D)
  | confirm (slot view : ℕ) (prepareId : D)
  | commit (slot view : ℕ) (qcId cut : D)
  | carVote (author : K) (height : ℕ) (headerDigest : D)
  | timeout (slot view : ℕ) (author : K) (highQc highProp : Option D)
  | header (author : K) (height : ℕ) (payload : List (D × ℕ)) (parent : D) (sid : Option D)
      (rideShare : Option (ℕ × List D))
  | headerVerified (id : D) (signature : S)
  | confirmVerified (message qc : D)
  | commitVerified (message qc : D)
  | voteVerified (digest : D) (author : K) (signature : S)
  | consensusVoteVerified (digest : D) (author : K) (signature : S)
  | consensusRequestVerified (digest : D) (author : K) (signature : S)

/-- The hash, the check of one authority's signature on a digest, and the default digest. -/
structure Crypto (K D S : Type) where
  hash : Preimage K D S → D
  verifies : S → D → K → Bool
  zero : D

/-- No two inputs have one digest, and none has the default digest. -/
structure Crypto.CollisionFree {K D S : Type} (A : Crypto K D S) : Prop where
  injective : Function.Injective A.hash
  ne_zero : ∀ p, A.hash p ≠ A.zero

/-! ### A hash that numbers its inputs -/

section Numbering

open Encodable

/-- The number of a tagged form. -/
def Preimage.tag {K D S : Type} : Preimage K D S → Fin 16
  | tip .. => 0
  | poa .. => 1
  | qc .. => 2
  | cut .. => 3
  | prepare .. => 4
  | confirm .. => 5
  | commit .. => 6
  | carVote .. => 7
  | timeout .. => 8
  | header .. => 9
  | headerVerified .. => 10
  | confirmVerified .. => 11
  | commitVerified .. => 12
  | voteVerified .. => 13
  | consensusVoteVerified .. => 14
  | consensusRequestVerified .. => 15

variable {K S : Type} [Encodable K] [Encodable S]

/-- The number of the fields of a form.  Digests come first, to keep the numbers small. -/
def Preimage.body : Preimage K ℕ S → ℕ
  | tip d height evidence => encode ((d, evidence), height)
  | poa author height d votes => encode (d, author, height, votes)
  | qc id votes => encode (id, votes)
  | cut entries => encode entries
  | prepare slot view d => encode (d, slot, view)
  | confirm slot view id => encode (id, slot, view)
  | commit slot view id d => encode ((id, d), slot, view)
  | carVote author height d => encode (d, author, height)
  | timeout slot view author highQc highProp => encode ((highQc, highProp), slot, view, author)
  | header author height payload parent sid rideShare =>
    encode ((parent, rideShare), author, height, payload, sid)
  | headerVerified id s => encode (id, s)
  | confirmVerified m d => encode (m, d)
  | commitVerified m d => encode (m, d)
  | voteVerified d k s => encode (d, k, s)
  | consensusVoteVerified d k s => encode (d, k, s)
  | consensusRequestVerified d k s => encode (d, k, s)

theorem Preimage.eq_of_body {p q : Preimage K ℕ S} (htag : p.tag = q.tag)
    (hbody : p.body = q.body) : p = q := by
  cases p <;> cases q <;> simp only [tag, Fin.reduceEq] at htag
  all_goals
    simp only [body, encode_inj, Prod.mk.injEq] at hbody
    simp only [hbody]

/-- A hash that numbers its inputs from one, the tag in the last digit. -/
def Crypto.numbering (verifies : S → ℕ → K → Bool) : Crypto K ℕ S where
  hash p := 16 * p.body + p.tag + 1
  verifies := verifies
  zero := 0

theorem Crypto.numbering_collisionFree (verifies : S → ℕ → K → Bool) :
    (numbering verifies).CollisionFree where
  injective p q h := by
    have h : 16 * p.body + p.tag + 1 = 16 * q.body + q.tag + 1 := h
    exact Preimage.eq_of_body (Fin.ext (by omega)) (by omega)
  ne_zero _ := Nat.succ_ne_zero _

end Numbering

/-! ### Cars and cuts -/

/-- A proof of availability: votes for the car at a coordinate. -/
structure Certificate (K D S : Type) where
  author : K
  headerDigest : D
  height : ℕ
  votes : List (K × S)

/-- A lane tip, with the proof of its availability unless it is optimistic. -/
structure Proposal (K D S : Type) where
  headerDigest : D
  height : ℕ
  poa : Option (Certificate K D S)

/-- A proposal for every lane. -/
abbrev Cut (K D S : Type) : Type := Table K (Proposal K D S)

/-- Votes for the Prepare or Confirm of a digest. -/
structure QC (K D S : Type) where
  id : D
  votes : List (K × S)

/-- The messages of the three phases of a slot. -/
inductive ConsensusMessage (K D S : Type)
  | prepare (slot view : ℕ) (proposals : Cut K D S)
  | confirm (slot view : ℕ) (qc : QC K D S) (proposals : Cut K D S)
  | commit (slot view : ℕ) (qc : QC K D S) (proposals : Cut K D S)

/-- A complaint about a view, with the highest Confirm and Prepare that its author knows. -/
structure Timeout (K D S : Type) where
  slot : ℕ
  view : ℕ
  highQc : Option (ConsensusMessage K D S)
  highProp : Option (ConsensusMessage K D S)
  author : K
  signature : S

/-- The timeouts that end a view. -/
structure TC (K D S : Type) where
  slot : ℕ
  view : ℕ
  timeouts : List (Timeout K D S)

variable {K D S : Type} [LinearOrder K] (A : Crypto K D S) (c : Committee K)

/-- Votes in the order of their authors. -/
def sortVotes (votes : List (K × S)) : List (K × S) := votes.insertionSort fun v w => v.1 ≤ w.1

/-- What a vote for a car signs. -/
def carVoteDigest (author : K) (height : ℕ) (headerDigest : D) : D :=
  A.hash (.carVote author height headerDigest)

/-- Binds the exact set of votes, whatever their order. -/
def Certificate.evidenceDigest (p : Certificate K D S) : D :=
  A.hash (.poa p.author p.height p.headerDigest (sortVotes p.votes))

/-- Binds the coordinate and, if there is one, the evidence. -/
def Proposal.digest (p : Proposal K D S) : D :=
  A.hash (.tip p.headerDigest p.height (p.poa.map (Certificate.evidenceDigest A)))

/-- Binds the proposals of a cut in the order of the lanes. -/
def proposalsDigest (p : Cut K D S) : D :=
  A.hash (.cut ((Table.sortedKeys p).filterMap fun lane =>
    (p.lookup lane).map fun proposal => (lane, proposal.digest A)))

/-- What a Prepare vote signs. -/
def prepareDigest (slot view : ℕ) (p : Cut K D S) : D :=
  A.hash (.prepare slot view (proposalsDigest A p))

/-- What a Confirm vote signs. -/
def confirmDigest (slot view : ℕ) (prepareId : D) : D := A.hash (.confirm slot view prepareId)

/-- Binds the set of votes, whatever their order. -/
def QC.digest (q : QC K D S) : D := A.hash (.qc q.id (sortVotes q.votes))

/-- Binds slot, view and cut, and of a certificate at most its id. -/
def ConsensusMessage.digest : ConsensusMessage K D S → D
  | .prepare slot view p => prepareDigest A slot view p
  | .confirm slot view _ p => confirmDigest A slot view (prepareDigest A slot view p)
  | .commit slot view qc p => A.hash (.commit slot view qc.id (proposalsDigest A p))

/-- What a timeout signs. -/
def Timeout.digest (t : Timeout K D S) : D :=
  A.hash (.timeout t.slot t.view t.author (t.highQc.map (ConsensusMessage.digest A))
    (t.highProp.map (ConsensusMessage.digest A)))

/-- Equality of cuts as the code has it: one proposal digest for each lane. -/
def Cut.Same (p q : Cut K D S) : Prop :=
  ∀ lane, (p.lookup lane).map (Proposal.digest A) = (q.lookup lane).map (Proposal.digest A)

variable {A} in
theorem Cut.Same.proposalsDigest {p q : Cut K D S} (h : Cut.Same A p q) :
    proposalsDigest A p = proposalsDigest A q := by
  have hkeys : Table.sortedKeys p = Table.sortedKeys q := by
    refine Table.sortedKeys_eq ?_ fun lane => ?_
    · exact List.SortedLE.sortedLT_of_nodup List.sortedLE_insertionSort
        ((List.perm_insertionSort _ _).nodup_iff.mpr q.keys_nodup)
    · have hsome := congrArg Option.isSome (h lane)
      rw [Option.isSome_map, Option.isSome_map] at hsome
      rw [Table.mem_sortedKeys, ← AList.lookup_isSome, ← AList.lookup_isSome, hsome]
  have hentry : ∀ (r : Cut K D S) lane, ((r.lookup lane).map fun p => (lane, p.digest A)) =
      ((r.lookup lane).map (Proposal.digest A)).map (lane, ·) := fun r lane => by
    rw [Option.map_map]
    rfl
  unfold Autobahn.proposalsDigest
  simp only [hentry, hkeys, h _]

variable {A} in
theorem Cut.same_empty_iff {p : Cut K D S} : Cut.Same A ∅ p ↔ p = ∅ := by
  constructor
  · intro h
    have hkeys : p.keys = [] := List.eq_nil_iff_forall_not_mem.mpr fun lane hlane => by
      have hsome := AList.lookup_isSome.mpr (AList.mem_keys.mpr hlane)
      have hnone := congrArg Option.isSome (h lane)
      rw [Option.isSome_map, Option.isSome_map, hsome] at hnone
      cases hnone
    exact AList.ext (List.map_eq_nil_iff.mp hkeys)
  · rintro rfl lane
    rfl

/-! ### Checks -/

section Checks

variable [DecidableEq D]

/-- Accepted at a threshold; the default certificate always is. -/
def QC.verifyAt (threshold : ℕ) (q : QC K D S) : Bool :=
  decide (q.digest A = (QC.mk A.zero []).digest A) ||
    (c.admits threshold (q.votes.map Prod.fst) && q.votes.all fun v => A.verifies v.2 q.id v.1)

/-- Accepted as the certificate of a quorum. -/
def QC.verify (q : QC K D S) : Bool := q.verifyAt A c c.quorumThreshold

/-- On the fast path the Prepare votes of everyone, else a quorum of Confirm votes. -/
def verifyCommit : ConsensusMessage K D S → Bool
  | .commit slot view qc p =>
    if qc.id = prepareDigest A slot view p then qc.verifyAt A c c.fastThreshold
    else decide (confirmDigest A slot view (prepareDigest A slot view p) = qc.id) && qc.verify A c
  | _ => false

/-- A Confirm carries a quorum of Prepare votes for its cut. -/
def verifyConfirm : ConsensusMessage K D S → Bool
  | .confirm slot view qc p => decide (prepareDigest A slot view p = qc.id) && qc.verify A c
  | _ => false

/-- Signed by a member. -/
def Timeout.signed (t : Timeout K D S) : Bool :=
  decide (0 < c.stake t.author) && A.verifies t.signature (t.digest A) t.author

/-- The Prepare reported is of the slot and of no later view. -/
def Timeout.highPropOk (t : Timeout K D S) : Bool :=
  match t.highProp with
  | none => true
  | some (.prepare slot view _) => decide (slot = t.slot ∧ view ≤ t.view)
  | some _ => false

variable {m : Type → Type} [Monad m] (check : ConsensusMessage K D S → m Bool)

/-- The Confirm reported is of the slot and of no later view, and passes the caller's check. -/
def Timeout.highQcWith (t : Timeout K D S) : m Bool :=
  match t.highQc with
  | none => pure true
  | some (.confirm slot view qc p) =>
    if slot = t.slot ∧ view ≤ t.view then check (.confirm slot view qc p) else pure false
  | some _ => pure false

/-- The check of a timeout, that of an embedded Confirm supplied by the caller. -/
def Timeout.verifyWith (t : Timeout K D S) : m Bool :=
  if t.signed A c then (· && t.highPropOk) <$> t.highQcWith check else pure false

/-- A quorum of timeouts for one slot and view, each checked; the default one always passes. -/
def TC.verifyWith (tc : TC K D S) : m Bool :=
  if tc.slot = 0 ∧ tc.view = 0 ∧ tc.timeouts.length = 0 then pure true
  else if (∀ t ∈ tc.timeouts, t.slot = tc.slot ∧ t.view = tc.view) ∧
      c.admits c.quorumThreshold (tc.timeouts.map Timeout.author) = true then
    tc.timeouts.allM (Timeout.verifyWith A c check)
  else pure false

/-- The check of a timeout without a cache. -/
def Timeout.verify (t : Timeout K D S) : Bool :=
  t.verifyWith (m := Id) A c fun msg => pure (verifyConfirm A c msg)

/-- The check of a timeout certificate without a cache. -/
def TC.verify (tc : TC K D S) : Bool :=
  tc.verifyWith (m := Id) A c fun msg => pure (verifyConfirm A c msg)

end Checks

/-! ### What the digests bind -/

section Binding

variable {A} (hA : A.CollisionFree)
include hA

theorem prepareDigest_inj {slot view slot' view' : ℕ} {p q : Cut K D S}
    (h : prepareDigest A slot view p = prepareDigest A slot' view' q) :
    slot = slot' ∧ view = view' ∧ proposalsDigest A p = proposalsDigest A q := by
  simpa [prepareDigest] using hA.injective h

omit [LinearOrder K] in
theorem confirmDigest_inj {slot view slot' view' : ℕ} {d d' : D}
    (h : confirmDigest A slot view d = confirmDigest A slot' view' d') :
    slot = slot' ∧ view = view' ∧ d = d' := by
  simpa [confirmDigest] using hA.injective h

theorem Cut.same_of_proposalsDigest {p q : Cut K D S}
    (h : proposalsDigest A p = proposalsDigest A q) : Cut.Same A p q := by
  have hlist := Preimage.cut.inj (hA.injective h)
  intro lane
  ext d
  rw [← Table.mem_sorted_entries, ← Table.mem_sorted_entries, hlist]

variable [DecidableEq D]

theorem QC.votes_of_verifyAt {threshold : ℕ} {q : QC K D S} (h : q.verifyAt A c threshold = true)
    (hid : q.id ≠ A.zero) : c.admits threshold (q.votes.map Prod.fst) = true ∧
      ∀ v ∈ q.votes, A.verifies v.2 q.id v.1 = true := by
  simp only [verifyAt, Bool.or_eq_true, decide_eq_true_eq, Bool.and_eq_true, List.all_eq_true] at h
  exact h.resolve_left fun hg => hid (Preimage.qc.inj (hA.injective hg)).1

end Binding

end Vantage.Autobahn
