import Vantage.Agb.Types
import Vantage.Lib.Table
import Vantage.Lib.Handler

/-!
# Messages and state of the target-local resolver

Every unresolved view owns an independent agreement instance that runs through numbered
resolver views.

* `DirectResolutionWish` … `DirectResolutionDone`: the messages;
* `DirectViewState`, `DirectInstance`: one resolver view and one instance.

The parts on which agreement rests are kept in `Ballot` and `Progress`, which the view state
and the instance extend.
-/

namespace Vantage

/-- What one resolver knows besides its `Config`: the first eight bytes of the schedule hash
of a target, and the serialization by which candidates are ordered. -/
structure ResolverConfig (K D : Type) extends Config K where
  scheduleSeed : ℕ → UInt64
  serialize : Manifest K D → Manifest K D → List ℕ

/-- The timers of an instance. -/
inductive DirectResolutionTimerKind
  | entry
  | proposal
  | view
  | primaryDown
  deriving DecidableEq

/-- A wish to enter a resolver view. -/
structure DirectResolutionWish (K : Type) where
  target : ℕ
  view : ℕ
  sender : K
  deriving DecidableEq

/-- A positive suggestion carries the value it names. -/
structure DirectResolutionSuggest (K D : Type) where
  target : ℕ
  view : ℕ
  sender : K
  key3View : ℕ
  key3Value : D
  key2View : ℕ
  key2Value : D
  prevKey2 : ℕ
  entry : Option (ResolutionEntry K D)
  deriving DecidableEq

/-- The own key for a view, to everyone. -/
structure DirectResolutionProof (K D : Type) where
  target : ℕ
  view : ℕ
  sender : K
  key1View : ℕ
  key1Value : D
  prevKey1 : ℕ
  deriving DecidableEq

/-- The value is attached, so a relay never depends on its proposer. -/
structure DirectResolutionWitness (K D : Type) where
  target : ℕ
  view : ℕ
  value : D
  entry : ResolutionEntry K D
  sender : K
  deriving DecidableEq

/-- The value that the leader of a view proposes. -/
structure DirectResolutionProposal (K D : Type) where
  target : ℕ
  view : ℕ
  keyView : ℕ
  value : D
  entry : ResolutionEntry K D
  sender : K
  deriving DecidableEq

/-- The phases of a resolver view. -/
inductive DirectResolutionPhase
  | echo
  | key1
  | key2
  | key3
  | lock
  deriving DecidableEq

/-- A phase statement. An ECHO binds the proposal key, `some 0` if fresh; only a fresh
non-skip ECHO carries an origin bit. -/
structure DirectResolutionStatement (K D : Type) where
  target : ℕ
  view : ℕ
  value : D
  phase : DirectResolutionPhase
  proposalKeyView : Option ℕ
  origin : Option ℕ
  sender : K
  deriving DecidableEq

/-- A value that its sender takes as decided. -/
structure DirectResolutionDone (K D : Type) where
  target : ℕ
  value : D
  entry : ResolutionEntry K D
  sender : K
  deriving DecidableEq

/-- A request for the entry of a value. -/
structure DirectResolutionValueFetch (K D : Type) where
  target : ℕ
  value : D
  requester : K
  deriving DecidableEq

/-- The entry of a value that was asked for. -/
structure DirectResolutionValueServe (K D : Type) where
  target : ℕ
  value : D
  entry : ResolutionEntry K D
  deriving DecidableEq

/-- The caller's answer to an external-validity request. -/
inductive DirectResolutionVote
  | reject (permanent : Bool)
  | accept (origin : Option ℕ)

/-- The effects of a resolver. A timer carries its delay from the instant at which it is
armed; `abort` stands for a failed expectation. -/
inductive DirectResolutionEffect (K D : Type)
  | broadcastWish (m : DirectResolutionWish K)
  | wishTo (q : K) (m : DirectResolutionWish K)
  | suggestTo (q : K) (m : DirectResolutionSuggest K D)
  | broadcastProof (m : DirectResolutionProof K D)
  | proofTo (q : K) (m : DirectResolutionProof K D)
  | broadcastWitness (m : DirectResolutionWitness K D)
  | witnessTo (q : K) (m : DirectResolutionWitness K D)
  | broadcastProposal (m : DirectResolutionProposal K D)
  | proposalTo (q : K) (m : DirectResolutionProposal K D)
  | broadcastStatement (m : DirectResolutionStatement K D)
  | statementTo (q : K) (m : DirectResolutionStatement K D)
  | broadcastDone (m : DirectResolutionDone K D)
  | doneTo (q : K) (m : DirectResolutionDone K D)
  | valueFetchTo (q : K) (m : DirectResolutionValueFetch K D)
  | valueServeTo (q : K) (m : DirectResolutionValueServe K D)
  | armTimer (target view : ℕ) (kind : DirectResolutionTimerKind) (delay : ℕ)
  | validateVote (target view : ℕ) (value : D) (entry : ResolutionEntry K D) (fresh : Bool)
  | decide (entry : ResolutionEntry K D)
  | abort
  deriving DecidableEq

/-- A counted statement. -/
structure StatementRecord (D : Type) where
  value : D
  proposalKeyView : Option ℕ
  origin : Option ℕ
  deriving DecidableEq

/-- The external-validity check of the proposal of a resolver view. -/
inductive VoteStatus
  | unknown
  | requested
  | rejected
  | rejectedPermanently
  | accepted
  deriving DecidableEq

/-- The kinds of own sends that are replayed to a late party. -/
inductive DirectReplayKind
  | suggest
  | proof
  | proposal
  | statement (phase : DirectResolutionPhase)
  | witness
  deriving DecidableEq

/-- The proposal, the votes and the proofs of one resolver view. -/
structure Ballot (K D : Type) where
  proofs : Table K (DirectResolutionProof K D) := ∅
  proposal : Option (DirectResolutionProposal K D) := none
  backingSent : Option D := none
  backingWitnesses : Table K D := ∅
  voteStatus : VoteStatus := .unknown
  voteOrigin : Option ℕ := none
  sent : DirectResolutionPhase → Option D := fun _ => none
  statements : DirectResolutionPhase → Table K (StatementRecord D) := fun _ => ∅

/-- The state of one resolver view. -/
structure DirectViewState (K D : Type) extends Ballot K D where
  suggestions : Table K (DirectResolutionSuggest K D) := ∅
  replayedTo : Finset (DirectReplayKind × K) := ∅

/-- The views, the first key, the lock and the DONEs of an instance. -/
structure Progress (K D : Type) [Inhabited D] where
  enteredThrough : ℕ := 0
  currentView : ℕ := 0
  key1View : ℕ := 0
  key1Value : D := default
  prevKey1 : ℕ := 0
  lockView : ℕ := 0
  lockValue : D := default
  doneSent : Option D := none
  done : Table K D := ∅

/-- One agreement instance. `nextCandidate` stores a value rather than a position, so a
canonical insertion cannot skip an existing candidate. -/
structure DirectInstance (K D : Type) [Inhabited D] extends Progress K D where
  ownWish : ℕ := 0
  wishReplayedThrough : Table K ℕ := ∅
  wishes : Table K ℕ := ∅
  views : Table ℕ (DirectViewState K D) := ∅
  candidates : List (ResolutionEntry K D) := []
  nextCandidate : Option (ResolutionEntry K D) := none
  key2View : ℕ := 0
  key2Value : D := default
  prevKey2 : ℕ := 0
  key3View : ℕ := 0
  key3Value : D := default

def valueDigest {K D : Type} (S : Session K D) (entry : ResolutionEntry K D) : D :=
  S.hash.domainHash .resolutionValue S.sid (.entry entry)

def validEntry {K D : Type} [LinearOrder K] [DecidableEq D] (committee : Committee K)
    (target : ℕ) (entry : ResolutionEntry K D) : Bool :=
  decide (entry.targetView = target) && formedResolutionEntry committee entry

def KnownValue {K D : Type} [LinearOrder K] [DecidableEq D] (S : Session K D)
    (committee : Committee K) (target : ℕ) (d : D) : Type :=
  { e : ResolutionEntry K D // valueDigest S e = d ∧ validEntry committee target e = true }

/-- Everything the resolver keeps for one target. -/
structure TargetState {K D : Type} [LinearOrder K] [LinearOrder D] [Inhabited D]
    (S : Session K D) (committee : Committee K) (target : ℕ) where
  inst : Option (DirectInstance K D) := none
  values : AList (fun d : D => KnownValue S committee target d) := ∅
  decision : Option (D × ResolutionEntry K D) := none
  fullBarred : Bool := false
  doneReplayedTo : Finset K := ∅
  passiveWishes : Table K ℕ := ∅
  pendingFetch : Finset D := ∅
  fetchRequested : Finset (D × K) := ∅
  fetchAnswered : Finset (D × K) := ∅

theorem valueDigest_injective {K D : Type} {S : Session K D} (hS : S.hash.CollisionFree)
    {e e' : ResolutionEntry K D} (h : valueDigest S e = valueDigest S e') : e = e' :=
  Preimage.entry.inj (hS _ _ _ _ _ h).2

/-! ### The primary schedule -/

def splitmix (state : UInt64) : UInt64 :=
  let z := (state ^^^ (state >>> 30)) * 0xBF58476D1CE4E5B9
  let z := (z ^^^ (z >>> 27)) * 0x94D049BB133111EB
  z ^^^ (z >>> 31)

def swapAt {α : Type} (l : List α) (i j : ℕ) : List α :=
  match l[i]?, l[j]? with
  | some x, some y => (l.set i y).set j x
  | _, _ => l

/-- Fisher–Yates from position `i` down to position 1. -/
def shuffle {α : Type} : ℕ → UInt64 → List α → List α
  | 0, _, l => l
  | i + 1, state, l =>
    let state := state + 0x9E3779B97F4A7C15
    let j := (splitmix state).toNat % (i + 2)
    shuffle i state (swapAt l (i + 1) j)

/-- A pseudorandom permutation of the committee with the proposer of the target at its end. -/
def resolverSchedule {K : Type} [LinearOrder K] (committee : Committee K) (seed : UInt64)
    (target : ℕ) : List K :=
  let order := shuffle (committee.size - 1) seed committee.sorted
  let proposer := committee.oneBased target
  if proposer ∈ order then order.erase proposer ++ [proposer] else order

theorem length_swapAt {α : Type} (l : List α) (i j : ℕ) : (swapAt l i j).length = l.length := by
  unfold swapAt
  split
  · rw [List.length_set, List.length_set]
  · rfl

theorem length_shuffle {α : Type} (i : ℕ) (state : UInt64) (l : List α) :
    (shuffle i state l).length = l.length := by
  induction i generalizing state l with
  | zero => rfl
  | succ i ih => rw [shuffle, ih, length_swapAt]

theorem length_resolverSchedule {K : Type} [LinearOrder K] (committee : Committee K)
    (seed : UInt64) (target : ℕ) :
    (resolverSchedule committee seed target).length = committee.size := by
  have hs : (shuffle (committee.size - 1) seed committee.sorted).length = committee.size := by
    rw [length_shuffle, committee.sorted_length]
  have hpos := committee.size_pos
  unfold resolverSchedule
  dsimp only
  split
  · next h =>
    rw [List.length_append, List.length_erase_of_mem h, List.length_singleton]
    omega
  · exact hs

def resolutionLeader {K D : Type} [LinearOrder K] (cfg : ResolverConfig K D)
    (target view : ℕ) : K :=
  let schedule := resolverSchedule cfg.committee (cfg.scheduleSeed target) target
  schedule.get ⟨(view - 1) % schedule.length, by
    refine Nat.mod_lt _ ?_
    rw [length_resolverSchedule]
    exact cfg.committee.size_pos⟩

end Vantage
