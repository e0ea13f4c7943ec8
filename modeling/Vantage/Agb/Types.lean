import Vantage.Basic

/-!
# Direct-AGB wire types

Proposals, echo and ready statements, outcomes, and the well-formedness checks a proposal
passes before it can fix a view.

* `Echo`, `EchoDigest`, `EchoBatch`, `Ready`, `ReadyDigest`, `ReadyBatch`: the statements.
-/

namespace Vantage

/-- A resolution entry targets an earlier open view. Full and core entries carry both
manifests, skip entries carry neither. -/
inductive ResolutionEntry (K D : Type)
  | full (view : ℕ) (c t : Manifest K D)
  | core (view : ℕ) (c t : Manifest K D)
  | skip (view : ℕ)
  deriving DecidableEq

namespace ResolutionEntry

variable {K D : Type}

instance lawful [LinearOrder K] [LinearOrder D] : LawfulBEq (ResolutionEntry K D) := inferInstance

def targetView : ResolutionEntry K D → ℕ
  | full u _ _ => u
  | core u _ _ => u
  | skip u => u

def references : ResolutionEntry K D → List (BlockRef K D)
  | full _ c t => c ++ t
  | core _ c t => c ++ t
  | skip _ => []

def isNonSkip : ResolutionEntry K D → Bool
  | full .. => true
  | core .. => true
  | skip _ => false

end ResolutionEntry

/-- The proposal of a view: a core and a tail, and an entry for an earlier view. -/
structure ViewProposal (K D : Type) where
  view : ℕ
  c : Manifest K D
  t : Manifest K D
  m : Option (ResolutionEntry K D)
  deriving DecidableEq

/-- A proposal with several skip entries in strictly increasing target order. -/
structure BatchViewProposal (K D : Type) where
  view : ℕ
  c : Manifest K D
  t : Manifest K D
  m : List (ResolutionEntry K D)
  deriving DecidableEq

/-- A proposal by itself or in a batch. -/
inductive ProposalOut (K D : Type)
  | single (p : ViewProposal K D)
  | batch (p : BatchViewProposal K D)
  deriving DecidableEq

/-- The values whose serialization is hashed by the agreement layer. -/
inductive Preimage (K D : Type)
  | proposal (p : ViewProposal K D)
  | batchProposal (p : BatchViewProposal K D)
  | entry (e : ResolutionEntry K D)

/-- A session: its identifier and the hash function every party uses. -/
structure Session (K D : Type) where
  sid : D
  hash : DomainHash D (Preimage K D)

/-- What one party of a session knows from the start: its name, the committee and the
message-delay bound. -/
structure Config (K : Type) where
  name : K
  committee : Committee K
  delta : ℕ

namespace ProposalOut

variable {K D : Type}

def view : ProposalOut K D → ℕ
  | single p => p.view
  | batch p => p.view

def c : ProposalOut K D → Manifest K D
  | single p => p.c
  | batch p => p.c

def t : ProposalOut K D → Manifest K D
  | single p => p.t
  | batch p => p.t

/-- The resolution entries, in increasing target order. -/
def entries : ProposalOut K D → List (ResolutionEntry K D)
  | single p => p.m.toList
  | batch p => p.m

/-- The proposal digest; the two kinds are hashed under different tags. -/
def digest (S : Session K D) : ProposalOut K D → D
  | single p => S.hash.domainHash .viewProposal S.sid (.proposal p)
  | batch p => S.hash.domainHash .viewProposalBatch S.sid (.batchProposal p)

theorem digest_injective {S : Session K D} (hS : S.hash.CollisionFree) {p q : ProposalOut K D}
    (h : p.digest S = q.digest S) : p = q := by
  cases p <;> cases q <;> have := hS _ _ _ _ _ h <;> simp_all

end ProposalOut

/-- A proposal of a view with its digest. -/
structure Body {K D : Type} (S : Session K D) (view : ℕ) where
  proposal : ProposalOut K D
  digest : D
  digest_eq : digest = proposal.digest S
  view_eq : proposal.view = view

namespace Body

variable {K D : Type} {S : Session K D} {view : ℕ}

def of (S : Session K D) (p : ProposalOut K D) (h : p.view = view) : Body S view :=
  ⟨p, p.digest S, rfl, h⟩

theorem ext_proposal {b b' : Body S view} (h : b.proposal = b'.proposal) : b = b' := by
  cases b with | mk p d hd hv => cases b' with | mk p' d' hd' hv' => simp_all

theorem ext_digest (hS : S.hash.CollisionFree) {b b' : Body S view}
    (h : b.digest = b'.digest) : b = b' := by
  refine ext_proposal (ProposalOut.digest_injective hS ?_)
  rw [← b.digest_eq, ← b'.digest_eq, h]

end Body

/-! ### Well-formedness -/

section Formed

variable {K D : Type} [LinearOrder K] [DecidableEq D]

/-- Heights are positive, authors are staked and increase strictly after `last`. -/
def strictlySortedAndStakedFrom (committee : Committee K) (last : Option K) :
    Manifest K D → Bool
  | [] => true
  | r :: rest =>
    decide (1 ≤ r.height) && decide (committee.stake r.author ≠ 0) &&
      (last.all fun prev => decide (prev < r.author)) &&
      strictlySortedAndStakedFrom committee (some r.author) rest

/-- Manifest entries have positive heights and staked, strictly increasing authors. -/
def strictlySortedAndStaked (committee : Committee K) (m : Manifest K D) : Bool :=
  strictlySortedAndStakedFrom committee none m

/-- No hash occurs twice in the two manifests together. -/
def distinctHashes (m₁ m₂ : Manifest K D) : Bool :=
  decide ((m₁ ++ m₂).map BlockRef.digest).Nodup

/-- The checks shared by both kinds of proposal and by resolver values. -/
def formedManifests (committee : Committee K) (c t : Manifest K D) : Bool :=
  strictlySortedAndStaked committee c && strictlySortedAndStaked committee t &&
    distinctHashes c t

/-- A standalone resolver value, without a carrier-view delay. -/
def formedResolutionEntry (committee : Committee K) (entry : ResolutionEntry K D) : Bool :=
  decide (1 ≤ entry.targetView) &&
    match entry with
    | .full _ c t => formedManifests committee c t
    | .core _ c t => formedManifests committee c t
    | .skip _ => true

/-- An entry carried by a proposal of `view` targets a view at least three below it. -/
def formedEntry (committee : Committee K) (view : ℕ) (entry : ResolutionEntry K D) : Bool :=
  decide (1 ≤ entry.targetView) && decide (entry.targetView ≤ view - 3) &&
    formedResolutionEntry committee entry

def formed (committee : Committee K) (view : ℕ) (c t : Manifest K D)
    (m : Option (ResolutionEntry K D)) : Bool :=
  formedManifests committee c t && m.all (formedEntry committee view)

/-- The largest number of entries in a batch, `max 1 f`. -/
def batchCap (committee : Committee K) : ℕ :=
  max ((Thresholds.fromPartyCount committee.size).fPlus1Parties - 1) 1

/-- Skip entries whose targets increase strictly after `prev`. -/
def formedBatchFrom (committee : Committee K) (view : ℕ) (prev : Option ℕ) :
    List (ResolutionEntry K D) → Bool
  | [] => true
  | entry :: rest =>
    !entry.isNonSkip && formedEntry committee view entry &&
      (prev.all fun p => decide (p < entry.targetView)) &&
      formedBatchFrom committee view (some entry.targetView) rest

/-- A batch proposal carries between two and `batchCap` skip entries. -/
def formedBatch (committee : Committee K) (view : ℕ) (c t : Manifest K D)
    (m : List (ResolutionEntry K D)) : Bool :=
  formedManifests committee c t && decide (2 ≤ m.length) &&
    decide (m.length ≤ batchCap committee) && formedBatchFrom committee view none m

def ProposalOut.formed (committee : Committee K) : ProposalOut K D → Bool
  | .single p => Vantage.formed committee p.view p.c p.t p.m
  | .batch p => formedBatch committee p.view p.c p.t p.m

end Formed

/-! ### Availability claims -/

/-- A claim by lane and distance from the anchor. -/
structure ShortClaim where
  lane : ℕ
  delta : ℕ
  deriving DecidableEq

/-- What a claim refers to. -/
inductive ClaimRef (K D : Type)
  | exact (r : BlockRef K D)
  | ancestor (anchor : BlockRef K D) (delta : ℕ)
  deriving DecidableEq

def ClaimRef.anchor {K D : Type} : ClaimRef K D → BlockRef K D
  | .exact r => r
  | .ancestor a _ => a

/-- Positional availability claims over a proposal's references. -/
structure AvailClaim where
  atTip : List (BitVec 64)
  short : List ShortClaim
  deriving DecidableEq

namespace AvailClaim

variable {K D : Type}

def isAtTip (a : AvailClaim) (lane : ℕ) : Bool :=
  (a.atTip[lane / 64]?).any fun word => word.getLsbD (lane % 64)

/-- The short claims that survive the position, exclusivity and range checks. -/
def shortStatements (a : AvailClaim) (refs : List (BlockRef K D)) (seen : List ℕ) :
    List ShortClaim → List (ClaimRef K D)
  | [] => []
  | s :: rest =>
    match refs[s.lane]? with
    | none => shortStatements a refs seen rest
    | some r =>
      if a.isAtTip s.lane then shortStatements a refs seen rest
      else if s.lane ∈ seen then shortStatements a refs seen rest
      else if s.delta = 0 ∨ r.height ≤ s.delta then
        shortStatements a refs (s.lane :: seen) rest
      else .ancestor r s.delta :: shortStatements a refs (s.lane :: seen) rest

/-- The claims that are in range, neither duplicate nor contradictory. -/
def statements (a : AvailClaim) (refs : List (BlockRef K D)) : List (ClaimRef K D) :=
  if a.atTip.length ≠ (refs.length + 63) / 64 ∨ refs.length < a.short.length then []
  else if refs.length % 64 ≠ 0 ∧
      (a.atTip.getLast?.any fun last =>
        (last &&& (BitVec.allOnes 64 <<< (refs.length % 64))) != 0) then []
  else
    (refs.zipIdx.filterMap fun p => if a.isAtTip p.2 then some (.exact p.1) else none) ++
      a.shortStatements refs [] a.short

end AvailClaim

/-- The references of a proposal in the fixed order `C`, `T`, then recovery manifests. -/
def manifestRefs {K D : Type} (p : ViewProposal K D) : List (BlockRef K D) :=
  p.c ++ p.t ++ (p.m.toList.flatMap ResolutionEntry.references)

def batchManifestRefs {K D : Type} (p : BatchViewProposal K D) : List (BlockRef K D) :=
  p.c ++ p.t

/-! ### Statements -/

/-- An echo by value. The wire grade is 0 or 1. -/
structure Echo (K D : Type) where
  proposal : ViewProposal K D
  grade : ℕ
  sender : K
  origin : Option ℕ
  avail : Option AvailClaim
  deriving DecidableEq

/-- An echo that names its proposal by digest. -/
structure EchoDigest (K D : Type) where
  view : ℕ
  digest : D
  grade : ℕ
  sender : K
  origin : Option ℕ
  avail : Option AvailClaim
  deriving DecidableEq

/-- An echo of a batch. -/
structure EchoBatch (K D : Type) where
  proposal : BatchViewProposal K D
  grade : ℕ
  sender : K
  avail : Option AvailClaim
  deriving DecidableEq

/-- An echo by itself or of a batch. -/
inductive EchoOut (K D : Type)
  | single (e : Echo K D)
  | batch (e : EchoBatch K D)
  deriving DecidableEq

namespace EchoOut

variable {K D : Type}

def grade : EchoOut K D → ℕ
  | single e => e.grade
  | batch e => e.grade

def sender : EchoOut K D → K
  | single e => e.sender
  | batch e => e.sender

/-- One origin bit per resolution entry of a single proposal; none for a batch. -/
def originVec : EchoOut K D → List (Option ℕ)
  | single e => if e.proposal.m.isSome then [e.origin] else []
  | batch _ => []

def proposalOut : EchoOut K D → ProposalOut K D
  | single e => .single e.proposal
  | batch e => .batch e.proposal

end EchoOut

/-- `one` requires a quorum of grade-1 echoes and `zero` a quorum of grade-0 echoes; all
other quorum combinations are `mix`. -/
inductive ReadyGrade
  | zero
  | one
  | mix
  deriving DecidableEq

/-- A READY with its proposal. -/
structure Ready (K D : Type) where
  proposal : ViewProposal K D
  grade : ReadyGrade
  sender : K
  deriving DecidableEq

/-- A READY that names its proposal by digest. -/
structure ReadyDigest (K D : Type) where
  view : ℕ
  digest : D
  grade : ReadyGrade
  sender : K
  deriving DecidableEq

/-- A READY of a batch. -/
structure ReadyBatch (K D : Type) where
  proposal : BatchViewProposal K D
  grade : ReadyGrade
  sender : K
  deriving DecidableEq

/-- A READY by itself or of a batch. -/
inductive ReadyOut (K D : Type)
  | single (r : Ready K D)
  | batch (r : ReadyBatch K D)
  deriving DecidableEq

namespace ReadyOut

variable {K D : Type}

def grade : ReadyOut K D → ReadyGrade
  | single r => r.grade
  | batch r => r.grade

def sender : ReadyOut K D → K
  | single r => r.sender
  | batch r => r.sender

def proposalOut : ReadyOut K D → ProposalOut K D
  | single r => .single r.proposal
  | batch r => .batch r.proposal

end ReadyOut

/-- The terminal result of a view. -/
inductive Outcome (K D : Type)
  | full (c t : Manifest K D)
  | core (c : Manifest K D)
  | skip
  deriving DecidableEq

def ResolutionEntry.outcome {K D : Type} : ResolutionEntry K D → Outcome K D
  | .full _ c t => .full c t
  | .core _ c _ => .core c
  | .skip _ => .skip

/-- The timers of a view. -/
inductive TimerKind
  | echoFallback
  | echoAbsolute
  | readyAbsolute
  deriving DecidableEq

/-- How a view can be sealed. -/
inductive Route
  | directFull
  | directCore
  | fastFull
  | voteSkip
  | resolverFull
  | resolverCore
  | resolverSkip
  deriving DecidableEq

/-- The effects of the agreement engine. `authorize` stands for the call that hands a lane
reference to the repairer; `sealed` also names its route. -/
inductive Effect (K D : Type)
  | broadcastEcho (e : EchoOut K D)
  | broadcastEchoSkip (view : ℕ)
  | quarantineTips (t : Manifest K D)
  | broadcastReady (r : ReadyOut K D)
  | broadcastNoReady (view : ℕ)
  | broadcastSkipVote (view : ℕ)
  | fixed (view : ℕ) (formed : Bool)
  | completed (view : ℕ) (c t : Manifest K D)
  | sealed (view : ℕ) (outcome : Outcome K D) (route : Route)
  | armTimer (view : ℕ) (kind : TimerKind) (deadline : ℕ)
  | raiseWish (view : ℕ)
  | bodyFetchTo (peer : K) (view : ℕ) (digest : D)
  | bodyServeTo (peer : K) (view : ℕ) (proposal : ViewProposal K D)
  | availClaimed (sender : K) (claims : List (ClaimRef K D))
  | authorize (r : BlockRef K D)
  deriving DecidableEq

end Vantage
