import Vantage.Agb.Digest
import Vantage.Resolver.History

/-!
# A node and a deployment of nodes

A node joins the AGB engine, the buffers of digest-named statements and the resolver.

The effects a node executes on itself, a `validateVote` request and a decision, are inputs that
may come at any later time.
-/

namespace Vantage

/-- The parties of one session and what each of them knows from the start. -/
structure Deployment (K D : Type) where
  session : Session K D
  committee : Committee K
  delta : K → ℕ
  scheduleSeed : ℕ → UInt64
  serialize : Manifest K D → Manifest K D → List ℕ

def Deployment.cfg {K D : Type} (d : Deployment K D) (p : K) : ResolverConfig K D where
  name := p
  committee := d.committee
  delta := d.delta p
  scheduleSeed := d.scheduleSeed
  serialize := d.serialize

/-- What can happen to a node. -/
inductive NodeInput (K D : Type)
  | enter (view now : ℕ)
  | activate (view : ℕ)
  | propose (sender : K) (p : ProposalOut K D) (now : ℕ)
  | recheckAll
  | agbTimer (view : ℕ) (kind : TimerKind)
  | refuseUnproposedView (view : ℕ)
  | echo (m : EchoOut K D)
  | echoSkip (view : ℕ) (sender : K)
  | ready (m : ReadyOut K D)
  | noready (view : ℕ) (sender : K)
  | skipVote (view : ℕ) (sender : K)
  | echoDigest (m : EchoDigest K D) (now : ℕ)
  | readyDigest (m : ReadyDigest K D) (now : ℕ)
  | localFixed (view : ℕ)
  | bodyFetch (requester : K) (view : ℕ) (digest : D)
  | unanswerFetch (requester : K) (view : ℕ)
  | bodyServe (view : ℕ) (p : ViewProposal K D)
  | retryFetches (now : ℕ)
  | updateCandidates (target : ℕ) (candidates : List (ResolutionEntry K D))
  | barFullSelection (target : ℕ)
  | activateWithLocalTerminal (target : ℕ)
  | wish (m : DirectResolutionWish K)
  | resolverTimer (target view : ℕ) (kind : DirectResolutionTimerKind)
  | suggest (m : DirectResolutionSuggest K D)
  | proof (m : DirectResolutionProof K D)
  | witness (m : DirectResolutionWitness K D)
  | proposal (m : DirectResolutionProposal K D)
  | statement (m : DirectResolutionStatement K D)
  | done (m : DirectResolutionDone K D)
  | valueFetch (m : DirectResolutionValueFetch K D)
  | valueServe (m : DirectResolutionValueServe K D)
  | retryExternalValidity
  | admitTargetsThrough (through : ℕ)
  | validateVote (target view : ℕ) (value : D) (entry : ResolutionEntry K D) (fresh : Bool)
  | decide (entry : ResolutionEntry K D)
  | gcBelow (floor : ℕ)

variable {K D : Type} [LinearOrder K] [LinearOrder D] [Inhabited D]

/-- The state of one party: its components, what they have emitted, and the resolver votes
that were accepted, each with its freshness and its origin bit. -/
structure Node (d : Deployment K D) (p : K) where
  agb : AgbEngine d.session := {}
  digests : DigestStatements d.session := {}
  resolver : DirectResolver d.session (d.cfg p) := {}
  out : List (Effect K D) := []
  resolverOut : List (DirectResolutionEffect K D) := []
  accepted : List (ResolutionEntry K D × Bool × Option ℕ) := []

/-- The answer to the resolver for a verdict of the AGB engine. -/
def DirectVoteDecision.vote : DirectVoteDecision → DirectResolutionVote
  | .accept origin => .accept origin
  | .notYet => .reject false
  | .never => .reject true

namespace Node

variable {d : Deployment K D} {p : K}

def runAgb (h : Handler (AgbEngine d.session) (Effect K D)) (n : Node d p) : Node d p :=
  { n with agb := (h n.agb).1, out := n.out ++ (h n.agb).2 }

def runDigests
    (h : Handler (DigestStatements d.session × AgbEngine d.session) (Effect K D))
    (n : Node d p) : Node d p :=
  { n with
    digests := (h (n.digests, n.agb)).1.1
    agb := (h (n.digests, n.agb)).1.2
    out := n.out ++ (h (n.digests, n.agb)).2 }

def runResolver (h : Handler (DirectResolver d.session (d.cfg p)) (DirectResolutionEffect K D))
    (n : Node d p) : Node d p :=
  { n with
    resolver := (h n.resolver).1
    resolverOut := n.resolverOut ++ (h n.resolver).2 }

def validate (lm : Lanes K D) (entry : ResolutionEntry K D) (fresh : Bool) (n : Node d p) :
    DirectVoteDecision × Node d p :=
  let r := n.agb.tryDirectResolutionVote (d.cfg p).toConfig lm entry fresh
  (r.1,
    { n with
      agb := r.2
      accepted :=
        match r.1 with
        | .accept origin => n.accepted ++ [(entry, fresh, origin)]
        | _ => n.accepted })

@[simp] theorem validate_out (lm : Lanes K D) (entry : ResolutionEntry K D) (fresh : Bool)
    (n : Node d p) : (n.validate lm entry fresh).2.out = n.out := rfl

@[simp] theorem validate_resolver (lm : Lanes K D) (entry : ResolutionEntry K D) (fresh : Bool)
    (n : Node d p) : (n.validate lm entry fresh).2.resolver = n.resolver := rfl

@[simp] theorem validate_resolverOut (lm : Lanes K D) (entry : ResolutionEntry K D) (fresh : Bool)
    (n : Node d p) : (n.validate lm entry fresh).2.resolverOut = n.resolverOut := rfl

/-- What a node does with an input. `lm` are the answers of the lane manager at this moment, and
`fuel` bounds the loops of the resolver. -/
def handle (lm : Lanes K D) (fuel : ℕ) (input : NodeInput K D) (n : Node d p) : Node d p :=
  let cfg := (d.cfg p).toConfig
  match input with
  | .enter view now => n.runAgb (AgbEngine.enter cfg lm view now)
  | .activate view => n.runAgb (AgbEngine.activate cfg lm view)
  | .propose sender (.single q) now => n.runAgb (AgbEngine.onPropose cfg lm sender q now)
  | .propose sender (.batch q) now => n.runAgb (AgbEngine.onProposeBatch cfg lm sender q now)
  | .recheckAll => n.runAgb (AgbEngine.recheckAll cfg lm)
  | .agbTimer view .echoFallback => n.runAgb (AgbEngine.onEchoFallbackTimer cfg lm view)
  | .agbTimer view .echoAbsolute => n.runAgb (AgbEngine.onEchoAbsoluteTimer cfg view)
  | .agbTimer view .readyAbsolute => n.runAgb (AgbEngine.onReadyTimer cfg view)
  | .refuseUnproposedView view => n.runAgb (AgbEngine.refuseUnproposedView cfg view)
  | .echo (.single m) => n.runAgb (AgbEngine.onEcho cfg m)
  | .echo (.batch m) => n.runAgb (AgbEngine.onEchoBatch cfg m)
  | .echoSkip view sender => n.runAgb (AgbEngine.onEchoSkip cfg view sender)
  | .ready (.single m) => n.runAgb (AgbEngine.onReady cfg m)
  | .ready (.batch m) => n.runAgb (AgbEngine.onReadyBatch cfg m)
  | .noready view sender => n.runAgb (AgbEngine.onNoready cfg view sender)
  | .skipVote view sender => n.runAgb (AgbEngine.onSkipVote cfg view sender)
  | .echoDigest m now => n.runDigests (DigestStatements.onEchoDigest cfg m now)
  | .readyDigest m now => n.runDigests (DigestStatements.onReadyDigest cfg m now)
  | .localFixed view => n.runDigests (DigestStatements.onLocalFixed cfg view)
  | .bodyFetch requester view digest =>
    n.runDigests (DigestStatements.onBodyFetch requester view digest)
  | .unanswerFetch requester view =>
    { n with digests := n.digests.unanswerFetch requester view }
  | .bodyServe view q => n.runDigests (DigestStatements.onBodyServe cfg view q)
  | .retryFetches now =>
    n.runDigests (DigestStatements.besideAgb (DigestStatements.retryFetches cfg now))
  | .updateCandidates target candidates =>
    n.runResolver (DirectResolver.updateCandidates fuel target candidates)
  | .barFullSelection target => n.runResolver (DirectResolver.barFullSelection target)
  | .activateWithLocalTerminal target =>
    n.runResolver (DirectResolver.activateWithLocalTerminal fuel target)
  | .wish m => n.runResolver (DirectResolver.onWish fuel m)
  | .resolverTimer target view kind =>
    n.runResolver (DirectResolver.onTimer fuel target view kind)
  | .suggest m => n.runResolver (DirectResolver.onSuggest m)
  | .proof m => n.runResolver (DirectResolver.onProof m)
  | .witness m => n.runResolver (DirectResolver.onWitness fuel m)
  | .proposal m => n.runResolver (DirectResolver.onProposal m)
  | .statement m => n.runResolver (DirectResolver.onStatement fuel m)
  | .done m => n.runResolver (DirectResolver.onDone m)
  | .valueFetch m => n.runResolver (DirectResolver.onValueFetch m)
  | .valueServe m => n.runResolver (DirectResolver.onValueServe fuel m)
  | .retryExternalValidity => n.runResolver DirectResolver.retryExternalValidity
  | .admitTargetsThrough through =>
    { n with resolver := n.resolver.admitTargetsThrough through }
  | .validateVote target view value entry fresh =>
    let r := n.validate lm entry fresh
    r.2.runResolver (DirectResolver.onVote fuel target view value r.1.vote)
  | .decide entry => n.runAgb (AgbEngine.submitResolution entry.targetView entry.outcome)
  | .gcBelow floor =>
    { n with
      agb := n.agb.gcBelow floor
      digests := n.digests.gcBelow floor
      resolver := n.resolver.gcBelow floor }

end Node

namespace Deployment

variable (d : Deployment K D) (byzantine : Finset K)

/-- An input that can reach the node `p`. Senders are members of the committee and are
authenticated: what carries the name of a correct party, this party has sent. A Byzantine
party says anything to anybody. -/
def Deliverable (σ : ∀ q, Node d q) (p : K) : NodeInput K D → Prop
  | .echo m => m.sender ∈ d.committee.authorities ∧ (m.sender ∉ byzantine →
      ∃ m', .broadcastEcho m' ∈ (σ m.sender).out ∧ m'.proposalOut = m.proposalOut ∧
        m'.grade = m.grade)
  | .echoDigest m _ => m.sender ∈ d.committee.authorities ∧ (m.sender ∉ byzantine →
      ∃ m', .broadcastEcho m' ∈ (σ m.sender).out ∧ m'.proposalOut.digest d.session = m.digest ∧
        m'.grade = m.grade)
  | .echoSkip view q => q ∈ d.committee.authorities ∧ (q ∉ byzantine →
      .broadcastEchoSkip view ∈ (σ q).out)
  | .ready m => m.sender ∈ d.committee.authorities ∧ (m.sender ∉ byzantine →
      ∃ m', .broadcastReady m' ∈ (σ m.sender).out ∧ m'.proposalOut = m.proposalOut ∧
        m'.grade = m.grade)
  | .readyDigest m _ => m.sender ∈ d.committee.authorities ∧ (m.sender ∉ byzantine →
      ∃ m', .broadcastReady m' ∈ (σ m.sender).out ∧ m'.proposalOut.digest d.session = m.digest ∧
        m'.grade = m.grade)
  | .noready view q => q ∈ d.committee.authorities ∧ (q ∉ byzantine →
      .broadcastNoReady view ∈ (σ q).out)
  | .skipVote view q => q ∈ d.committee.authorities ∧ (q ∉ byzantine →
      .broadcastSkipVote view ∈ (σ q).out)
  | .proof m => m.sender ∈ d.committee.authorities ∧
      ∃ x ∈ (σ m.sender).resolverOut, x.proof? = some m
  | .witness m => m.sender ∈ d.committee.authorities ∧
      ∃ x ∈ (σ m.sender).resolverOut, x.witness? = some m
  | .statement m => m.sender ∈ d.committee.authorities ∧
      ∃ x ∈ (σ m.sender).resolverOut, x.statement? = some m
  | .done m => m.sender ∈ d.committee.authorities ∧
      ∃ x ∈ (σ m.sender).resolverOut, x.done? = some m
  | .validateVote target view value entry fresh =>
      .validateVote target view value entry fresh ∈ (σ p).resolverOut
  | .decide entry => .decide entry ∈ (σ p).resolverOut
  | _ => True

/-- The states of all parties after any interleaving. Inputs may be lost, repeated and
reordered; a Byzantine party sends what it likes. -/
inductive Reachable : (∀ q, Node d q) → Prop
  | init : Reachable fun _ => {}
  | handle {σ : ∀ q, Node d q} (h : Reachable σ) (p : K) (hp : p ∈ d.committee.authorities)
      (hb : p ∉ byzantine) (lm : Lanes K D) (fuel : ℕ) (input : NodeInput K D)
      (hi : d.Deliverable byzantine σ p input) :
      Reachable (Function.update σ p ((σ p).handle lm fuel input))
  | byzantine {σ : ∀ q, Node d q} (h : Reachable σ) (q : K) (hq : q ∈ byzantine)
      (es : List (DirectResolutionEffect K D)) :
      Reachable (Function.update σ q
        { σ q with resolverOut := (σ q).resolverOut ++ es })

end Deployment

end Vantage
