import Vantage.Resolver.Engine

/-!
# What one step of a resolver instance can do

`CoreStep` lists, once, every way in which the safety-relevant part of one target can change,
and what is sent with it.
-/

namespace Vantage

variable {K D : Type} [LinearOrder K] [LinearOrder D] [Inhabited D] {S : Session K D}
  {target : ℕ}

/-- The part of an instance on which agreement rests. -/
structure InstCore (K D : Type) [Inhabited D] extends Progress K D where
  ballots : ℕ → Ballot K D := fun _ => {}

/-- The part of a target on which agreement rests. -/
structure Core (K D : Type) [Inhabited D] where
  inst : Option (InstCore K D) := none
  decision : Option (D × ResolutionEntry K D) := none

/-- Effects that carry no statement of the agreement. -/
def DirectResolutionEffect.isQuiet : DirectResolutionEffect K D → Bool
  | .broadcastProof _ => false
  | .proofTo .. => false
  | .broadcastWitness _ => false
  | .witnessTo .. => false
  | .broadcastStatement _ => false
  | .statementTo .. => false
  | .broadcastDone _ => false
  | .doneTo .. => false
  | .validateVote .. => false
  | .decide _ => false
  | _ => true

/-- What may reach a party about one target: the messages of the others, and the caller's
acceptances by view, value and origin bit.  An instance may start only above the retention
floor. -/
structure ResolverInputs (K D : Type) where
  mayStart : Prop
  proof : DirectResolutionProof K D → Prop
  witness : K → ℕ → D → Prop
  statement : DirectResolutionStatement K D → Prop
  done : K → D → Prop
  vote : ℕ → D → Option ℕ → Prop

namespace InstCore

variable (cfg : ResolverConfig K D)

def setBallot (i : InstCore K D) (view : ℕ) (b : Ballot K D) : InstCore K D :=
  { i with ballots := Function.update i.ballots view b }

def Backed (i : InstCore K D) (value : D) : Prop :=
  ∃ view, cfg.quorumParties ≤ TargetState.witnessCount value (i.ballots view)

/-- Enough statements of a phase for one vote. -/
def PhaseQuorum (b : Ballot K D) (phase : DirectResolutionPhase) (vote : Option ℕ × D) : Prop :=
  cfg.quorumParties ≤
    Table.count (fun r => decide (TargetState.phaseVote phase b.proposal r = some vote))
      (b.statements phase)

/-- A quorum of ECHOs for the fresh proposal, with enough first-hand origins. -/
def FreshQuorum (b : Ballot K D) (value : D) : Prop :=
  ∃ p, b.proposal = some p ∧ p.value = value ∧ p.keyView = 0 ∧
    PhaseQuorum cfg b .echo (some 0, value) ∧
    (p.entry.isNonSkip = true → cfg.fPlus1Parties ≤ TargetState.originCount value b)

def recordKey (phase : DirectResolutionPhase) (value : D) (i : InstCore K D) : InstCore K D :=
  match phase with
  | .key1 =>
    { i with
      key1View := i.currentView
      prevKey1 := if i.key1Value ≠ value then i.key1View else i.prevKey1
      key1Value := value }
  | .lock => { i with lockView := i.currentView, lockValue := value }
  | _ => i

def say (phase : DirectResolutionPhase) (r : StatementRecord D) (i : InstCore K D) : InstCore K D :=
  let b := i.ballots i.currentView
  i.setBallot i.currentView
    { b with
      sent := Function.update b.sent phase (some r.value)
      statements := Function.update b.statements phase
        ((b.statements phase).insert cfg.name r) }

end InstCore

/-- An own send that is repeated to one party. -/
inductive IsReplay (S : Session K D) (cfg : ResolverConfig K D) (target : ℕ) (i : InstCore K D) :
    DirectResolutionEffect K D → Prop
  | statement {view phase r} (q : K)
      (h : ((i.ballots view).statements phase).lookup cfg.name = some r) :
      IsReplay S cfg target i (.statementTo q
        ⟨target, view, r.value, phase, r.proposalKeyView, r.origin, cfg.name⟩)
  | proof {view m} (q : K) (h : (i.ballots view).proofs.lookup cfg.name = some m) :
      IsReplay S cfg target i (.proofTo q m)
  | witness {view value e} (q : K) (h : (i.ballots view).backingSent = some value)
      (he : valueDigest S e = value) :
      IsReplay S cfg target i (.witnessTo q ⟨target, view, value, e, cfg.name⟩)
  | done {value e} (q : K) (h : i.doneSent = some value) (he : valueDigest S e = value) :
      IsReplay S cfg target i (.doneTo q ⟨target, value, e, cfg.name⟩)

/-- The atomic steps on the core of one target. -/
inductive CoreStep (S : Session K D) (cfg : ResolverConfig K D) (target : ℕ)
    (I : ResolverInputs K D) :
    Core K D → List (DirectResolutionEffect K D) → Core K D → Prop
  | quiet {c es} (h : ∀ x ∈ es, x.isQuiet = true) : CoreStep S cfg target I c es c
  | create {c} (hi : c.inst = none) (hd : c.decision = none) (hI : I.mayStart) :
      CoreStep S cfg target I c [] { c with inst := some {} }
  | enter {c i view m} (hi : c.inst = some i) (hv : i.enteredThrough < view)
      (hm : m = ⟨target, view, cfg.name, i.key1View, i.key1Value, i.prevKey1⟩) :
      CoreStep S cfg target I c [.broadcastProof m]
        { c with
          inst := some (InstCore.setBallot { i with enteredThrough := view, currentView := view }
            view { i.ballots view with proofs := (i.ballots view).proofs.insert cfg.name m }) }
  | recvProof {c i m} (hi : c.inst = some i) (hI : I.proof m)
      (hn : m.sender ∉ (i.ballots m.view).proofs) :
      CoreStep S cfg target I c []
        { c with
          inst := some (i.setBallot m.view
            { i.ballots m.view with
              proofs := (i.ballots m.view).proofs.insert m.sender m }) }
  | propose {c i m} (hi : c.inst = some i) (hn : (i.ballots m.view).proposal = none)
      (hv : m.value = valueDigest S m.entry) (he : validEntry cfg.committee target m.entry = true)
      (hk : m.keyView < m.view) :
      CoreStep S cfg target I c []
        { c with
          inst := some (i.setBallot m.view { i.ballots m.view with proposal := some m }) }
  | request {c i view p} (hi : c.inst = some i) (hp : (i.ballots view).proposal = some p) :
      CoreStep S cfg target I c
        [.validateVote target view p.value p.entry (decide (p.keyView = 0))]
        { c with
          inst := some (i.setBallot view { i.ballots view with voteStatus := .requested }) }
  | setVote {c i status} (view : ℕ) (hi : c.inst = some i) (hs : status ≠ .accepted) :
      CoreStep S cfg target I c []
        { c with inst := some (i.setBallot view { i.ballots view with voteStatus := status }) }
  | accept {c i view p origin} (hi : c.inst = some i) (hp : (i.ballots view).proposal = some p)
      (hI : I.vote view p.value origin) :
      CoreStep S cfg target I c []
        { c with
          inst := some (i.setBallot view
            { i.ballots view with voteStatus := .accepted, voteOrigin := origin }) }
  | echo {c i p} (hi : c.inst = some i)
      (hp : (i.ballots i.currentView).proposal = some p)
      (hs : (i.ballots i.currentView).sent .echo = none)
      (hb : 0 < p.keyView → i.Backed cfg p.value)
      (hl : TargetState.lockOk cfg i.currentView p i.toProgress (i.ballots i.currentView) = true)
      (hv : (i.ballots i.currentView).voteStatus = .accepted)
      (ho : 0 < p.keyView → (i.ballots i.currentView).voteOrigin = none)
      (hk : p.keyView < i.currentView) :
      CoreStep S cfg target I c
        [.broadcastStatement ⟨target, i.currentView, p.value, .echo, some p.keyView,
          (i.ballots i.currentView).voteOrigin, cfg.name⟩]
        { c with
          inst := some (i.say cfg .echo
            ⟨p.value, some p.keyView, (i.ballots i.currentView).voteOrigin⟩) }
  | recvStatement {c i m} (hi : c.inst = some i) (hI : I.statement m)
      (hn : m.sender ∉ (i.ballots m.view).statements m.phase) :
      CoreStep S cfg target I c []
        { c with
          inst := some (i.setBallot m.view
            { i.ballots m.view with
              statements := Function.update (i.ballots m.view).statements m.phase
                (((i.ballots m.view).statements m.phase).insert m.sender
                  ⟨m.value, m.proposalKeyView, m.origin⟩) }) }
  | phase {c i fromPhase toPhase vote} (hi : c.inst = some i)
      (ht : (fromPhase, toPhase) ∈ TargetState.transitions)
      (hq : InstCore.PhaseQuorum cfg (i.ballots i.currentView) fromPhase vote)
      (hs : (i.ballots i.currentView).sent toPhase = none)
      (he : fromPhase = .echo → ∃ p, (i.ballots i.currentView).proposal = some p ∧
        p.value = vote.2 ∧ (p.keyView = 0 → i.Backed cfg vote.2)) :
      CoreStep S cfg target I c
        [.broadcastStatement ⟨target, i.currentView, vote.2, toPhase, none, none, cfg.name⟩]
        { c with inst := some ((i.recordKey toPhase vote.2).say cfg toPhase ⟨vote.2, none, none⟩) }
  | witness {c i view value e} (hi : c.inst = some i)
      (hn : (i.ballots view).backingSent = none) (he : valueDigest S e = value)
      (hq : InstCore.FreshQuorum cfg (i.ballots view) value ∨
        cfg.fPlus1Parties ≤ TargetState.witnessCount value (i.ballots view)) :
      CoreStep S cfg target I c [.broadcastWitness ⟨target, view, value, e, cfg.name⟩]
        { c with
          inst := some (i.setBallot view
            { i.ballots view with
              backingSent := some value
              backingWitnesses := (i.ballots view).backingWitnesses.insert cfg.name value }) }
  | recvWitness {c i q view value} (hi : c.inst = some i) (hI : I.witness q view value)
      (hn : q ∉ (i.ballots view).backingWitnesses) :
      CoreStep S cfg target I c []
        { c with
          inst := some (i.setBallot view
            { i.ballots view with
              backingWitnesses := (i.ballots view).backingWitnesses.insert q value }) }
  | done {c i value e} (hi : c.inst = some i) (hn : i.doneSent = none)
      (he : valueDigest S e = value)
      (hq : (∃ view vote, InstCore.PhaseQuorum cfg (i.ballots view) .lock vote ∧ vote.2 = value) ∨
        cfg.fPlus1Parties ≤ Table.count (fun v => decide (v = value)) i.done) :
      CoreStep S cfg target I c [.broadcastDone ⟨target, value, e, cfg.name⟩]
        { c with
          inst := some { i with doneSent := some value, done := i.done.insert cfg.name value } }
  | recvDone {c i q value} (hi : c.inst = some i) (hI : I.done q value) (hn : q ∉ i.done) :
      CoreStep S cfg target I c []
        { c with inst := some { i with done := i.done.insert q value } }
  | decide {c i value e} (hi : c.inst = some i) (he : valueDigest S e = value)
      (hv : validEntry cfg.committee target e = true)
      (hq : cfg.quorumParties ≤ Table.count (fun v => decide (v = value)) i.done) :
      CoreStep S cfg target I c [.decide e] ⟨none, some (value, e)⟩
  | replay {c i x} (hi : c.inst = some i) (hx : IsReplay S cfg target i x) :
      CoreStep S cfg target I c [x] c
  | replayDecision {c value e} (q : K) (hd : c.decision = some (value, e)) :
      CoreStep S cfg target I c [.doneTo q ⟨target, value, e, cfg.name⟩] c

/-- Everything that may reach the party under `I` may also reach it under `J`. -/
structure ResolverInputs.Le (I J : ResolverInputs K D) : Prop where
  mayStart : I.mayStart → J.mayStart
  proof : ∀ m, I.proof m → J.proof m
  witness : ∀ q view value, I.witness q view value → J.witness q view value
  statement : ∀ m, I.statement m → J.statement m
  done : ∀ q value, I.done q value → J.done q value
  vote : ∀ view value origin, I.vote view value origin → J.vote view value origin

section

omit [LinearOrder K] [LinearOrder D] [Inhabited D]

theorem ResolverInputs.Le.refl (I : ResolverInputs K D) : I.Le I :=
  ⟨id, fun _ => id, fun _ _ _ => id, fun _ => id, fun _ _ => id, fun _ _ _ => id⟩

theorem ResolverInputs.Le.trans {I J L : ResolverInputs K D} (h : I.Le J) (h' : J.Le L) :
    I.Le L where
  mayStart hI := h'.mayStart (h.mayStart hI)
  proof m hI := h'.proof m (h.proof m hI)
  witness q view value hI := h'.witness q view value (h.witness q view value hI)
  statement m hI := h'.statement m (h.statement m hI)
  done q value hI := h'.done q value (h.done q value hI)
  vote view value origin hI := h'.vote view value origin (h.vote view value origin hI)

end

theorem CoreStep.mono {cfg : ResolverConfig K D} {I J : ResolverInputs K D} {c c' : Core K D}
    {es : List (DirectResolutionEffect K D)} (hIJ : I.Le J) (h : CoreStep S cfg target I c es c') :
    CoreStep S cfg target J c es c' := by
  cases h with
  | quiet h => exact .quiet h
  | create hi hd hI => exact .create hi hd (hIJ.mayStart hI)
  | enter hi hv hm => exact .enter hi hv hm
  | recvProof hi hI hn => exact .recvProof hi (hIJ.proof _ hI) hn
  | propose hi hn hv he hk => exact .propose hi hn hv he hk
  | request hi hp => exact .request hi hp
  | setVote view hi hs => exact .setVote view hi hs
  | accept hi hp hI => exact .accept hi hp (hIJ.vote _ _ _ hI)
  | echo hi hp hs hb hl hv ho hk => exact .echo hi hp hs hb hl hv ho hk
  | recvStatement hi hI hn => exact .recvStatement hi (hIJ.statement _ hI) hn
  | phase hi ht hq hs he => exact .phase hi ht hq hs he
  | witness hi hn he hq => exact .witness hi hn he hq
  | recvWitness hi hI hn => exact .recvWitness hi (hIJ.witness _ _ _ hI) hn
  | done hi hn he hq => exact .done hi hn he hq
  | recvDone hi hI hn => exact .recvDone hi (hIJ.done _ _ hI) hn
  | decide hi he hv hq => exact .decide hi he hv hq
  | replay hi hx => exact .replay hi hx
  | replayDecision q hd => exact .replayDecision q hd

end Vantage
