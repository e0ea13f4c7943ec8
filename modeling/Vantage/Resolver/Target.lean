import Vantage.Resolver.Types
import Vantage.Agb.View

/-!
# One target of the resolver

What a single agreement instance does by itself: the primary's proposal, the ECHO with its
lock and external-validity checks, the phases up to LOCK, backing witnesses, DONE and the
decision.

* `recheckDone`: relay and decision.
-/

namespace Vantage

/-- A handler of one target. -/
abbrev TargetHandler {K D : Type} [LinearOrder K] [LinearOrder D] [Inhabited D]
    (S : Session K D) (cfg : ResolverConfig K D) (target : ℕ) : Type :=
  Handler (TargetState S cfg.committee target) (DirectResolutionEffect K D)

namespace ResolverConfig

variable {K D : Type} (cfg : ResolverConfig K D)

def resolverTimeout : ℕ := cfg.delta * 11

def proposalTimeout : ℕ := cfg.delta * 5

def isMember [DecidableEq K] (q : K) : Bool := decide (0 < cfg.committee.stake q)

end ResolverConfig

namespace TargetState

variable {K D : Type} [LinearOrder K] [LinearOrder D] [Inhabited D] {S : Session K D}
  {committee : Committee K} {target : ℕ}

/-! ### Access -/

def viewState (s : TargetState S committee target) (view : ℕ) : Option (DirectViewState K D) :=
  s.inst.bind fun i => i.views.lookup view

def mapInst (f : DirectInstance K D → DirectInstance K D) (s : TargetState S committee target) :
    TargetState S committee target := { s with inst := s.inst.map f }

def mapView (view : ℕ) (f : DirectViewState K D → DirectViewState K D) :
    TargetState S committee target → TargetState S committee target :=
  mapInst fun i =>
    match i.views.lookup view with
    | some st => { i with views := i.views.insert view (f st) }
    | none => i

def updateView (view : ℕ) (f : DirectViewState K D → DirectViewState K D) :
    TargetState S committee target → TargetState S committee target :=
  mapInst fun i => { i with views := i.views.insert view (f ((i.views.lookup view).getD {})) }

def entry (s : TargetState S committee target) (value : D) : Option (ResolutionEntry K D) :=
  (s.values.lookup value).map Subtype.val

def rememberEntry (e : ResolutionEntry K D) (s : TargetState S committee target) :
    Option D × TargetState S committee target :=
  if h : validEntry committee target e = true then
    let value := valueDigest S e
    (some value, if value ∈ s.values then s
      else { s with values := s.values.insert value ⟨e, rfl, h⟩ })
  else (none, s)

def currentView (s : TargetState S committee target) : ℕ :=
  s.inst.elim 0 fun i => i.currentView

end TargetState

namespace TargetState

variable {K D : Type} [LinearOrder K] [LinearOrder D] [Inhabited D] {S : Session K D}
  {target : ℕ} (cfg : ResolverConfig K D)

/-- Phase traffic may race one resolver view ahead of the local entry. -/
def admitsPhaseView (view : ℕ) (s : TargetState S cfg.committee target) : Bool :=
  s.inst.any fun i => decide (0 < view) && decide (view ≤ max i.ownWish i.enteredThrough + 1)

/-! ### Wishes -/

/-- Raise the own wish; until the first entry it is retransmitted on a timer. -/
def raiseOwnWish (view : ℕ) : TargetHandler S cfg target := fun s =>
  match s.inst with
  | none => (s, [])
  | some i =>
    if view ≤ i.ownWish then (s, [])
    else
      ({ s with inst := some { i with ownWish := view, wishes := i.wishes.insert cfg.name view } },
        .broadcastWish ⟨target, view, cfg.name⟩ ::
          if i.currentView = 0 then [.armTimer target view .entry cfg.proposalTimeout] else [])

/-- The `k`-th largest of some views, 0 if there are fewer. -/
def kthLargest (values : List ℕ) (k : ℕ) : ℕ :=
  (values.insertionSort (· ≥ ·)).getD (k - 1) 0

def wishViews (i : DirectInstance K D) : List ℕ := i.wishes.keys.filterMap i.wishes.lookup

/-! ### Values and backing -/

/-- A key is accepted when `f + 1` suggestions permit it. -/
def acceptKey (view key : ℕ) (value : D) (s : TargetState S cfg.committee target) : Bool :=
  if key = 0 then true
  else
    (s.viewState view).any fun st =>
      decide (cfg.fPlus1Parties ≤ Table.count (fun m : DirectResolutionSuggest K D =>
        decide (m.prevKey2 < m.key2View) && decide (m.key2View < view) &&
          (decide (key ≤ m.prevKey2) ||
            (decide (key ≤ m.key2View) && decide (m.key2Value = value)))) st.suggestions)

/-- The least value with enough backing witnesses in one resolver view. -/
def backingWinner (view threshold : ℕ) (s : TargetState S cfg.committee target) : Option D :=
  (s.viewState view).bind fun st =>
    Table.winner some (fun a b => decide (a ≤ b)) threshold st.backingWitnesses

def witnessCount (value : D) (b : Ballot K D) : ℕ :=
  Table.count (fun w => decide (w = value)) b.backingWitnesses

def isBacked (value : D) (s : TargetState S cfg.committee target) : Bool :=
  s.inst.any fun i => i.views.keys.any fun view =>
    (i.views.lookup view).any fun st =>
      decide (cfg.quorumParties ≤ witnessCount value st.toBallot)

def emitBackingWitness (view : ℕ) (value : D) : TargetHandler S cfg target := fun s =>
  match s.entry value, s.viewState view with
  | some e, some st =>
    if st.backingSent.isSome then (s, [])
    else
      (s.mapView view fun st =>
          { st with
            backingSent := some value
            backingWitnesses := st.backingWitnesses.insert cfg.name value },
        [.broadcastWitness ⟨target, view, value, e, cfg.name⟩])
  | _, _ => (s, [])

/-- Relay a witness, and continue the current view once a value is backed. -/
def recheckBacking (view : ℕ) (advanceView : TargetHandler S cfg target) :
    TargetHandler S cfg target :=
  Handler.seq
    (fun s =>
      match s.backingWinner cfg view cfg.fPlus1Parties with
      | some value => emitBackingWitness cfg view value s
      | none => (s, []))
    (fun s =>
      if (s.backingWinner cfg view cfg.quorumParties).isSome ∧
          s.inst.any fun i => decide (i.currentView = view) then
        advanceView s
      else (s, []))

/-! ### Statements -/

/-- An ECHO binds its proposal key and the other phases bind none; a carried ECHO has no
origin bit. -/
def bindingIsValid (view : ℕ) (phase : DirectResolutionPhase) (proposalKeyView origin : Option ℕ) :
    Bool :=
  (match phase with
    | .echo => proposalKeyView.any fun key => decide (key < view)
    | _ => proposalKeyView.isNone) &&
    !(proposalKeyView.any (fun key => decide (0 < key)) && origin.isSome)

/-- Send the own statement of a phase, once per resolver view. -/
def emitStatement (view : ℕ) (phase : DirectResolutionPhase) (value : D)
    (proposalKeyView origin : Option ℕ) : TargetHandler S cfg target := fun s =>
  if !bindingIsValid view phase proposalKeyView origin then (s, [])
  else
    match s.inst with
    | none => (s, [])
    | some i =>
      if (((i.views.lookup view).getD {}).sent phase).isSome then (s, [])
      else
        let origin := if phase = .echo then origin else none
        (s.updateView view fun st =>
            { st with
              sent := Function.update st.sent phase (some value)
              statements := Function.update st.statements phase
                ((st.statements phase).insert cfg.name ⟨value, proposalKeyView, origin⟩) },
          [.broadcastStatement
            ⟨target, view, value, phase, proposalKeyView, origin, cfg.name⟩])

/-- A proof that lets a party with this lock vote against it. -/
def opensLock (view : ℕ) (i : Progress K D) (m : DirectResolutionProof K D) : Bool :=
  decide (m.prevKey1 < m.key1View) && decide (m.key1View < view) &&
    (decide (i.lockView ≤ m.prevKey1) ||
      (decide (i.lockView ≤ m.key1View) && decide (m.key1Value ≠ i.lockValue)))

def openLock (view : ℕ) (i : Progress K D) (b : Ballot K D) : Bool :=
  decide (cfg.fPlus1Parties ≤ Table.count (opensLock view i) b.proofs)

def lockOk (view : ℕ) (p : DirectResolutionProposal K D) (i : Progress K D) (b : Ballot K D) :
    Bool :=
  decide (i.lockView = 0) || decide (i.lockValue = p.value) ||
    (decide (p.keyView < view) && decide (i.lockView ≤ p.keyView) && openLock cfg view i b)

/-- Echo the proposal of the current view if the lock permits it and the caller accepts it;
a carried value has to be backed first. -/
def tryEcho (view : ℕ) : TargetHandler S cfg target := fun s =>
  match s.inst with
  | none => (s, [])
  | some i =>
    if view ≠ i.currentView then (s, [])
    else
      match i.views.lookup view with
      | none => (s, [])
      | some st =>
        if (st.sent .echo).isSome then (s, [])
        else
          match st.proposal with
          | none => (s, [])
          | some p =>
            if decide (0 < p.keyView) && !s.isBacked cfg p.value then (s, [])
            else if !lockOk cfg view p i.toProgress st.toBallot then (s, [])
            else
              match st.voteStatus with
              | .accepted =>
                emitStatement cfg view .echo p.value (some p.keyView) st.voteOrigin s
              | .unknown =>
                (s.mapView view fun st => { st with voteStatus := .requested },
                  [.validateVote target view p.value p.entry (decide (p.keyView = 0))])
              | _ => (s, [])

/-! ### The primary -/

/-- Record the primary's proposal of a resolver view, the first only. -/
def onProposal (m : DirectResolutionProposal K D) : TargetHandler S cfg target := fun s =>
  if !cfg.isMember m.sender || decide (target = 0) || decide (m.view = 0) ||
      decide (m.view ≤ m.keyView) || decide (m.sender ≠ resolutionLeader cfg target m.view) ||
      s.decision.isSome || s.inst.isNone then (s, [])
  else if !s.admitsPhaseView cfg m.view || decide (m.view < s.currentView) then (s, [])
  else if (s.viewState m.view).any fun st => st.proposal.isSome then (s, [])
  else
    match s.rememberEntry m.entry with
    | (none, s) => (s, [])
    | (some value, s) =>
      if value ≠ m.value then (s, [])
      else tryEcho cfg m.view (s.updateView m.view fun st => { st with proposal := some m })

def acceptedSuggestions (view : ℕ) (s : TargetState S cfg.committee target) :
    List (DirectResolutionSuggest K D) :=
  (s.viewState view).elim [] fun st =>
    (st.suggestions.keys.filterMap st.suggestions.lookup).filter fun m =>
      decide (m.key3View = 0) ||
        (decide (m.key3View < view) && s.acceptKey cfg view m.key3View m.key3Value &&
          s.isBacked cfg m.key3Value &&
          (s.entry m.key3Value).any (validEntry cfg.committee target))

def suggestLe (a b : DirectResolutionSuggest K D) : Bool :=
  decide (a.key3View < b.key3View) ||
    (decide (a.key3View = b.key3View) && decide (a.key3Value ≤ b.key3Value))

/-- Candidates that may be proposed fresh: barred full values are left out. -/
def eligible (s : TargetState S cfg.committee target) : List (ResolutionEntry K D) :=
  s.inst.elim [] fun i => i.candidates.filter fun e =>
    match e with
    | .full .. => !s.fullBarred
    | _ => true

/-- Select one fresh candidate and advance the cursor. The first selection is indexed by the
resolver view. -/
def takeNextCandidate (view : ℕ) (s : TargetState S cfg.committee target) :
    Option (ResolutionEntry K D) × TargetState S cfg.committee target :=
  let eligible := s.eligible cfg
  let selected :=
    match s.inst.bind fun i => i.nextCandidate with
    | some candidate =>
      if candidate ∈ eligible then eligible.idxOf candidate else (view - 1) % eligible.length
    | none => (view - 1) % eligible.length
  match eligible[selected]? with
  | none => (none, s)
  | some e =>
    (some e, s.mapInst fun i =>
      { i with nextCandidate := eligible[(selected + 1) % eligible.length]? })

def propose (view keyView : ℕ) (e : ResolutionEntry K D) : TargetHandler S cfg target := fun s =>
  let m : DirectResolutionProposal K D :=
    ⟨target, view, keyView, valueDigest S e, e, cfg.name⟩
  (onProposal cfg m).after (s, [.broadcastProposal m])

/-- Propose the value of the highest accepted key, or a fresh candidate without one. -/
def tryPrimaryPropose (view : ℕ) : TargetHandler S cfg target := fun s =>
  match s.inst with
  | none => (s, [])
  | some i =>
    if decide (view ≠ i.currentView) || decide (resolutionLeader cfg target view ≠ cfg.name) ||
        (i.views.lookup view).any fun st => st.proposal.isSome then (s, [])
    else
      let accepted := s.acceptedSuggestions cfg view
      if accepted.length < cfg.quorumParties then (s, [])
      else
        match (accepted.insertionSort fun a b => suggestLe a b = true).getLast? with
        | none => (s, [])
        | some max =>
          if 0 < max.key3View then
            match s.entry max.key3Value with
            | none => (s, [])
            | some e => propose cfg view max.key3View e s
          else
            match s.takeNextCandidate cfg view with
            | (none, s) => (s, [])
            | (some e, s) => propose cfg view 0 e s

/-! ### DONE -/

def doneWinner (threshold : ℕ) (s : TargetState S cfg.committee target) : Option D :=
  s.inst.bind fun i => Table.winner some (fun a b => decide (a ≤ b)) threshold i.done

def emitDone (value : D) (e : ResolutionEntry K D) : TargetHandler S cfg target := fun s =>
  if !validEntry cfg.committee target e || decide (valueDigest S e ≠ value) then (s, [])
  else
    match s.inst with
    | none => (s, [])
    | some i =>
      if i.doneSent.isSome then (s, [])
      else
        ({ s with
            inst := some
              { i with doneSent := some value, done := i.done.insert cfg.name value } },
          [.broadcastDone ⟨target, value, e, cfg.name⟩])

def relayDone : TargetHandler S cfg target := fun s =>
  if (s.inst.bind fun i => i.doneSent).isSome then (s, [])
  else
    match s.doneWinner cfg cfg.fPlus1Parties with
    | none => (s, [])
    | some value =>
      match s.entry value with
      | none => (s, [.abort])
      | some e => emitDone cfg value e s

/-- Decide once a quorum has sent DONE; the instance is dropped. -/
def decideDone : TargetHandler S cfg target := fun s =>
  match s.doneWinner cfg cfg.quorumParties with
  | none => (s, [])
  | some value =>
    match s.entry value with
    | none => (s, [.abort])
    | some e =>
      ({ s with
          decision := some (value, e)
          inst := none
          pendingFetch := ∅
          fetchRequested := ∅
          fetchAnswered := ∅ },
        [.decide e])

def recheckDone : TargetHandler S cfg target := (relayDone cfg).seq (decideDone cfg)

/-! ### Phases -/

/-- The order of phase votes: by proposal key, then by value. -/
def phaseLe (a b : Option ℕ × D) : Bool :=
  match a.1, b.1 with
  | none, some _ => true
  | some _, none => false
  | none, none => decide (a.2 ≤ b.2)
  | some k, some k' => decide (k < k') || (decide (k = k') && decide (a.2 ≤ b.2))

/-- What a counted statement votes for in its phase: ECHOs vote for a value under a proposal
key, and once the proposal is known every other ECHO abstains. -/
def phaseVote (phase : DirectResolutionPhase) (proposal : Option (DirectResolutionProposal K D))
    (r : StatementRecord D) : Option (Option ℕ × D) :=
  if phase = .echo then
    match proposal with
    | some p =>
      if r.proposalKeyView = some p.keyView ∧ r.value = p.value then
        some (r.proposalKeyView, r.value)
      else none
    | none => some (r.proposalKeyView, r.value)
  else some (none, r.value)

/-- The vote with enough statements in one phase of a resolver view. -/
def phaseWinner (view : ℕ) (phase : DirectResolutionPhase) (threshold : ℕ)
    (s : TargetState S cfg.committee target) : Option (Option ℕ × D) :=
  (s.viewState view).bind fun st =>
    Table.winner (phaseVote phase st.proposal) phaseLe threshold (st.statements phase)

def phaseAuthors (view : ℕ) (phase : DirectResolutionPhase) (vote : Option ℕ × D)
    (s : TargetState S cfg.committee target) : List K :=
  (s.viewState view).elim [] fun st =>
    (st.statements phase).keys.filter fun q =>
      ((st.statements phase).lookup q).any fun r =>
        decide (r.value = vote.2 ∧ r.proposalKeyView = vote.1)

/-- The ECHOs for a fresh non-skip value with origin bit one. -/
def originCount (value : D) (b : Ballot K D) : ℕ :=
  Table.count (fun r : StatementRecord D =>
    decide (r.value = value ∧ r.proposalKeyView = some 0 ∧ r.origin = some 1)) (b.statements .echo)

/-- A fresh non-skip value needs `f + 1` first-hand origins. -/
def freshOriginOk (view : ℕ) (value : D) (s : TargetState S cfg.committee target) : Bool :=
  (s.viewState view).any fun st =>
    st.proposal.any fun p =>
      decide (p.value = value) &&
        (decide (0 < p.keyView) || !p.entry.isNonSkip ||
          decide (cfg.fPlus1Parties ≤ originCount value st.toBallot))

/-- Fetch a value from its voters, each asked once. -/
def ensureValueFetch (value : D) (peers : List K) : TargetHandler S cfg target := fun s =>
  if (s.entry value).isSome then (s, [])
  else
    let asked := peers.filter fun q => decide ((value, q) ∉ s.fetchRequested)
    ({ s with
        pendingFetch := insert value s.pendingFetch
        fetchRequested := s.fetchRequested ∪ (asked.map fun q => (value, q)).toFinset },
      asked.map fun q => .valueFetchTo q ⟨target, value, cfg.name⟩)

/-- What one phase transition of the current view does next. -/
inductive Move (D : Type)
  /-- There is no quorum, the statement is already sent, or origins are missing. -/
  | wait
  /-- The winning value has to be fetched. -/
  | fetch (vote : Option ℕ × D)
  /-- A fresh value is witnessed before it enters KEY1. -/
  | witness (value : D)
  | send (value : D)

def nextMove (view : ℕ) (fromPhase toPhase : DirectResolutionPhase)
    (s : TargetState S cfg.committee target) : Move D :=
  match s.phaseWinner cfg view fromPhase cfg.quorumParties with
  | none => .wait
  | some vote =>
    if (s.viewState view).any fun st => (st.sent toPhase).isSome then .wait
    else if (s.entry vote.2).all fun e => !validEntry cfg.committee target e then .fetch vote
    else if fromPhase = .echo then
      if !s.freshOriginOk cfg view vote.2 then .wait
      else if ((s.viewState view).any fun st => st.proposal.any fun p => decide (p.keyView = 0)) &&
          !s.isBacked cfg vote.2 then .witness vote.2
      else .send vote.2
    else .send vote.2

def recordKey (view : ℕ) (toPhase : DirectResolutionPhase) (value : D) (i : DirectInstance K D) :
    DirectInstance K D :=
  match toPhase with
  | .echo => i
  | .key1 =>
    if i.key1Value ≠ value then
      { i with key1View := view, prevKey1 := i.key1View, key1Value := value }
    else { i with key1View := view }
  | .key2 =>
    if i.key2Value ≠ value then
      { i with key2View := view, prevKey2 := i.key2View, key2Value := value }
    else { i with key2View := view }
  | .key3 => { i with key3View := view, key3Value := value }
  | .lock => { i with lockView := view, lockValue := value }

def sendPhase (view : ℕ) (toPhase : DirectResolutionPhase) (value : D) :
    TargetHandler S cfg target :=
  (Handler.modify (mapInst (recordKey view toPhase value))).seq
    (emitStatement cfg view toPhase value none none)

/-- After the four transitions: DONE after a LOCK quorum, then another round if something was
sent, and the DONE recheck otherwise. -/
def finishRound (view : ℕ) (progressed : Bool) (loop : TargetHandler S cfg target) :
    TargetHandler S cfg target := fun s =>
  match s.phaseWinner cfg view .lock cfg.quorumParties, s.inst.bind fun i => i.doneSent with
  | some vote, none =>
    match s.entry vote.2 with
    | none => ensureValueFetch cfg vote.2 (s.phaseAuthors cfg view .lock vote) s
    | some e => (emitDone cfg vote.2 e).seq loop s
  | _, _ => if progressed then loop s else recheckDone cfg s

/-- One round of the phase loop; a value that has to be fetched ends the whole call. -/
def advanceRound (view : ℕ) (recheckBacking loop : TargetHandler S cfg target) :
    List (DirectResolutionPhase × DirectResolutionPhase) → Bool → TargetHandler S cfg target
  | [], progressed => finishRound cfg view progressed loop
  | (fromPhase, toPhase) :: rest, progressed => fun s =>
    match s.nextMove cfg view fromPhase toPhase with
    | .wait => advanceRound view recheckBacking loop rest progressed s
    | .fetch vote => ensureValueFetch cfg vote.2 (s.phaseAuthors cfg view fromPhase vote) s
    | .witness value =>
      ((emitBackingWitness cfg view value).seq recheckBacking).seq
        (advanceRound view recheckBacking loop rest progressed) s
    | .send value =>
      (sendPhase cfg view toPhase value).seq (advanceRound view recheckBacking loop rest true) s

def transitions : List (DirectResolutionPhase × DirectResolutionPhase) :=
  [(.echo, .key1), (.key1, .key2), (.key2, .key3), (.key3, .lock)]

/-- The phase loop of a resolver view. It recurses through the witness recheck; `fuel` bounds
the rounds and the recursion together. -/
def advance (view : ℕ) : ℕ → TargetHandler S cfg target
  | 0 => .skip
  | fuel + 1 =>
    advanceRound cfg view (recheckBacking cfg view (advance view fuel)) (advance view fuel)
      transitions false

def advanceView (fuel view : ℕ) : TargetHandler S cfg target := fun s =>
  if s.inst.all fun i => decide (view ≠ i.currentView) then (s, []) else advance cfg view fuel s

end TargetState

end Vantage
