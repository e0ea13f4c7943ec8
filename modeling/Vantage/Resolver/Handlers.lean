import Vantage.Resolver.Target

/-!
# Entry points of one target

Messages, timers and the caller's answers, as one agreement instance handles them.

* `onSuggest`, `onProof`, `onWitness`, `onVote`, `onStatement`, `onDone`, `onValueServe`: the
  messages of an instance.
-/

namespace Vantage

namespace TargetState

variable {K D : Type} [LinearOrder K] [LinearOrder D] [Inhabited D] {S : Session K D}
  {target : ℕ} (cfg : ResolverConfig K D)

/-! ### Entering views -/

/-- Enter a resolver view: send the keys to its primary and the first key to everybody. -/
def enterView (fuel view : ℕ) : TargetHandler S cfg target := fun s =>
  match s.inst with
  | none => (s, [])
  | some i =>
    if view ≤ i.enteredThrough then (s, [])
    else
      let suggest : DirectResolutionSuggest K D :=
        ⟨target, view, cfg.name, i.key3View, i.key3Value, i.key2View, i.key2Value, i.prevKey2,
          if 0 < i.key3View then s.entry i.key3Value else none⟩
      let proof : DirectResolutionProof K D :=
        ⟨target, view, cfg.name, i.key1View, i.key1Value, i.prevKey1⟩
      let leader := resolutionLeader cfg target view
      let st : DirectViewState K D := (i.views.lookup view).getD {}
      (((tryPrimaryPropose cfg view).seq (tryEcho cfg view)).seq (advanceView cfg fuel view)).after
        ({ s with
            inst := some
              { i with
                enteredThrough := view
                currentView := view
                views := i.views.insert view
                  { st with
                    suggestions := st.suggestions.insert cfg.name suggest
                    proofs := st.proofs.insert cfg.name proof } } },
          [.armTimer target view .proposal cfg.proposalTimeout,
            .armTimer target view .view cfg.resolverTimeout, .broadcastProof proof] ++
            if leader ≠ cfg.name then [.suggestTo leader suggest] else [])

/-- Amplify the wish of `f + 1` parties and enter the views a quorum wishes for. -/
def recheckWishes (fuel : ℕ) : TargetHandler S cfg target :=
  Handler.seq
    (fun s =>
      match s.inst with
      | none => (s, [])
      | some i => raiseOwnWish cfg (kthLargest (wishViews i) cfg.fPlus1Parties) s)
    (fun s =>
      match s.inst with
      | none => (s, [])
      | some i =>
        let enter := kthLargest (wishViews i) cfg.quorumParties
        Handler.forEach (List.range' (i.enteredThrough + 1) (enter - i.enteredThrough))
          (enterView cfg fuel) s)

/-- Go on in the current view, where `adv` advances a view. -/
def retryTargetWith (adv : ℕ → TargetHandler S cfg target) : TargetHandler S cfg target := fun s =>
  match s.inst with
  | none => (s, [])
  | some i =>
    (((tryPrimaryPropose cfg i.currentView).seq (tryEcho cfg i.currentView)).seq
      (adv i.currentView)).seq (recheckDone cfg) s

/-- Go on in the current view. -/
def retryTarget (fuel : ℕ) : TargetHandler S cfg target :=
  retryTargetWith cfg (advanceView cfg fuel)

/-! ### Entry points of one target -/

def canonicalEntryLe (a b : ResolutionEntry K D) : Bool :=
  let key : ResolutionEntry K D → Bool × List ℕ × ℕ := fun e =>
    match e with
    | .full _ c t => (false, cfg.serialize c t, 0)
    | .core _ c t => (false, cfg.serialize c t, 1)
    | .skip _ => (true, [], 2)
  let ka := key a
  let kb := key b
  decide (ka.1 < kb.1) ||
    (decide (ka.1 = kb.1) &&
      (decide (ka.2.1 < kb.2.1) || (decide (ka.2.1 = kb.2.1) && decide (ka.2.2 ≤ kb.2.2))))

def joinWishes (passive wishes : Table K ℕ) : Table K ℕ :=
  passive.keys.foldl (fun m q => m.insert q (max ((m.lookup q).getD 0) ((passive.lookup q).getD 0)))
    wishes

/-- Add locally justified values and start the instance. -/
def updateCandidates (fuel : ℕ) (candidates : List (ResolutionEntry K D)) :
    TargetHandler S cfg target := fun s =>
  let accepted := candidates.filter (validEntry cfg.committee target)
  let s := candidates.foldl (fun s e => (s.rememberEntry e).2) s
  if accepted = [] then (s, [])
  else
    let i := s.inst.getD {}
    let all := accepted.foldl (fun l e => if e ∈ l then l else l ++ [e]) i.candidates
    let s : TargetState S cfg.committee target :=
      { s with
        inst := some
          { i with
            wishes := joinWishes s.passiveWishes i.wishes
            candidates := all.insertionSort fun a b => canonicalEntryLe cfg a b = true }
        passiveWishes := ∅ }
    (((raiseOwnWish cfg 1).seq (recheckWishes cfg fuel)).seq fun s =>
      tryPrimaryPropose cfg s.currentView s) s

/-- Start the instance of a target with a local terminal seal. -/
def activateWithLocalTerminal (fuel : ℕ) : TargetHandler S cfg target := fun s =>
  ((raiseOwnWish cfg 1).seq (recheckWishes cfg fuel))
    { s with inst := some { wishes := s.passiveWishes }, passiveWishes := ∅ }

/-- Timers: retransmit the first wish, or wish for the next view. -/
def onTimer (fuel view : ℕ) (kind : DirectResolutionTimerKind) : TargetHandler S cfg target :=
  fun s =>
  match s.inst with
  | none => (s, [])
  | some i =>
    if kind = .entry then
      if i.currentView ≠ 0 ∨ i.ownWish ≠ view then (s, [])
      else
        (s, [.broadcastWish ⟨target, view, cfg.name⟩,
          .armTimer target view .entry cfg.proposalTimeout])
    else if i.currentView ≠ view then (s, [])
    else if (kind = .proposal ∨ kind = .primaryDown) ∧
        ((i.views.lookup view).any fun st => st.proposal.isSome) then (s, [])
    else ((raiseOwnWish cfg (view + 1)).seq (recheckWishes cfg fuel)) s

/-- The checks shared by suggestions and proofs. -/
def refusesPhase (sender : K) (view : ℕ) (s : TargetState S cfg.committee target) : Bool :=
  !cfg.isMember sender || decide (target = 0) || decide (view = 0) || s.decision.isSome ||
    s.inst.isNone || !s.admitsPhaseView cfg view || decide (view < s.currentView)

def onSuggest (m : DirectResolutionSuggest K D) : TargetHandler S cfg target := fun s =>
  if s.refusesPhase cfg m.sender m.view then (s, [])
  else if (s.viewState m.view).any fun st => decide (m.sender ∈ st.suggestions) then (s, [])
  else
    let record : TargetHandler S cfg target := fun s =>
      tryPrimaryPropose cfg m.view
        (s.updateView m.view fun st =>
          { st with suggestions := st.suggestions.insert m.sender m })
    if m.key3View = 0 then
      if m.entry.isSome then (s, []) else record s
    else
      match m.entry with
      | none => (s, [])
      | some e =>
        match s.rememberEntry e with
        | (none, s) => (s, [])
        | (some value, s) => if value ≠ m.key3Value then (s, []) else record s

def onProof (m : DirectResolutionProof K D) : TargetHandler S cfg target := fun s =>
  if s.refusesPhase cfg m.sender m.view then (s, [])
  else if (s.viewState m.view).any fun st => decide (m.sender ∈ st.proofs) then (s, [])
  else
    tryEcho cfg m.view
      (s.updateView m.view fun st => { st with proofs := st.proofs.insert m.sender m })

/-- Count a witness for a value, the first of its sender, and continue, where `adv` advances a
view. -/
def onWitnessWith (m : DirectResolutionWitness K D) (adv : ℕ → TargetHandler S cfg target) :
    TargetHandler S cfg target := fun s =>
  if !cfg.isMember m.sender || decide (target = 0) || decide (m.view = 0) ||
      s.decision.isSome || decide (valueDigest S m.entry ≠ m.value) || s.inst.isNone then (s, [])
  else if !s.admitsPhaseView cfg m.view then (s, [])
  else if (s.viewState m.view).any fun st => decide (m.sender ∈ st.backingWitnesses) then (s, [])
  else
    match s.rememberEntry m.entry with
    | (none, s) => (s, [])
    | (some _, s) =>
      ((recheckBacking cfg m.view (adv m.view)).seq (retryTargetWith cfg adv))
        (s.updateView m.view fun st =>
          { st with backingWitnesses := st.backingWitnesses.insert m.sender m.value })

/-- Count a witness for a value, the first of its sender, and continue. -/
def onWitness (fuel : ℕ) (m : DirectResolutionWitness K D) : TargetHandler S cfg target :=
  onWitnessWith cfg m (advanceView cfg fuel)

/-- The caller's answer to the external-validity request of a resolver view, where `adv` advances a
view. -/
def onVoteWith (view : ℕ) (value : D) (vote : DirectResolutionVote)
    (adv : ℕ → TargetHandler S cfg target) : TargetHandler S cfg target := fun s =>
  match s.viewState view with
  | none => (s, [])
  | some st =>
    if st.voteStatus ≠ .requested ∨ !(st.proposal.any fun p => decide (p.value = value)) then
      (s, [])
    else
      match vote with
      | .reject permanent =>
        (s.mapView view fun st =>
            { st with voteStatus := if permanent then .rejectedPermanently else .rejected }, [])
      | .accept origin =>
        if origin.any fun bit => decide (1 < bit) then
          (s.mapView view fun st => { st with voteStatus := .rejected }, [])
        else
          ((tryEcho cfg view).seq (adv view))
            (s.mapView view fun st => { st with voteStatus := .accepted, voteOrigin := origin })

/-- The caller's answer to the external-validity request of a resolver view. -/
def onVote (fuel view : ℕ) (value : D) (vote : DirectResolutionVote) :
    TargetHandler S cfg target :=
  onVoteWith cfg view value vote (advanceView cfg fuel)

/-- Retry a rejected external-validity check of the current view. -/
def retryExternalValidity : TargetHandler S cfg target := fun s =>
  match s.inst with
  | none => (s, [])
  | some i =>
    if (i.views.lookup i.currentView).any fun st => decide (st.voteStatus = .rejected) then
      tryEcho cfg i.currentView
        (s.mapView i.currentView fun st => { st with voteStatus := .unknown })
    else (s, [])

/-- A statement whose origin bit or proposal key does not fit its phase. -/
def misbound (m : DirectResolutionStatement K D) : Bool :=
  (m.origin.any fun bit => decide (1 < bit)) ||
    match m.phase with
    | .echo =>
      (m.proposalKeyView.all fun key => decide (m.view ≤ key)) ||
        (m.proposalKeyView.any (fun key => decide (0 < key)) && m.origin.isSome)
    | _ => m.proposalKeyView.isSome || m.origin.isSome

/-- Count a statement, the first of its sender, and continue the current view, where `adv` advances
a view. -/
def onStatementWith (m : DirectResolutionStatement K D) (adv : ℕ → TargetHandler S cfg target) :
    TargetHandler S cfg target := fun s =>
  if !cfg.isMember m.sender || decide (target = 0) || decide (m.view = 0) || misbound m ||
      s.decision.isSome || s.inst.isNone then (s, [])
  else if !s.admitsPhaseView cfg m.view then (s, [])
  else if (s.viewState m.view).any fun st => decide (m.sender ∈ st.statements m.phase) then (s, [])
  else
    let current := s.currentView
    let s := s.updateView m.view fun st =>
      { st with
        statements := Function.update st.statements m.phase
          ((st.statements m.phase).insert m.sender ⟨m.value, m.proposalKeyView, m.origin⟩) }
    (((tryPrimaryPropose cfg current).seq (tryEcho cfg current)).seq
      (if m.view = current then adv m.view else .skip)) s

/-- Count a statement, the first of its sender, and continue the current view. -/
def onStatement (fuel : ℕ) (m : DirectResolutionStatement K D) : TargetHandler S cfg target :=
  onStatementWith cfg m (advanceView cfg fuel)

def onDone (m : DirectResolutionDone K D) : TargetHandler S cfg target := fun s =>
  if !cfg.isMember m.sender || decide (target = 0) || decide (valueDigest S m.entry ≠ m.value) ||
      !validEntry cfg.committee target m.entry || s.decision.isSome then (s, [])
  else
    match s.inst with
    | none => (s, [])
    | some i =>
      if m.sender ∈ i.done then (s, [])
      else
        recheckDone cfg
          ((s.rememberEntry m.entry).2.mapInst fun i =>
            { i with done := i.done.insert m.sender m.value })

/-- Serve a retained value, once to each requester. -/
def onValueFetch (m : DirectResolutionValueFetch K D) : TargetHandler S cfg target := fun s =>
  if !cfg.isMember m.requester || decide (target = 0) then (s, [])
  else
    match s.entry m.value with
    | none => (s, [])
    | some e =>
      if (m.value, m.requester) ∈ s.fetchAnswered then (s, [])
      else
        ({ s with fetchAnswered := insert (m.value, m.requester) s.fetchAnswered },
          [.valueServeTo m.requester ⟨target, m.value, e⟩])

def onValueServe (fuel : ℕ) (m : DirectResolutionValueServe K D) : TargetHandler S cfg target :=
  fun s =>
  if decide (valueDigest S m.entry ≠ m.value) || !validEntry cfg.committee target m.entry ||
      decide (m.value ∉ s.pendingFetch) then (s, [])
  else
    retryTarget cfg fuel
      (({ s with pendingFetch := s.pendingFetch.erase m.value } :
        TargetState S cfg.committee target).rememberEntry m.entry).2

/-! ### Catch-up -/

/-- The own sends of one resolver view that a requester may need, with their kinds. -/
def ownSends (requester : K) (view : ℕ) (st : DirectViewState K D)
    (s : TargetState S cfg.committee target) :
    List (DirectReplayKind × DirectResolutionEffect K D) :=
  (if requester = resolutionLeader cfg target view then
      (st.suggestions.lookup cfg.name).toList.map fun m => (.suggest, .suggestTo requester m)
    else []) ++
  ((st.proofs.lookup cfg.name).toList.map fun m => (.proof, .proofTo requester m)) ++
  (((st.proposal.filter fun m => decide (m.sender = cfg.name))).toList.map fun m =>
    (.proposal, .proposalTo requester m)) ++
  ([.echo, .key1, .key2, .key3, .lock].flatMap fun phase : DirectResolutionPhase =>
    ((st.statements phase).lookup cfg.name).toList.map fun r =>
      (.statement phase, .statementTo requester
        ⟨target, view, r.value, phase, r.proposalKeyView, r.origin, cfg.name⟩)) ++
  (st.backingSent.toList.map fun value =>
    (.witness,
      match s.entry value with
      | some e => .witnessTo requester ⟨target, view, value, e, cfg.name⟩
      | none => .abort))

/-- Replay the sends of one resolver view, each kind once to a requester. -/
def replayView (requester : K) (view : ℕ) : TargetHandler S cfg target := fun s =>
  match s.viewState view with
  | none => (s, [.abort])
  | some st =>
    let fresh := (s.ownSends cfg requester view st).filter fun x =>
      decide ((x.1, requester) ∉ st.replayedTo)
    (s.mapView view fun st =>
        { st with replayedTo := st.replayedTo ∪ (fresh.map fun x => (x.1, requester)).toFinset },
      fresh.map Prod.snd)

/-- Replay the own wish when it is higher than the one replayed before. -/
def replayWish (requester : K) : TargetHandler S cfg target := fun s =>
  match s.inst with
  | none => (s, [])
  | some i =>
    if (i.wishReplayedThrough.lookup requester).getD 0 < i.ownWish then
      ({ s with
          inst := some
            { i with
              wishReplayedThrough := i.wishReplayedThrough.insert requester i.ownWish } },
        [.wishTo requester ⟨target, i.ownWish, cfg.name⟩])
    else (s, [])

def replayDone (requester : K) : TargetHandler S cfg target := fun s =>
  match s.inst.bind fun i => i.doneSent with
  | none => (s, [])
  | some value =>
    if requester ∈ s.doneReplayedTo then (s, [])
    else
      ({ s with doneReplayedTo := insert requester s.doneReplayedTo },
        match s.entry value with
        | some e => [.doneTo requester ⟨target, value, e, cfg.name⟩]
        | none => [.abort])

/-- Replay the own wish, the view-scoped sends up to one view past the requester's wish, and
the own DONE. -/
def replayProgressTo (requester : K) (through : ℕ) : TargetHandler S cfg target :=
  ((replayWish cfg requester).seq fun s =>
    Handler.forEach
      ((s.inst.elim [] fun i => Table.sortedKeys i.views).filter fun v => decide (v ≤ through + 1))
      (replayView cfg requester) s).seq
    (replayDone cfg requester)

/-- A wish of another party. Without an instance it stays passive until `f + 1` parties wish;
after the decision the own DONE is replayed. -/
def onWish (fuel : ℕ) (m : DirectResolutionWish K) : TargetHandler S cfg target := fun s =>
  match s.decision, s.inst with
  | some (value, e), _ =>
    if m.sender ∈ s.doneReplayedTo then (s, [])
    else
      ({ s with doneReplayedTo := insert m.sender s.doneReplayedTo },
        [.doneTo m.sender ⟨target, value, e, cfg.name⟩])
  | none, none =>
    if m.view ≤ (s.passiveWishes.lookup m.sender).getD 0 then (s, [])
    else
      let passive := s.passiveWishes.insert m.sender m.view
      if Table.size passive < cfg.fPlus1Parties then ({ s with passiveWishes := passive }, [])
      else
        ((recheckWishes cfg fuel).seq (replayProgressTo cfg m.sender m.view))
          { s with inst := some { wishes := passive }, passiveWishes := ∅ }
  | none, some i =>
    if m.view ≤ (i.wishes.lookup m.sender).getD 0 then (s, [])
    else
      ((recheckWishes cfg fuel).seq (replayProgressTo cfg m.sender m.view))
        { s with inst := some { i with wishes := i.wishes.insert m.sender m.view } }

end TargetState

end Vantage
