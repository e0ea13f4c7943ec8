import Vantage.Agb.View

/-!
# The AGB engine

The engine keeps one `ViewState` per view, prunes old views, and decides which of its own
responses the lane state permits.

* `enter`, `activate`, `onPropose`, `recheckAll`, `onEchoFallbackTimer`, `onEcho`, `onReady`,
  …: the entry points.

The lane manager is consulted through `Lanes`, its answers at the moment of the call.
-/

namespace Vantage

/-- What the engine asks the lane manager. -/
structure Lanes (K D : Type) where
  authorOk : BlockRef K D → Bool
  holdsPrefix : BlockRef K D → Bool
  prefixContains : BlockRef K D → BlockRef K D → Bool
  locallyAvailable : BlockRef K D → Bool

/-- A lane manager that holds every block it is asked for. -/
def Lanes.complete {K D : Type} : Lanes K D where
  authorOk _ := true
  holdsPrefix _ := true
  prefixContains _ _ := true
  locallyAvailable _ := true

/-- The verdict on one resolution entry: `notYet` may pass later, `never` cannot. -/
inductive MetaEntryStatus
  | ok
  | notYet
  | never
  deriving DecidableEq

/-- The verdict on one vote of the target-local resolver; a fresh non-skip value carries its
origin bit. -/
inductive DirectVoteDecision
  | accept (origin : Option ℕ)
  | notYet
  | never
  deriving DecidableEq

/-- The engine state: the views by number, the recheck cursor, and the pruning floor. -/
structure AgbEngine {K D : Type} (S : Session K D) where
  views : AList (fun view : ℕ => ViewState S view) := ∅
  recheckCursor : ℕ := 1
  minLiveView : ℕ := 1

def recheckBudget : ℕ := 64

/-- At most `budget` pending views from `cursor` upward, then from the smallest view. -/
def recheckWindow (pending : List ℕ) (cursor budget : ℕ) : List ℕ :=
  if pending.length ≤ budget then pending
  else
    let window := (pending.filter (cursor ≤ ·)).take budget
    window ++ (pending.filter (· < cursor)).take (budget - window.length)

namespace AgbEngine

variable {K D : Type} [LinearOrder K] [DecidableEq D] {S : Session K D}

/-- The state of a view; an absent view has the default state. -/
def state (e : AgbEngine S) (view : ℕ) : ViewState S view := (e.views.lookup view).getD default

def setState (e : AgbEngine S) (view : ℕ) (s : ViewState S view) : AgbEngine S :=
  { e with views := e.views.insert view s }

def isPruned (e : AgbEngine S) (view : ℕ) : Bool := decide (view < e.minLiveView)

def gcBelow (floor : ℕ) (e : AgbEngine S) : AgbEngine S :=
  if floor ≤ e.minLiveView then e
  else
    { e with
      views := (e.views.keys.filter (· < floor)).foldl (fun m v => m.erase v) e.views
      minLiveView := floor }

/-- The wish that goes with the own echo of a view: the previous view has been answered. -/
def echoWishTarget (e : AgbEngine S) (view : ℕ) : Option ℕ :=
  if view - 1 = 0 ∨ e.isPruned (view - 1) ∨ (e.state (view - 1)).readySent then some (view + 2)
  else none

/-- The wish that goes with the own ready of a view: the next view has been echoed. -/
def readyWishTarget (e : AgbEngine S) (view : ℕ) : Option ℕ :=
  if e.isPruned (view + 1) ∨ (e.state (view + 1)).echoSent then some (view + 3) else none

def ctx (e : AgbEngine S) (view : ℕ) : ViewCtx :=
  ⟨e.echoWishTarget view, e.readyWishTarget view⟩

/-- Run a view handler; a pruned view ignores everything. -/
def onView (view : ℕ) (h : ViewCtx → Handler (ViewState S view) (Effect K D)) :
    Handler (AgbEngine S) (Effect K D) := fun e =>
  if e.isPruned view then (e, [])
  else
    let r := h (e.ctx view) (e.state view)
    (e.setState view r.1, r.2)

def fixedProposal (e : AgbEngine S) (view : ℕ) : Option (Body S view) :=
  if e.isPruned view then none
  else
    match (e.state view).fixed with
    | .proposal b => some b
    | _ => none

/-! ### Gates -/

def coreOk (lm : Lanes K D) (c : Manifest K D) : Bool := c.all lm.authorOk

/-- A paired tip strictly extends its core entry, has a local prefix, and contains the core
entry in that prefix. -/
def tipOk (lm : Lanes K D) (c t : Manifest K D) : Bool :=
  t.all fun tRef =>
    match c.reverse.find? fun cRef => cRef.author = tRef.author with
    | some cRef =>
      decide (cRef.height < tRef.height) && lm.holdsPrefix tRef && lm.prefixContains tRef cRef
    | none => true

/-- One entry against the own immutable responses, the own lock and the lanes. -/
def metaEntryStatus (cfg : Config K) (lm : Lanes K D) (e : AgbEngine S)
    (entry : ResolutionEntry K D) : MetaEntryStatus :=
  if e.isPruned entry.targetView then .never
  else
    let s := e.state entry.targetView
    match s.echoStatements.lookup cfg.name, s.readyStatements.lookup cfg.name with
    | some _, some ownReady =>
      if s.readyMixOpen then .notYet
      else
        let lockExcludes : Bool :=
          s.lock.any fun lock =>
            lock.active &&
              match entry with
              | .full _ c t => !decide (lock.body.proposal.c = c ∧ lock.body.proposal.t = t)
              | _ => true
        if lockExcludes then .notYet
        else
          match entry with
          | .full _ c t =>
            let refused : Bool :=
              match ownReady with
              | .graded b grade =>
                decide (grade = .zero) || !decide (b.proposal.c = c ∧ b.proposal.t = t)
              | .noReady => false
            if refused then .never
            else if c.all lm.locallyAvailable && t.all lm.locallyAvailable && tipOk lm c t then
              .ok
            else .notYet
          | .core _ c t =>
            let refused : Bool :=
              match ownReady with
              | .graded b grade =>
                decide (grade = .one) || !decide (b.proposal.c = c ∧ b.proposal.t = t)
              | .noReady => false
            if refused then .never
            else if c.all lm.locallyAvailable then .ok
            else .notYet
          | .skip _ =>
            match ownReady with
            | .noReady => .ok
            | .graded .. => .never
    | _, _ => .notYet

/-- Non-skip entries are excluded after a skip vote or a terminal skip. -/
def stanceExcludes (e : AgbEngine S) (entry : ResolutionEntry K D) : Bool :=
  entry.isNonSkip && !e.isPruned entry.targetView &&
    let s := e.state entry.targetView
    decide (s.stance = .skipVoted) ||
      match s.sealed with
      | some .skip => true
      | _ => false

/-- Claim the non-skip stance for the target of a full or core entry. -/
def claimNonSkip (entry : ResolutionEntry K D) (e : AgbEngine S) : AgbEngine S :=
  if entry.isNonSkip then
    let s := e.state entry.targetView
    e.setState entry.targetView (if s.stance = .free then { s with stance := .nonSkip } else s)
  else e

/-- The metadata of a proposal passes once and stays accepted for its view. -/
def tryMetaOk (cfg : Config K) (lm : Lanes K D) (w : ℕ) (entries : List (ResolutionEntry K D))
    (e : AgbEngine S) : Bool × AgbEngine S :=
  if entries = [] then (true, e)
  else if (e.state w).auxAccepted then (true, e)
  else if entries.any e.stanceExcludes then (false, e)
  else if !entries.all fun entry => decide (e.metaEntryStatus cfg lm entry = .ok) then (false, e)
  else
    let e := entries.foldl (fun e entry => e.claimNonSkip entry) e
    (true, e.setState w { e.state w with auxAccepted := true })

def positiveGateHolds (cfg : Config K) (lm : Lanes K D) (p : ProposalOut K D)
    (e : AgbEngine S) : Bool × AgbEngine S :=
  if coreOk lm p.c && p.t.all lm.authorOk && tipOk lm p.c p.t then
    e.tryMetaOk cfg lm p.view p.entries
  else (false, e)

def computeOriginEntry (cfg : Config K) (e : AgbEngine S) (entry : ResolutionEntry K D) :
    Option ℕ :=
  let ownEcho := (e.state entry.targetView).echoStatements.lookup cfg.name
  match entry with
  | .full _ c t =>
    match ownEcho with
    | some (.graded b grade _) =>
      some (if grade = 1 ∧ b.proposal.c = c ∧ b.proposal.t = t then 1 else 0)
    | _ => some 0
  | .core _ c t =>
    match ownEcho with
    | some (.graded b _ _) => some (if b.proposal.c = c ∧ b.proposal.t = t then 1 else 0)
    | _ => some 0
  | .skip _ => none

def computeOrigin (cfg : Config K) (e : AgbEngine S) (entries : List (ResolutionEntry K D)) :
    List (Option ℕ) := entries.map (e.computeOriginEntry cfg)

/-- A terminal seal and a resolver value that stand for the same outcome. -/
def sealCompatible : Outcome K D → ResolutionEntry K D → Bool
  | .full sc st, .full _ c t => decide (sc = c ∧ st = t)
  | .core sc, .core _ c _ => decide (sc = c)
  | .skip, .skip _ => true
  | _, _ => false

/-- Validate one vote of the target-local resolver. A fresh value passes the metadata gate
and claims the non-skip stance; a carried value has already been backed by a quorum of fresh
votes and is accepted as it is. -/
def tryDirectResolutionVote (cfg : Config K) (lm : Lanes K D) (entry : ResolutionEntry K D)
    (fresh : Bool) (e : AgbEngine S) : DirectVoteDecision × AgbEngine S :=
  if e.isPruned entry.targetView then (.never, e)
  else if !fresh then (.accept none, e)
  else if (e.state entry.targetView).sealed.any fun o => !sealCompatible o entry then (.never, e)
  else if e.stanceExcludes entry then (.never, e)
  else
    match e.metaEntryStatus cfg lm entry with
    | .never => (.never, e)
    | .notYet => (.notYet, e)
    | .ok =>
      let e := e.claimNonSkip entry
      (.accept (e.computeOriginEntry cfg entry), e)

/-! ### The own echo -/

/-- The grade-1 echo: the lock is recorded before the echo is counted and broadcast. -/
def emitPositiveEcho {view : ℕ} (cfg : Config K) (b : Body S view) (origin : List (Option ℕ))
    (ctx : ViewCtx) : Handler (ViewState S view) (Effect K D) := fun s =>
  (ViewState.recheckAfterEcho cfg ctx).after
    ({ s with
        toStatements := Statements.countOwnEcho cfg (.graded b 1 origin)
          { s.recordLock cfg b with echoSent := true }
        pendingGate := false },
      ctx.echoWish.toList.map .raiseWish ++
        [.broadcastEcho (ViewState.buildEchoOut cfg b.proposal 1 origin)])

def recheckGate (cfg : Config K) (lm : Lanes K D) (view : ℕ) :
    Handler (AgbEngine S) (Effect K D) := fun e =>
  if e.isPruned view then (e, [])
  else
    let s := e.state view
    if !s.active || s.echoSent then (e, [])
    else
      match s.fixed with
      | .proposal b =>
        let r := e.positiveGateHolds cfg lm b.proposal
        if r.1 then
          onView view (emitPositiveEcho cfg b (r.2.computeOrigin cfg b.proposal.entries)) r.2
        else (r.2, [])
      | _ => (e, [])

def recheckAll (cfg : Config K) (lm : Lanes K D) : Handler (AgbEngine S) (Effect K D) := fun e =>
  let pending := (e.views.keys.mergeSort fun a b => decide (a ≤ b)).filter fun v =>
    (e.state v).pendingGate
  let views := recheckWindow pending e.recheckCursor recheckBudget
  Handler.forEach views (recheckGate cfg lm)
    { e with recheckCursor := (views.getLast?).elim e.recheckCursor (· + 1) }

/-- The fallback echo: grade 0 if the core and the metadata pass, an echo-skip otherwise. -/
def emitFallbackEcho {view : ℕ} (cfg : Config K) (b : Body S view) (ok : Bool)
    (origin : List (Option ℕ)) (ctx : ViewCtx) :
    Handler (ViewState S view) (Effect K D) := fun s =>
  (ViewState.recheckAfterEcho cfg ctx).after
    ({ s with
        toStatements := Statements.countOwnEcho cfg (if ok then .graded b 0 origin else .skip)
          { s with echoSent := true }
        pendingGate := false },
      ctx.echoWish.toList.map .raiseWish ++
        [if ok then .broadcastEcho (ViewState.buildEchoOut cfg b.proposal 0 origin)
          else .broadcastEchoSkip view])

def onEchoFallbackTimer (cfg : Config K) (lm : Lanes K D) (view : ℕ) :
    Handler (AgbEngine S) (Effect K D) := fun e =>
  if e.isPruned view then (e, [])
  else
    let s := e.state view
    if s.echoSent then (e, [])
    else
      match s.fixed with
      | .proposal b =>
        let r := if coreOk lm b.proposal.c then e.tryMetaOk cfg lm view b.proposal.entries
          else (false, e)
        onView view
          (emitFallbackEcho cfg b r.1 (r.2.computeOrigin cfg b.proposal.entries)) r.2
      | _ => (e, [])

/-! ### Entering a view and fixing its proposal -/

def activate (cfg : Config K) (lm : Lanes K D) (view : ℕ) :
    Handler (AgbEngine S) (Effect K D) := fun e =>
  if e.isPruned view then (e, [])
  else
    let s := e.state view
    if s.active then (e.setState view s, [])
    else
      let pending : Bool :=
        match s.fixed with
        | .proposal _ => !s.echoSent
        | _ => false
      recheckGate cfg lm view
        (e.setState view { s with active := true, pendingGate := s.pendingGate || pending })

/-- The fallback deadline `min (t + δ, entry + θE)` with `t` the later of entry and receipt. -/
def fallbackDeadline (cfg : Config K) (entry receipt : ℕ) : ℕ :=
  min (max entry receipt + cfg.delta) (entry + cfg.thetaEcho)

def enter (cfg : Config K) (lm : Lanes K D) (view now : ℕ) :
    Handler (AgbEngine S) (Effect K D) := fun e =>
  if e.isPruned view then (e, [])
  else
    let s := e.state view
    if s.entered then (e.setState view s, [])
    else
      let fallback : List (Effect K D) :=
        match s.fixed, s.echoSent, s.firstProposalInstant with
        | .proposal _, false, some rho =>
          [.armTimer view .echoFallback (fallbackDeadline cfg now rho)]
        | _, _, _ => []
      (activate cfg lm view).after
        (e.setState view { s with entered := true, entryInstant := some now },
          [.armTimer view .echoAbsolute (now + cfg.thetaEcho),
            .armTimer view .readyAbsolute (now + cfg.thetaReady)] ++ fallback)

def proposer (cfg : Config K) (view : ℕ) : K := cfg.committee.oneBased view

/-- Fix the first timely proposal of the designated proposer. -/
def onProposeAny (cfg : Config K) (lm : Lanes K D) (sender : K) (p : ProposalOut K D)
    (now : ℕ) : Handler (AgbEngine S) (Effect K D) := fun e =>
  let view := p.view
  if e.isPruned view ∨ sender ≠ proposer cfg view then (e, [])
  else
    let s := e.state view
    if s.entryInstant.any fun entry => decide (entry + cfg.thetaEcho < now) then
      (e.setState view s, [])
    else
      match s.fixed with
      | .unset =>
        let s := { s with firstProposalInstant := some (s.firstProposalInstant.getD now) }
        if p.formed cfg.committee then
          let r := s.canonicalProposal p rfl
          let s := { r.1 with
            fixed := .proposal r.2
            pendingGate := r.1.pendingGate || (r.1.active && !r.1.echoSent) }
          let refs := p.c ++ p.t ++ p.entries.flatMap ResolutionEntry.references
          let fallback : List (Effect K D) := s.entryInstant.toList.map fun entry =>
            .armTimer view .echoFallback (fallbackDeadline cfg entry now)
          (recheckGate cfg lm view).after
            (e.setState view s, refs.map .authorize ++ [.fixed view true] ++ fallback)
        else (e.setState view { s with fixed := .reject }, [.fixed view false])
      | _ => (e.setState view s, [])

def onPropose (cfg : Config K) (lm : Lanes K D) (sender : K) (p : ViewProposal K D) (now : ℕ) :
    Handler (AgbEngine S) (Effect K D) := onProposeAny cfg lm sender (.single p) now

def onProposeBatch (cfg : Config K) (lm : Lanes K D) (sender : K) (p : BatchViewProposal K D)
    (now : ℕ) : Handler (AgbEngine S) (Effect K D) := onProposeAny cfg lm sender (.batch p) now

/-! ### Timers -/

def onEchoAbsoluteTimer (cfg : Config K) (view : ℕ) : Handler (AgbEngine S) (Effect K D) :=
  onView view fun ctx => ViewState.onEchoAbsoluteTimer cfg ctx

def onReadyTimer (cfg : Config K) (view : ℕ) : Handler (AgbEngine S) (Effect K D) :=
  onView view fun ctx => ViewState.onReadyTimer cfg ctx

def awaitsProposal {view : ℕ} (s : ViewState S view) : Bool :=
  s.entered && s.sealed.isNone && !s.echoSent &&
    match s.fixed with
    | .unset => true
    | _ => false

/-- Refuse a view early when no proposal will come: the echo-skip and the no-ready that the
absolute timers would emit later. -/
def refuseUnproposedView (cfg : Config K) (view : ℕ) :
    Handler (AgbEngine S) (Effect K D) := fun e =>
  if e.isPruned view || !awaitsProposal (e.state view) then (e, [])
  else (onEchoAbsoluteTimer cfg view).seq (onReadyTimer cfg view) e

/-! ### Statements of other parties -/

def onEchoAny (cfg : Config K) (echo : EchoOut K D) : Handler (AgbEngine S) (Effect K D) :=
  if echo.grade ≤ 1 then
    onView echo.proposalOut.view fun ctx s =>
      let r := s.canonicalProposal echo.proposalOut rfl
      ViewState.onEchoStatement cfg ctx echo.sender
        (.graded r.2 echo.grade echo.originVec) r.1
  else Handler.skip

/-- The availability claims of a first, well-formed echo. -/
def claimEffects (cfg : Config K) (view grade : ℕ) (sender : K) (formed : Bool)
    (avail : Option AvailClaim) (refs : List (BlockRef K D)) (e : AgbEngine S) :
    List (Effect K D) :=
  if grade ≤ 1 ∧ e.isPruned view = false ∧ sender ∉ (e.state view).echoStatements ∧
      sender ∈ cfg.committee.authorities ∧ formed then
    let claims := avail.elim [] fun a => a.statements refs
    if claims = [] then []
    else .availClaimed sender claims :: claims.map fun cl => .authorize cl.anchor
  else []

def onEcho (cfg : Config K) (echo : Echo K D) : Handler (AgbEngine S) (Effect K D) := fun e =>
  (onEchoAny cfg (.single echo)).after
    (e, e.claimEffects cfg echo.proposal.view echo.grade echo.sender
      (formed cfg.committee echo.proposal.view echo.proposal.c echo.proposal.t echo.proposal.m)
      echo.avail (manifestRefs echo.proposal))

def onEchoBatch (cfg : Config K) (echo : EchoBatch K D) :
    Handler (AgbEngine S) (Effect K D) := fun e =>
  (onEchoAny cfg (.batch echo)).after
    (e, e.claimEffects cfg echo.proposal.view echo.grade echo.sender
      (formedBatch cfg.committee echo.proposal.view echo.proposal.c echo.proposal.t
        echo.proposal.m)
      echo.avail (batchManifestRefs echo.proposal))

def onEchoSkip (cfg : Config K) (view : ℕ) (sender : K) : Handler (AgbEngine S) (Effect K D) :=
  onView view fun _ => ViewState.onEchoSkip cfg sender

def onReadyAny (cfg : Config K) (ready : ReadyOut K D) : Handler (AgbEngine S) (Effect K D) :=
  onView ready.proposalOut.view fun _ s =>
    let r := s.canonicalProposal ready.proposalOut rfl
    ViewState.onReadyStatement cfg ready.sender r.2 ready.grade r.1

/-- The proposal of a by-value ready, under its own view. -/
def readyBody (S : Session K D) (ready : ReadyOut K D) : Body S ready.proposalOut.view :=
  Body.of S ready.proposalOut rfl

def onReady (cfg : Config K) (ready : Ready K D) : Handler (AgbEngine S) (Effect K D) :=
  onReadyAny cfg (.single ready)

def onReadyBatch (cfg : Config K) (ready : ReadyBatch K D) :
    Handler (AgbEngine S) (Effect K D) := onReadyAny cfg (.batch ready)

def onNoready (cfg : Config K) (view : ℕ) (sender : K) : Handler (AgbEngine S) (Effect K D) :=
  onView view fun _ => ViewState.onNoready cfg sender

def onSkipVote (cfg : Config K) (view : ℕ) (sender : K) : Handler (AgbEngine S) (Effect K D) :=
  onView view fun _ => ViewState.onSkipVote cfg sender

def submitResolution (view : ℕ) (outcome : Outcome K D) : Handler (AgbEngine S) (Effect K D) :=
  onView view fun _ => ViewState.submitResolution outcome

end AgbEngine

end Vantage
