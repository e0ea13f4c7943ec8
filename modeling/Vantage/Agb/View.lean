import Vantage.Agb.Types
import Vantage.Lib.Table
import Vantage.Lib.Handler

/-!
# The state of one AGB view

Everything the engine does to a single view: counting echo and ready statements, choosing
and refining the own READY, completion and direct seals, the fast-seal lock, and skip votes.
The engine runs these handlers on the state of an unpruned view; what they read of the
neighbouring views (for the wish that goes with a response) comes in a `ViewCtx`.
-/

namespace Vantage

namespace Config

variable {K : Type} (cfg : Config K)

def n : ℕ := cfg.committee.size

def fPlus1Parties : ℕ := (Thresholds.fromPartyCount cfg.n).fPlus1Parties

def quorumParties : ℕ := (Thresholds.fromPartyCount cfg.n).nMinusFParties

/-- Echo and ready quorums weigh stakes. -/
def quorum : ℕ := cfg.committee.quorumThreshold

def thetaEcho : ℕ := cfg.delta * 3

def thetaReady : ℕ := cfg.delta * 4

/-- The party's committee and thresholds are those of a fault model. -/
structure Fits [DecidableEq K] (F : FaultModel K) : Prop where
  members : cfg.committee.authorities = F.members
  quorumParties : cfg.quorumParties = F.quorum
  fPlus1Parties : cfg.fPlus1Parties = F.f + 1

end Config

/-- The first proposal received directly from the proposer. -/
inductive Fixed {K D : Type} (S : Session K D) (view : ℕ)
  | unset
  | reject
  | proposal (b : Body S view)

/-- What a member says in the echo stage. -/
inductive EchoStatement {K D : Type} (S : Session K D) (view : ℕ)
  | graded (b : Body S view) (grade : ℕ) (origin : List (Option ℕ))
  | skip

/-- The echo tally of one digest, in stake and in parties, with the first body counted. -/
structure EchoTally {K D : Type} (S : Session K D) (view : ℕ) where
  body : Body S view
  gradeOne : ℕ
  gradeZero : ℕ
  gradeOneParties : ℕ
  gradeZeroParties : ℕ
  originOnes : List ℕ

/-- The READYs counted for one proposal. -/
structure ReadyTally {K D : Type} (S : Session K D) (view : ℕ) where
  body : Body S view
  any : ℕ
  gradeOne : ℕ
  gradeZero : ℕ

/-- What a member says in the ready stage. -/
inductive ReadyStatement {K D : Type} (S : Session K D) (view : ℕ)
  | graded (b : Body S view) (grade : ReadyGrade)
  | noReady

/-- The fast-seal lock; once inactive it stays inactive. -/
structure Lock {K D : Type} (S : Session K D) (view : ℕ) where
  body : Body S view
  active : Bool

/-- The resolution stance persists for each target view. -/
inductive Stance
  | free
  | nonSkip
  | skipVoted
  deriving DecidableEq

/-- The statements counted for one view and the party's own responses to it. -/
structure Statements {K D : Type} (S : Session K D) (view : ℕ) where
  echoSent : Bool := false
  readySent : Bool := false
  /-- The initial response was READY-mix and may still refine. -/
  readyMixOpen : Bool := false
  completed : Option (Manifest K D × Manifest K D) := none
  sealed : Option (Outcome K D) := none
  echoStatements : Table K (EchoStatement S view) := ∅
  echoTallies : Table D (EchoTally S view) := ∅
  echoSkipParties : ℕ := 0
  readyStatements : Table K (ReadyStatement S view) := ∅
  readyTallies : Table D (ReadyTally S view) := ∅
  readyNonGradeOneParties : ℕ := 0
  readyZeroOrNoreadyParties : ℕ := 0
  noreadyParties : ℕ := 0
  lock : Option (Lock S view) := none
  stance : Stance := .free
  skipVoteStatements : Finset K := ∅

/-- The state of one view. `pendingGate` marks the views whose positive gate is rechecked. -/
structure ViewState {K D : Type} (S : Session K D) (view : ℕ) extends Statements S view where
  fixed : Fixed S view := .unset
  directed : Option (Outcome K D) := none
  fastsealed : Bool := false
  active : Bool := false
  entered : Bool := false
  entryInstant : Option ℕ := none
  firstProposalInstant : Option ℕ := none
  digestCache : List (Body S view) := []
  auxAccepted : Bool := false
  skipSealed : Bool := false
  pendingGate : Bool := false

instance {K D : Type} {S : Session K D} {view : ℕ} : Inhabited (ViewState S view) := ⟨{}⟩

/-- The wishes that echoes and READYs of a view carry. -/
structure ViewCtx where
  echoWish : Option ℕ
  readyWish : Option ℕ

namespace Statements

variable {K D : Type} [DecidableEq K] [DecidableEq D] {S : Session K D} {view : ℕ}

/-! ### Counting echoes -/

def addOrigins : List ℕ → List (Option ℕ) → List ℕ
  | [], _ => []
  | ns, [] => ns
  | n :: ns, bit :: bits => (if bit = some 1 then n + 1 else n) :: addOrigins ns bits

def addEcho (stake : ℕ) (b : Body S view) (grade : ℕ) (origin : List (Option ℕ))
    (tally : Option (EchoTally S view)) : EchoTally S view :=
  let tally := tally.getD ⟨b, 0, 0, 0, 0, List.replicate b.proposal.entries.length 0⟩
  let originOnes := addOrigins tally.originOnes origin
  if grade = 1 then
    { tally with
      gradeOne := tally.gradeOne + stake
      gradeOneParties := tally.gradeOneParties + 1
      originOnes := originOnes }
  else
    { tally with
      gradeZero := tally.gradeZero + stake
      gradeZeroParties := tally.gradeZeroParties + 1
      originOnes := originOnes }

def enterEcho (cfg : Config K) (sender : K) (st : EchoStatement S view)
    (s : Statements S view) : Statements S view :=
  match st with
  | .graded b grade origin =>
    { s with
      echoTallies := s.echoTallies.insert b.digest
        (addEcho (cfg.committee.stake sender) b grade origin (s.echoTallies.lookup b.digest))
      echoStatements := s.echoStatements.insert sender st }
  | .skip =>
    { s with
      echoSkipParties := s.echoSkipParties + 1
      echoStatements := s.echoStatements.insert sender st }

/-- Only the first echo-stage statement of each sender counts. -/
def countEchoStatement (cfg : Config K) (sender : K) (st : EchoStatement S view)
    (s : Statements S view) : Option (Statements S view) :=
  if sender ∈ s.echoStatements then none else some (s.enterEcho cfg sender st)

/-- Count the own echo-stage statement; a refused statement changes nothing. -/
def countOwnEcho (cfg : Config K) (st : EchoStatement S view) (s : Statements S view) :
    Statements S view :=
  (s.countEchoStatement cfg cfg.name st).getD s

def matchingEchoCount (d : D) (s : Statements S view) : ℕ :=
  (s.echoTallies.lookup d).elim 0 EchoTally.gradeOneParties

/-- Echo-stage statements other than grade-1 echoes for a digest. -/
def nonmatchingEchoCount (d : D) (s : Statements S view) : ℕ :=
  s.echoStatements.size - s.matchingEchoCount d

/-! ### Counting readies -/

def addReady (stake : ℕ) (b : Body S view) (grade : ReadyGrade)
    (tally : Option (ReadyTally S view)) : ReadyTally S view :=
  let tally := tally.getD ⟨b, 0, 0, 0⟩
  match grade with
  | .one => { tally with any := tally.any + stake, gradeOne := tally.gradeOne + stake }
  | .zero => { tally with any := tally.any + stake, gradeZero := tally.gradeZero + stake }
  | .mix => { tally with any := tally.any + stake }

def enterReady (cfg : Config K) (sender : K) (st : ReadyStatement S view)
    (s : Statements S view) : Statements S view :=
  match st with
  | .graded b grade =>
    { s with
      readyTallies := s.readyTallies.insert b.digest
        (addReady (cfg.committee.stake sender) b grade (s.readyTallies.lookup b.digest))
      readyNonGradeOneParties := s.readyNonGradeOneParties + if grade = .one then 0 else 1
      readyZeroOrNoreadyParties :=
        s.readyZeroOrNoreadyParties + if grade = .zero then 1 else 0
      readyStatements := s.readyStatements.insert sender st }
  | .noReady =>
    { s with
      readyNonGradeOneParties := s.readyNonGradeOneParties + 1
      readyZeroOrNoreadyParties := s.readyZeroOrNoreadyParties + 1
      noreadyParties := s.noreadyParties + 1
      readyStatements := s.readyStatements.insert sender st }

/-- Add the homogeneous grade of a refined READY-mix; `any` already counts its sender. -/
def addRefinement (stake : ℕ) (grade : ReadyGrade) (tally : ReadyTally S view) :
    ReadyTally S view :=
  match grade with
  | .one => { tally with gradeOne := tally.gradeOne + stake }
  | .zero => { tally with gradeZero := tally.gradeZero + stake }
  | .mix => tally

/-- Replace a READY-mix by a homogeneous READY for the same digest. -/
def refineReady (cfg : Config K) (sender : K) (b : Body S view) (grade : ReadyGrade)
    (tally : ReadyTally S view) (s : Statements S view) : Statements S view :=
  { s with
    readyTallies := s.readyTallies.insert b.digest
      (addRefinement (cfg.committee.stake sender) grade tally)
    readyZeroOrNoreadyParties := s.readyZeroOrNoreadyParties + if grade = .zero then 1 else 0
    readyStatements := s.readyStatements.insert sender (.graded b grade) }

/-- A statement that may replace an earlier READY-mix for the same digest. -/
def isRefinement : ReadyStatement S view → ReadyStatement S view → Bool
  | .graded b .mix, .graded b' grade => decide (b.digest = b'.digest) && decide (grade ≠ .mix)
  | _, _ => false

/-- The first ready-stage statement of each sender counts, and after a READY-mix at most one
homogeneous refinement for the same digest. -/
def countReadyStatement (cfg : Config K) (sender : K) (st : ReadyStatement S view)
    (s : Statements S view) : Option (Statements S view) :=
  match s.readyStatements.lookup sender with
  | none => some (s.enterReady cfg sender st)
  | some old =>
    if isRefinement old st then
      match st with
      | .graded b grade =>
        (s.readyTallies.lookup b.digest).map fun tally => s.refineReady cfg sender b grade tally
      | .noReady => none
    else none

/-- Count the own ready-stage statement; a refused statement changes nothing. -/
def countOwnReady (cfg : Config K) (st : ReadyStatement S view) (s : Statements S view) :
    Statements S view :=
  (s.countReadyStatement cfg cfg.name st).getD s

/-! ### The own READY -/

/-- Resolution entries that are not skips need `f + 1` echoes with origin bit one. -/
def readyGuard (cfg : Config K) (tally : EchoTally S view) : Bool :=
  tally.body.proposal.entries.zipIdx.all fun p =>
    match p.1 with
    | .skip _ => true
    | _ => decide (cfg.fPlus1Parties ≤ tally.originOnes.getD p.2 0)

/-- The grade of a quorum of echoes, `mix` unless it is homogeneous. -/
def quorumGrade (cfg : Config K) (tally : EchoTally S view) : ReadyGrade :=
  if cfg.quorum ≤ tally.gradeOne then .one
  else if cfg.quorum ≤ tally.gradeZero then .zero
  else .mix

def isReadyCandidate (cfg : Config K) (tally : EchoTally S view) : Bool :=
  decide (cfg.quorum ≤ tally.gradeOne + tally.gradeZero) && readyGuard cfg tally

/-- The first guarded echo quorum, in table order: at most one digest can have a quorum. -/
def readyCandidate (cfg : Config K) (s : Statements S view) :
    Option (Body S view × ReadyGrade) :=
  s.echoTallies.keys.findSome? fun d =>
    (s.echoTallies.lookup d).bind fun tally =>
      if isReadyCandidate cfg tally then some (tally.body, quorumGrade cfg tally) else none

def readyRefinementCandidate (cfg : Config K) (s : Statements S view) :
    Option (Body S view × ReadyGrade) :=
  if s.readyMixOpen then
    match s.readyStatements.lookup cfg.name with
    | some (.graded b .mix) =>
      (s.echoTallies.lookup b.digest).bind fun tally =>
        if cfg.quorum ≤ tally.gradeOne then some (b, .one)
        else if cfg.quorum ≤ tally.gradeZero then some (b, .zero)
        else none
    | _ => none
  else none

/-- A provisional READY-mix closes at its deadline or when everybody has echoed. -/
def finalizeMixIfClosed (cfg : Config K) (deadline : Bool) (s : Statements S view) :
    Statements S view :=
  if s.readyMixOpen && (deadline || decide (s.echoStatements.size = cfg.n)) then
    { s with readyMixOpen := false }
  else s

/-! ### The fast-seal lock and the skip vote -/

/-- Record the lock before the matching grade-1 echo is sent. -/
def recordLock (cfg : Config K) (b : Body S view) (s : Statements S view) :
    Statements S view :=
  if s.lock.isSome then s
  else
    { s with lock := some ⟨b, decide (s.nonmatchingEchoCount b.digest < cfg.fPlus1Parties)⟩ }

/-- `f + 1` nonmatching statements deactivate the lock. -/
def recheckLockRelease (cfg : Config K) (s : Statements S view) : Statements S view :=
  match s.lock with
  | some lock =>
    if lock.active && decide (cfg.fPlus1Parties ≤ s.nonmatchingEchoCount lock.body.digest) then
      { s with lock := some { lock with active := false } }
    else s
  | none => s

/-- The own NO-READY, a free stance, no conflicting seal and `n - f` echo-skips let the party
vote to skip. -/
def readyForSkipVote (cfg : Config K) (s : Statements S view) : Bool :=
  decide (s.stance = .free) &&
    (match s.readyStatements.lookup cfg.name with
      | some .noReady => true
      | _ => false) &&
    (match s.sealed with
      | some (.full ..) => false
      | some (.core ..) => false
      | _ => true) &&
    decide (cfg.quorumParties ≤ s.echoSkipParties)

end Statements

namespace ViewState

variable {K D : Type} [DecidableEq K] [DecidableEq D] {S : Session K D} {view : ℕ}

def mapStatements (f : Statements S view → Statements S view) (s : ViewState S view) :
    ViewState S view := { s with toStatements := f s.toStatements }

/-- Bodies are cached by content, so one proposal is hashed once per view. -/
def canonicalProposal (p : ProposalOut K D) (h : p.view = view) (s : ViewState S view) :
    ViewState S view × Body S view :=
  match s.digestCache.find? fun b => b.proposal = p with
  | some b => (s, b)
  | none => ({ s with digestCache := s.digestCache ++ [Body.of S p h] }, Body.of S p h)

/-! ### Seals -/

/-- The first terminal outcome submitted seals the view. -/
def trySeal (outcome : Outcome K D) (route : Route) :
    Handler (ViewState S view) (Effect K D) := fun s =>
  match s.sealed with
  | some _ => (s, [])
  | none => ({ s with sealed := some outcome }, [.sealed view outcome route])

/-- What completion emits: the references to repair, the tips to quarantine while neither
grade has a quorum, and the completion itself. -/
def completionEffects (cfg : Config K) (tally : ReadyTally S view) : List (Effect K D) :=
  let c := tally.body.proposal.c
  let t := tally.body.proposal.t
  (c ++ tally.body.proposal.entries.flatMap ResolutionEntry.references).map .authorize ++
    (if tally.gradeOne < cfg.quorum ∧ tally.gradeZero < cfg.quorum ∧ t ≠ [] then
      [.quarantineTips t] else []) ++
    [.completed view c t]

def completeView (cfg : Config K) (tally : ReadyTally S view) :
    Handler (ViewState S view) (Effect K D) := fun s =>
  if cfg.quorum ≤ tally.any ∧ s.completed = none then
    ({ s with completed := some (tally.body.proposal.c, tally.body.proposal.t) },
      completionEffects cfg tally)
  else (s, [])

def directSeal (cfg : Config K) (tally : ReadyTally S view) :
    Handler (ViewState S view) (Effect K D) := fun s =>
  let c := tally.body.proposal.c
  let t := tally.body.proposal.t
  if s.directed = none then
    if cfg.quorum ≤ tally.gradeOne then
      trySeal (.full c t) .directFull { s with directed := some (.full c t) }
    else if cfg.quorum ≤ tally.gradeZero then
      trySeal (.core c) .directCore { s with directed := some (.core c) }
    else (s, [])
  else (s, [])

/-- Completion after a READY quorum, and the direct seals after a homogeneous one. -/
def recheckCompletionAndDirect (cfg : Config K) (digest : D) :
    Handler (ViewState S view) (Effect K D) := fun s =>
  match s.readyTallies.lookup digest with
  | none => (s, [])
  | some tally => (completeView cfg tally).seq (directSeal cfg tally) s

/-! ### The own responses -/

/-- The wire form of the own echo; availability claims are filled in during serialization. -/
def buildEchoOut (cfg : Config K) (p : ProposalOut K D) (grade : ℕ)
    (origin : List (Option ℕ)) : EchoOut K D :=
  match p with
  | .single p => .single ⟨p, grade, cfg.name, (origin.head?).join, none⟩
  | .batch p => .batch ⟨p, grade, cfg.name, none⟩

/-- The wire form of the own ready. -/
def buildReadyOut (cfg : Config K) (p : ProposalOut K D) (grade : ReadyGrade) : ReadyOut K D :=
  match p with
  | .single p => .single ⟨p, grade, cfg.name⟩
  | .batch p => .batch ⟨p, grade, cfg.name⟩

def emitInitialReady (cfg : Config K) (ctx : ViewCtx) (b : Body S view) (grade : ReadyGrade) :
    Handler (ViewState S view) (Effect K D) := fun s =>
  ((recheckCompletionAndDirect cfg b.digest).seq
    (.modify (mapStatements (.finalizeMixIfClosed cfg false)))).after
    (mapStatements
        (fun s => Statements.countOwnReady cfg (.graded b grade)
          { s with readySent := true, readyMixOpen := decide (grade = .mix) }) s,
      ctx.readyWish.toList.map .raiseWish ++
        [.broadcastReady (buildReadyOut cfg b.proposal grade)])

def emitReadyRefinement (cfg : Config K) (b : Body S view) (grade : ReadyGrade) :
    Handler (ViewState S view) (Effect K D) := fun s =>
  match s.countReadyStatement cfg cfg.name (.graded b grade) with
  | none => (s, [])
  | some st =>
    (recheckCompletionAndDirect cfg b.digest).after
      ({ s with toStatements := { st with readyMixOpen := false } },
        [.broadcastReady (buildReadyOut cfg b.proposal grade)])

/-- Respond to an echo quorum, or refine an earlier READY-mix. -/
def recheckReady (cfg : Config K) (ctx : ViewCtx) :
    Handler (ViewState S view) (Effect K D) := fun s =>
  if s.readySent then
    match s.readyRefinementCandidate cfg with
    | some (b, grade) => emitReadyRefinement cfg b grade s
    | none => (s.mapStatements (.finalizeMixIfClosed cfg false), [])
  else
    match s.readyCandidate cfg with
    | some (b, grade) => emitInitialReady cfg ctx b grade s
    | none => (s, [])

/-! ### Fast seals and skip votes -/

/-- Matching echoes from all parties seal the locked proposal while the lock is active. -/
def recheckFastsealTrigger (cfg : Config K) : Handler (ViewState S view) (Effect K D) := fun s =>
  match s.lock with
  | some lock =>
    if lock.active && !s.fastsealed &&
        decide (s.matchingEchoCount lock.body.digest = cfg.n) then
      trySeal (.full lock.body.proposal.c lock.body.proposal.t) .fastFull
        { s with fastsealed := true }
    else (s, [])
  | none => (s, [])

/-- `n - f` distinct skip votes submit a skip seal. -/
def recheckSkipSealTrigger (cfg : Config K) : Handler (ViewState S view) (Effect K D) := fun s =>
  if s.skipSealed || decide (s.skipVoteStatements.card < cfg.quorumParties) then (s, [])
  else trySeal .skip .voteSkip { s with skipSealed := true }

/-- Vote to skip once the own responses and the echo-skips permit it. -/
def recheckSkipVoteTrigger (cfg : Config K) : Handler (ViewState S view) (Effect K D) := fun s =>
  if s.readyForSkipVote cfg then
    (recheckSkipSealTrigger cfg).after
      ({ s with
          stance := .skipVoted
          skipVoteStatements := insert cfg.name s.skipVoteStatements },
        [.broadcastSkipVote view])
  else (s, [])

/-- Count a skip vote; a repeated one changes nothing. -/
def onSkipVote (cfg : Config K) (sender : K) : Handler (ViewState S view) (Effect K D) := fun s =>
  if sender ∈ s.skipVoteStatements then (s, [])
  else
    recheckSkipSealTrigger cfg
      { s with skipVoteStatements := insert sender s.skipVoteStatements }

/-! ### Responding to statements and timers -/

def recheckAfterEcho (cfg : Config K) (ctx : ViewCtx) : Handler (ViewState S view) (Effect K D) :=
  Handler.modify (mapStatements (.recheckLockRelease cfg)) >> recheckReady cfg ctx >>
    recheckFastsealTrigger cfg >> recheckSkipVoteTrigger cfg

/-- What follows a newly counted echo-skip: it cannot produce an echo quorum, so the own READY
is only closed. -/
def recheckAfterEchoSkip (cfg : Config K) : Handler (ViewState S view) (Effect K D) :=
  Handler.modify (mapStatements (.recheckLockRelease cfg)) >>
    Handler.modify (mapStatements (.finalizeMixIfClosed cfg false)) >>
    recheckFastsealTrigger cfg >> recheckSkipVoteTrigger cfg

def onEchoStatement (cfg : Config K) (ctx : ViewCtx) (sender : K) (st : EchoStatement S view) :
    Handler (ViewState S view) (Effect K D) := fun s =>
  match s.countEchoStatement cfg sender st with
  | none => (s, [])
  | some st => recheckAfterEcho cfg ctx { s with toStatements := st }

def onEchoSkip (cfg : Config K) (sender : K) : Handler (ViewState S view) (Effect K D) := fun s =>
  match s.countEchoStatement cfg sender .skip with
  | none => (s, [])
  | some st => recheckAfterEchoSkip cfg { s with toStatements := st }

def onReadyStatement (cfg : Config K) (sender : K) (b : Body S view) (grade : ReadyGrade) :
    Handler (ViewState S view) (Effect K D) := fun s =>
  match s.countReadyStatement cfg sender (.graded b grade) with
  | none => (s, [])
  | some st => recheckCompletionAndDirect cfg b.digest { s with toStatements := st }

def onNoready (cfg : Config K) (sender : K) : Handler (ViewState S view) (Effect K D) := fun s =>
  (s.mapStatements fun st => (st.countReadyStatement cfg sender .noReady).getD st, [])

/-- Close a provisional READY-mix, or answer NO-READY without a guarded echo quorum. -/
def onReadyTimer (cfg : Config K) (ctx : ViewCtx) :
    Handler (ViewState S view) (Effect K D) := fun s =>
  if s.readySent then
    match s.readyRefinementCandidate cfg with
    | some (b, grade) => emitReadyRefinement cfg b grade s
    | none => (s.mapStatements (.finalizeMixIfClosed cfg true), [])
  else
    match s.readyCandidate cfg with
    | some (b, grade) =>
      (emitInitialReady cfg ctx b grade).seq
        (.modify (mapStatements (.finalizeMixIfClosed cfg true))) s
    | none =>
      (recheckSkipVoteTrigger cfg).after
        (s.mapStatements fun s =>
            Statements.countOwnReady cfg .noReady { s with readySent := true },
          ctx.readyWish.toList.map .raiseWish ++ [.broadcastNoReady view])

def onEchoAbsoluteTimer (cfg : Config K) (ctx : ViewCtx) :
    Handler (ViewState S view) (Effect K D) := fun s =>
  if s.echoSent then (s, [])
  else
    (recheckAfterEcho cfg ctx).after
      ({ s with
          toStatements := Statements.countOwnEcho cfg .skip { s with echoSent := true }
          pendingGate := false },
        ctx.echoWish.toList.map .raiseWish ++ [.broadcastEchoSkip view])

def submitResolution (outcome : Outcome K D) : Handler (ViewState S view) (Effect K D) :=
  trySeal outcome
    (match outcome with
      | .full .. => .resolverFull
      | .core .. => .resolverCore
      | .skip => .resolverSkip)

end ViewState

end Vantage
