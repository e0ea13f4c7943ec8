import Vantage.Agb.Digest

/-!
# What one step of an AGB party can do

`StmtStep` lists, once, every way in which the statements of one view can change and the
statements it broadcasts; everything proved about the engine is proved about these steps.

* `ViewState.…_follows`: each view handler is a run of such steps.
-/

namespace Vantage

variable {K D : Type} [LinearOrder K] [LinearOrder D] {S : Session K D} {view : ℕ}

/-- Effects that carry no protocol statement. -/
def Effect.isQuiet : Effect K D → Bool
  | .broadcastEcho _ => false
  | .broadcastEchoSkip _ => false
  | .broadcastReady _ => false
  | .broadcastNoReady _ => false
  | .broadcastSkipVote _ => false
  | .completed .. => false
  | .sealed .. => false
  | _ => true

omit [LinearOrder K] [LinearOrder D] in
theorem Effect.quiet_nil : ∀ x ∈ ([] : List (Effect K D)), x.isQuiet = true :=
  fun _ hx => absurd hx List.not_mem_nil

/-- The statements that may reach a party about one view, and the outcomes its resolver may
submit for it. -/
structure Inputs {K D : Type} (S : Session K D) (view : ℕ) where
  echo : K → EchoStatement S view → Prop
  ready : K → ReadyStatement S view → Prop
  skipVote : K → Prop
  resolved : Outcome K D → Prop

/-- The routes by which the target-local resolver seals. -/
def Route.isResolver : Route → Bool
  | .resolverFull => true
  | .resolverCore => true
  | .resolverSkip => true
  | _ => false

/-- What a route needs before it seals a view with an outcome; all of it is stable. -/
inductive SealEvidence (cfg : Config K) (resolved : Outcome K D → Prop)
    (s : Statements S view) : Outcome K D → Route → Prop
  | directFull {d tally} (ht : s.readyTallies.lookup d = some tally)
      (hq : cfg.quorum ≤ tally.gradeOne) :
      SealEvidence cfg resolved s (.full tally.body.proposal.c tally.body.proposal.t) .directFull
  | directCore {d tally} (ht : s.readyTallies.lookup d = some tally)
      (hq : cfg.quorum ≤ tally.gradeZero) :
      SealEvidence cfg resolved s (.core tally.body.proposal.c) .directCore
  | fastFull {lock} (hl : s.lock = some lock)
      (hn : cfg.n ≤ s.matchingEchoCount lock.body.digest) :
      SealEvidence cfg resolved s (.full lock.body.proposal.c lock.body.proposal.t) .fastFull
  | voteSkip (hq : cfg.quorumParties ≤ s.skipVoteStatements.card) :
      SealEvidence cfg resolved s .skip .voteSkip
  | resolver {o route} (hr : route.isResolver = true) (h : resolved o) :
      SealEvidence cfg resolved s o route

namespace Statements

/-- A grade-1 echo records the lock first. -/
def lockFor (cfg : Config K) (st : EchoStatement S view) (s : Statements S view) :
    Statements S view :=
  match st with
  | .graded b grade _ => if grade = 1 then s.recordLock cfg b else s
  | .skip => s

def respondEcho (cfg : Config K) (st : EchoStatement S view) (s : Statements S view) :
    Statements S view :=
  countOwnEcho cfg st { s.lockFor cfg st with echoSent := true }

def respondReady (cfg : Config K) (st : ReadyStatement S view) (s : Statements S view) :
    Statements S view :=
  countOwnReady cfg st
    { s with
      readySent := true
      readyMixOpen :=
        match st with
        | .graded _ grade => decide (grade = .mix)
        | .noReady => s.readyMixOpen }

def castSkipVote (cfg : Config K) (s : Statements S view) : Statements S view :=
  { s with
    stance := .skipVoted
    skipVoteStatements := insert cfg.name s.skipVoteStatements }

end Statements

def ownEchoEffect (cfg : Config K) (st : EchoStatement S view) : Effect K D :=
  match st with
  | .graded b grade origin => .broadcastEcho (ViewState.buildEchoOut cfg b.proposal grade origin)
  | .skip => .broadcastEchoSkip view

/-- The atomic steps on the statements of one view. -/
inductive StmtStep (cfg : Config K) (I : Inputs S view) :
    Statements S view → List (Effect K D) → Statements S view → Prop
  | quiet {s es} (h : ∀ x ∈ es, x.isQuiet = true) : StmtStep cfg I s es s
  | recvEcho {s} (q : K) (st : EchoStatement S view) (hI : I.echo q st)
      (hq : q ∉ s.echoStatements) : StmtStep cfg I s [] (s.enterEcho cfg q st)
  | ownEcho {s} (st : EchoStatement S view) (hs : s.echoSent = false) :
      StmtStep cfg I s [ownEchoEffect cfg st] (s.respondEcho cfg st)
  | releaseLock {s} : StmtStep cfg I s [] (s.recheckLockRelease cfg)
  | ownReady {s b grade} (hs : s.readySent = false)
      (hc : s.readyCandidate cfg = some (b, grade)) :
      StmtStep cfg I s [.broadcastReady (ViewState.buildReadyOut cfg b.proposal grade)]
        (s.respondReady cfg (.graded b grade))
  | refine {s s' b grade} (hc : s.readyRefinementCandidate cfg = some (b, grade))
      (hs : s.countReadyStatement cfg cfg.name (.graded b grade) = some s') :
      StmtStep cfg I s [.broadcastReady (ViewState.buildReadyOut cfg b.proposal grade)]
        { s' with readyMixOpen := false }
  | closeMix {s} (deadline : Bool) : StmtStep cfg I s [] (s.finalizeMixIfClosed cfg deadline)
  | ownNoReady {s} (hs : s.readySent = false) :
      StmtStep cfg I s [.broadcastNoReady view] (s.respondReady cfg .noReady)
  | recvReady {s s'} (q : K) (st : ReadyStatement S view) (hI : I.ready q st)
      (hs : s.countReadyStatement cfg q st = some s') : StmtStep cfg I s [] s'
  | complete {s d tally} (ht : s.readyTallies.lookup d = some tally)
      (hq : cfg.quorum ≤ tally.any) (hn : s.completed = none) :
      StmtStep cfg I s (ViewState.completionEffects cfg tally)
        { s with completed := some (tally.body.proposal.c, tally.body.proposal.t) }
  | sealView {s o route} (hn : s.sealed = none) (he : SealEvidence cfg I.resolved s o route) :
      StmtStep cfg I s [.sealed view o route] { s with sealed := some o }
  | skipVote {s} (h : s.readyForSkipVote cfg = true) :
      StmtStep cfg I s [.broadcastSkipVote view] (s.castSkipVote cfg)
  | recvSkipVote {s} (q : K) (hI : I.skipVote q) :
      StmtStep cfg I s [] { s with skipVoteStatements := insert q s.skipVoteStatements }
  | claimNonSkip {s} (h : s.stance = .free) : StmtStep cfg I s [] { s with stance := .nonSkip }

/-! ### View handlers -/

namespace ViewState

variable {cfg : Config K} {I : Inputs S view} {s s' : ViewState S view} {b : Body S view}
  {ctx : ViewCtx} {s : ViewState S view}

/-- A step of a view state is a step of its statements. -/
def Step (cfg : Config K) (I : Inputs S view) (s : ViewState S view) (es : List (Effect K D))
    (s' : ViewState S view) : Prop :=
  StmtStep cfg I s.toStatements es s'.toStatements

theorem step_silent (h : s'.toStatements = s.toStatements) :
    Step cfg I s [] s' := by
  unfold Step
  rw [h]
  exact .quiet Effect.quiet_nil

theorem steps_quiet {es : List (Effect K D)} (h : s'.toStatements = s.toStatements)
    (hes : ∀ x ∈ es, x.isQuiet = true) :
    Steps (Step cfg I) s es s' := by
  refine .single ?_
  unfold Step
  rw [h]
  exact .quiet hes

theorem steps_congr {s t s' : ViewState S view} {es : List (Effect K D)}
    (h : t.toStatements = s.toStatements) (hr : Steps (Step cfg I) t es s') :
    Steps (Step cfg I) s es s' :=
  Steps.step (step_silent h) hr

theorem steps_trySeal {o : Outcome K D} {route : Route} {s t : ViewState S view}
    (h : t.toStatements = s.toStatements)
    (he : SealEvidence cfg I.resolved s.toStatements o route) :
    Steps (Step cfg I) s (trySeal o route t).2 (trySeal o route t).1 := by
  refine steps_congr h ?_
  unfold trySeal
  split
  · exact .refl t
  · next hn => exact .single (.sealView hn (h ▸ he))

theorem completeView_followsAt {d : D} {tally : ReadyTally S view}
    (ht : s.readyTallies.lookup d = some tally) :
    Handler.FollowsAt (Step cfg I) (completeView cfg tally) s := by
  unfold Handler.FollowsAt completeView
  split
  · next h => exact .single (.complete ht h.1 h.2)
  · exact .refl s

theorem directSeal_followsAt {d : D} {tally : ReadyTally S view}
    (ht : s.readyTallies.lookup d = some tally) :
    Handler.FollowsAt (Step cfg I) (directSeal cfg tally) s := by
  unfold Handler.FollowsAt directSeal
  dsimp only
  split
  · split
    · next hq => exact steps_trySeal rfl (.directFull ht hq)
    · split
      · next hq => exact steps_trySeal rfl (.directCore ht hq)
      · exact .refl s
  · exact .refl s

omit [LinearOrder K] [LinearOrder D] in
theorem completeView_readyTallies (tally : ReadyTally S view) (s : ViewState S view) :
    (completeView cfg tally s).1.readyTallies = s.readyTallies := by
  unfold completeView
  split <;> rfl

theorem recheckCompletionAndDirect_follows (d : D) :
    Handler.Follows (Step cfg I) (recheckCompletionAndDirect cfg d) := by
  intro s
  unfold Handler.FollowsAt recheckCompletionAndDirect
  split
  · exact .refl s
  · next tally ht =>
    refine Handler.FollowsAt.seq (completeView_followsAt ht) (directSeal_followsAt (d := d) ?_)
    rw [completeView_readyTallies, ht]

omit [LinearOrder K] [LinearOrder D] in
theorem raiseWish_quiet (wish : Option ℕ) :
    ∀ x ∈ wish.toList.map (Effect.raiseWish (K := K) (D := D)), x.isQuiet = true := by
  intro x hx
  obtain ⟨v, -, rfl⟩ := List.mem_map.mp hx
  rfl

theorem steps_respond {wish : Option ℕ} {x : Effect K D}
    (h : StmtStep cfg I s.toStatements [x] s'.toStatements) :
    Steps (Step cfg I) s (wish.toList.map .raiseWish ++ [x]) s' :=
  (steps_quiet rfl (raiseWish_quiet wish)).trans (.single h)

theorem closeMix_follows (deadline : Bool) :
    Handler.Follows (Step cfg I)
      (.modify (mapStatements (Statements.finalizeMixIfClosed cfg deadline))) :=
  fun _ => .single (.closeMix deadline)

theorem emitInitialReady_followsAt {grade : ReadyGrade} (hs : s.readySent = false)
    (hc : s.readyCandidate cfg = some (b, grade)) :
    Handler.FollowsAt (Step cfg I) (emitInitialReady cfg ctx b grade) s :=
  Handler.FollowsAt.after (steps_respond (.ownReady hs hc))
    ((recheckCompletionAndDirect_follows b.digest).seq (closeMix_follows false) _)

theorem emitReadyRefinement_followsAt {grade : ReadyGrade}
    (hc : s.readyRefinementCandidate cfg = some (b, grade)) :
    Handler.FollowsAt (Step cfg I) (emitReadyRefinement cfg b grade) s := by
  unfold Handler.FollowsAt emitReadyRefinement
  split
  · exact .refl s
  · next st hst =>
    refine Handler.FollowsAt.after (.single ?_) (recheckCompletionAndDirect_follows b.digest _)
    exact StmtStep.refine hc hst

theorem recheckReady_follows (ctx : ViewCtx) :
    Handler.Follows (Step cfg I) (recheckReady cfg ctx) := by
  intro s
  unfold Handler.FollowsAt recheckReady
  split
  · split
    · next b grade hc => exact emitReadyRefinement_followsAt hc
    · exact closeMix_follows false s
  · next hs =>
    split
    · next b grade hc => exact emitInitialReady_followsAt (by simpa using hs) hc
    · exact .refl s

theorem recheckFastsealTrigger_follows :
    Handler.Follows (Step cfg I) (recheckFastsealTrigger cfg) := by
  intro s
  unfold Handler.FollowsAt recheckFastsealTrigger
  split
  · next lock hl =>
    split
    · next h =>
      simp only [Bool.and_eq_true, decide_eq_true_eq] at h
      exact steps_trySeal rfl (.fastFull hl h.2.ge)
    · exact .refl s
  · exact .refl s

theorem recheckSkipSealTrigger_follows :
    Handler.Follows (Step cfg I) (recheckSkipSealTrigger cfg) := by
  intro s
  unfold Handler.FollowsAt recheckSkipSealTrigger
  split
  · exact .refl s
  · next h =>
    simp only [Bool.or_eq_true, decide_eq_true_eq, not_or, not_lt] at h
    exact steps_trySeal rfl (.voteSkip h.2)

theorem recheckSkipVoteTrigger_follows :
    Handler.Follows (Step cfg I) (recheckSkipVoteTrigger cfg) := by
  intro s
  unfold Handler.FollowsAt recheckSkipVoteTrigger
  split
  · next h =>
    refine Handler.FollowsAt.after (.single ?_) (recheckSkipSealTrigger_follows _)
    exact StmtStep.skipVote h
  · exact .refl s

theorem releaseLock_follows :
    Handler.Follows (Step cfg I) (.modify (mapStatements (Statements.recheckLockRelease cfg))) :=
  fun _ => .single .releaseLock

theorem recheckAfterEcho_follows (ctx : ViewCtx) :
    Handler.Follows (Step cfg I) (recheckAfterEcho cfg ctx) :=
  releaseLock_follows.andThen ((recheckReady_follows ctx).andThen
    (recheckFastsealTrigger_follows.andThen recheckSkipVoteTrigger_follows))

theorem recheckAfterEchoSkip_follows :
    Handler.Follows (Step cfg I) (recheckAfterEchoSkip cfg) :=
  releaseLock_follows.andThen ((closeMix_follows false).andThen
    (recheckFastsealTrigger_follows.andThen recheckSkipVoteTrigger_follows))

theorem steps_countEcho {q : K} {st : EchoStatement S view} {st' : Statements S view}
    (hI : I.echo q st) (hst : s.countEchoStatement cfg q st = some st') :
    Steps (Step cfg I) s [] { s with toStatements := st' } := by
  unfold Statements.countEchoStatement at hst
  split at hst
  · cases hst
  · next hq =>
    cases hst
    exact .single (StmtStep.recvEcho q st hI hq)

theorem onEchoStatement_follows {q : K} {st : EchoStatement S view} (hI : I.echo q st) :
    Handler.Follows (Step cfg I) (onEchoStatement cfg ctx q st) := by
  intro s
  unfold Handler.FollowsAt onEchoStatement
  split
  · exact .refl s
  · next st' hst => exact (steps_countEcho hI hst).trans (recheckAfterEcho_follows ctx _)

theorem onEchoSkip_follows {q : K} (hI : I.echo q .skip) :
    Handler.Follows (Step cfg I) (onEchoSkip cfg q) := by
  intro s
  unfold Handler.FollowsAt onEchoSkip
  split
  · exact .refl s
  · next st' hst => exact (steps_countEcho hI hst).trans (recheckAfterEchoSkip_follows _)

theorem onReadyStatement_follows {q : K} {grade : ReadyGrade} (hI : I.ready q (.graded b grade)) :
    Handler.Follows (Step cfg I) (onReadyStatement cfg q b grade) := by
  intro s
  unfold Handler.FollowsAt onReadyStatement
  split
  · exact .refl s
  · next st' hst =>
    have hr : Step cfg I s [] { s with toStatements := st' } := .recvReady q _ hI hst
    exact Steps.step hr (recheckCompletionAndDirect_follows b.digest _)

theorem onNoready_follows {q : K} (hI : I.ready q .noReady) :
    Handler.Follows (Step cfg I) (onNoready cfg q) := by
  intro s
  unfold Handler.FollowsAt onNoready mapStatements
  cases hst : s.countReadyStatement cfg q .noReady with
  | none => exact .single (step_silent (by simp [hst]))
  | some st' =>
    refine .single ?_
    unfold Step
    simp only [hst, Option.getD_some]
    exact .recvReady q _ hI hst

theorem onSkipVote_follows {q : K} (hI : I.skipVote q) :
    Handler.Follows (Step cfg I) (onSkipVote cfg q) := by
  intro s
  unfold Handler.FollowsAt onSkipVote
  split
  · exact .refl s
  · have hr : Step cfg I s []
        { s with skipVoteStatements := insert q s.skipVoteStatements } := .recvSkipVote q hI
    exact Steps.step hr (recheckSkipSealTrigger_follows _)

theorem onReadyTimer_follows (ctx : ViewCtx) :
    Handler.Follows (Step cfg I) (onReadyTimer cfg ctx) := by
  intro s
  unfold Handler.FollowsAt onReadyTimer
  split
  · split
    · next b grade hc => exact emitReadyRefinement_followsAt hc
    · exact closeMix_follows true s
  · next hs =>
    have hs : s.readySent = false := by simpa using hs
    split
    · next b grade hc => exact (emitInitialReady_followsAt hs hc).seq (closeMix_follows true _)
    · refine Handler.FollowsAt.after (steps_respond ?_) (recheckSkipVoteTrigger_follows _)
      exact StmtStep.ownNoReady hs

theorem steps_ownEcho (st : EchoStatement S view) (hs : s.echoSent = false)
    (hs' : s'.toStatements = s.respondEcho cfg st) :
    Steps (Step cfg I) s
      ((recheckAfterEcho cfg ctx).after
        (s', ctx.echoWish.toList.map .raiseWish ++ [ownEchoEffect cfg st])).2
      ((recheckAfterEcho cfg ctx).after
        (s', ctx.echoWish.toList.map .raiseWish ++ [ownEchoEffect cfg st])).1 := by
  refine Handler.FollowsAt.after (steps_respond ?_) (recheckAfterEcho_follows ctx _)
  rw [hs']
  exact .ownEcho st hs

theorem onEchoAbsoluteTimer_follows (ctx : ViewCtx) :
    Handler.Follows (Step cfg I) (onEchoAbsoluteTimer cfg ctx) := by
  intro s
  unfold Handler.FollowsAt onEchoAbsoluteTimer
  split
  · exact .refl s
  · next hs => exact steps_ownEcho .skip (by simpa using hs) rfl

theorem submitResolution_follows {o : Outcome K D} (h : I.resolved o) :
    Handler.Follows (Step cfg I) (submitResolution o) := by
  intro s
  refine steps_trySeal rfl (.resolver ?_ h)
  cases o <;> rfl

theorem emitPositiveEcho_followsAt {origin : List (Option ℕ)} (hs : s.echoSent = false) :
    Handler.FollowsAt (Step cfg I) (AgbEngine.emitPositiveEcho cfg b origin ctx) s :=
  steps_ownEcho (.graded b 1 origin) hs rfl

theorem emitFallbackEcho_followsAt {ok : Bool} {origin : List (Option ℕ)}
    (hs : s.echoSent = false) :
    Handler.FollowsAt (Step cfg I) (AgbEngine.emitFallbackEcho cfg b ok origin ctx) s := by
  cases ok with
  | true => exact steps_ownEcho (.graded b 0 origin) hs rfl
  | false => exact steps_ownEcho .skip hs rfl

theorem canonicalProposal_toStatements (p : ProposalOut K D) (h : p.view = view)
    (s : ViewState S view) : (s.canonicalProposal p h).1.toStatements = s.toStatements := by
  unfold canonicalProposal
  split <;> rfl

theorem canonicalProposal_proposal (p : ProposalOut K D) (h : p.view = view)
    (s : ViewState S view) : (s.canonicalProposal p h).2.proposal = p := by
  unfold canonicalProposal
  split
  · next b hb => simpa using List.find?_some hb
  · rfl

end ViewState

end Vantage
