import Vantage.Agb.Calls

/-!
# The calls that touch the proposals of a view

Only a proposal, a by-value statement and pruning change the fixed proposal of a view or the bodies
it caches; every other call leaves them as they are.

* `…_keeps`: the handlers that leave them alone, up to `AgbEngine.call_keeps`.
-/

namespace Vantage

variable {K D : Type} [LinearOrder K] [LinearOrder D] {S : Session K D}

namespace ViewState

variable {view : ℕ}

def bodies (s : ViewState S view) : Fixed S view × List (Body S view) := (s.fixed, s.digestCache)

variable {cfg : Config K}

/-! ### Counting leaves the bodies alone -/

omit [LinearOrder K] [LinearOrder D] in
theorem trySeal_keeps [DecidableEq K] [DecidableEq D] (o : Outcome K D) (route : Route) :
    Handler.Keeps (@bodies K D S view) (trySeal o route) := by
  intro s
  unfold trySeal
  split <;> rfl

theorem recheckCompletionAndDirect_keeps (d : D) :
    Handler.Keeps (@bodies K D S view) (recheckCompletionAndDirect cfg d) := by
  intro s
  unfold recheckCompletionAndDirect
  split
  · rfl
  refine Handler.Keeps.seq (fun s => ?_) (fun s => ?_) s
  · unfold completeView
    split <;> rfl
  · unfold directSeal
    dsimp only
    split
    · split
      · exact trySeal_keeps _ _ _
      split
      · exact trySeal_keeps _ _ _
      · rfl
    · rfl

omit [LinearOrder K] [LinearOrder D] in
theorem mapStatements_keeps (f : Statements S view → Statements S view) :
    Handler.Keeps (ε := Effect K D) (@bodies K D S view)
      (.modify (mapStatements f)) := fun _ => rfl

theorem emitInitialReady_keeps (ctx : ViewCtx) (b : Body S view) (grade : ReadyGrade) :
    Handler.Keeps bodies (emitInitialReady cfg ctx b grade) := fun _ =>
  Handler.Keeps.after ((recheckCompletionAndDirect_keeps b.digest).seq (mapStatements_keeps _)) rfl

theorem emitReadyRefinement_keeps (b : Body S view) (grade : ReadyGrade) :
    Handler.Keeps bodies (emitReadyRefinement cfg b grade) := by
  intro s
  unfold emitReadyRefinement
  split
  · rfl
  · exact Handler.Keeps.after (recheckCompletionAndDirect_keeps b.digest) rfl

theorem recheckReady_keeps (ctx : ViewCtx) :
    Handler.Keeps (@bodies K D S view) (recheckReady cfg ctx) := by
  intro s
  unfold recheckReady
  split
  · split
    · exact emitReadyRefinement_keeps _ _ s
    · rfl
  · split
    · exact emitInitialReady_keeps ctx _ _ s
    · rfl

theorem recheckFastsealTrigger_keeps :
    Handler.Keeps (@bodies K D S view) (recheckFastsealTrigger cfg) := by
  intro s
  unfold recheckFastsealTrigger
  split
  · split
    · exact trySeal_keeps _ _ _
    · rfl
  · rfl

theorem recheckSkipSealTrigger_keeps :
    Handler.Keeps (@bodies K D S view) (recheckSkipSealTrigger cfg) := by
  intro s
  unfold recheckSkipSealTrigger
  split
  · rfl
  · exact trySeal_keeps _ _ _

theorem recheckSkipVoteTrigger_keeps :
    Handler.Keeps (@bodies K D S view) (recheckSkipVoteTrigger cfg) := by
  intro s
  unfold recheckSkipVoteTrigger
  split
  · exact Handler.Keeps.after recheckSkipSealTrigger_keeps rfl
  · rfl

theorem recheckAfterEcho_keeps (ctx : ViewCtx) :
    Handler.Keeps (@bodies K D S view) (recheckAfterEcho cfg ctx) :=
  (mapStatements_keeps _).andThen ((recheckReady_keeps ctx).andThen
    (recheckFastsealTrigger_keeps.andThen recheckSkipVoteTrigger_keeps))

theorem recheckAfterEchoSkip_keeps :
    Handler.Keeps (@bodies K D S view) (recheckAfterEchoSkip cfg) :=
  (mapStatements_keeps _).andThen ((mapStatements_keeps _).andThen
    (recheckFastsealTrigger_keeps.andThen recheckSkipVoteTrigger_keeps))

theorem onEchoSkip_keeps (q : K) :
    Handler.Keeps (@bodies K D S view) (onEchoSkip cfg q) := by
  intro s
  unfold onEchoSkip
  split
  · rfl
  · exact recheckAfterEchoSkip_keeps _

theorem onReadyStatement_keeps (q : K) (b : Body S view) (grade : ReadyGrade) :
    Handler.Keeps bodies (onReadyStatement cfg q b grade) := by
  intro s
  unfold onReadyStatement
  split
  · rfl
  · exact recheckCompletionAndDirect_keeps b.digest _

theorem onSkipVote_keeps (q : K) :
    Handler.Keeps (@bodies K D S view) (onSkipVote cfg q) := by
  intro s
  unfold onSkipVote
  split
  · rfl
  · exact recheckSkipSealTrigger_keeps _

theorem onReadyTimer_keeps (ctx : ViewCtx) :
    Handler.Keeps (@bodies K D S view) (onReadyTimer cfg ctx) := by
  intro s
  unfold onReadyTimer
  split
  · split
    · exact emitReadyRefinement_keeps _ _ s
    · rfl
  · split
    · exact (emitInitialReady_keeps ctx _ _).seq (mapStatements_keeps _) s
    · exact Handler.Keeps.after recheckSkipVoteTrigger_keeps rfl

theorem onEchoAbsoluteTimer_keeps (ctx : ViewCtx) :
    Handler.Keeps (@bodies K D S view) (onEchoAbsoluteTimer cfg ctx) := by
  intro s
  unfold onEchoAbsoluteTimer
  split
  · rfl
  · exact Handler.Keeps.after (recheckAfterEcho_keeps ctx) rfl

end ViewState

/-! ### The engine -/

namespace AgbEngine

variable {cfg : Config K} {e : AgbEngine S}

def bodies (e : AgbEngine S) : ∀ u, Fixed S u × List (Body S u) := fun u => (e.state u).bodies

section

omit [LinearOrder K] [LinearOrder D]

theorem bodies_setState {view : ℕ} {s : ViewState S view} (h : s.bodies = (e.state view).bodies) :
    (e.setState view s).bodies = e.bodies := by
  funext u
  unfold bodies
  by_cases hu : u = view
  · subst hu
    rw [state_setState_self, h]
  · rw [state_setState_ne e s hu]

theorem onView_keeps {view : ℕ} {h : ViewCtx → Handler (ViewState S view) (Effect K D)}
    (hh : ∀ ctx, Handler.Keeps ViewState.bodies (h ctx)) :
    Handler.Keeps bodies (onView view h) := by
  intro e
  unfold onView
  split
  · rfl
  · exact bodies_setState (hh _ _)

theorem claimNonSkip_bodies (entry : ResolutionEntry K D) (e : AgbEngine S) :
    (e.claimNonSkip entry).bodies = e.bodies := by
  unfold claimNonSkip
  split
  · refine bodies_setState ?_
    split <;> rfl
  · rfl

end

theorem tryMetaOk_bodies (lm : Lanes K D) (w : ℕ) (entries : List (ResolutionEntry K D))
    (e : AgbEngine S) : (e.tryMetaOk cfg lm w entries).2.bodies = e.bodies := by
  have hclaim : ∀ (entries : List (ResolutionEntry K D)) (e : AgbEngine S),
      (entries.foldl (fun e entry => e.claimNonSkip entry) e).bodies = e.bodies := by
    intro entries
    induction entries with
    | nil => exact fun _ => rfl
    | cons entry rest ih => exact fun e => (ih _).trans (claimNonSkip_bodies entry e)
  unfold tryMetaOk
  split
  · rfl
  split
  · rfl
  split
  · rfl
  split
  · rfl
  · refine Eq.trans ?_ (hclaim entries e)
    exact bodies_setState rfl

theorem recheckGate_keeps (lm : Lanes K D) (view : ℕ) :
    Handler.Keeps (bodies (S := S)) (recheckGate cfg lm view) := by
  have hgate : ∀ (p : ProposalOut K D) (e : AgbEngine S),
      (e.positiveGateHolds cfg lm p).2.bodies = e.bodies := by
    intro p e
    unfold positiveGateHolds
    split
    · exact tryMetaOk_bodies lm _ _ e
    · rfl
  intro e
  unfold recheckGate
  split
  · rfl
  dsimp only
  split
  · rfl
  split
  · split
    · refine (onView_keeps (fun ctx s => ?_) _).trans (hgate _ e)
      exact Handler.Keeps.after (ViewState.recheckAfterEcho_keeps ctx) rfl
    · exact hgate _ e
  · rfl

theorem onEchoFallbackTimer_keeps (lm : Lanes K D) (view : ℕ) :
    Handler.Keeps (bodies (S := S)) (onEchoFallbackTimer cfg lm view) := by
  intro e
  unfold onEchoFallbackTimer
  split
  · rfl
  dsimp only
  split
  · rfl
  split
  · refine (onView_keeps (fun ctx s => ?_) _).trans ?_
    · exact Handler.Keeps.after (ViewState.recheckAfterEcho_keeps ctx) rfl
    · split
      · exact tryMetaOk_bodies lm _ _ e
      · rfl
  · rfl

theorem activate_keeps (lm : Lanes K D) (view : ℕ) :
    Handler.Keeps (bodies (S := S)) (activate cfg lm view) := by
  intro e
  unfold activate
  split
  · rfl
  dsimp only
  split
  · exact bodies_setState rfl
  · exact (recheckGate_keeps lm view _).trans (bodies_setState rfl)

theorem enter_keeps (lm : Lanes K D) (view now : ℕ) :
    Handler.Keeps (bodies (S := S)) (enter cfg lm view now) := by
  intro e
  unfold enter
  split
  · rfl
  dsimp only
  split
  · exact bodies_setState rfl
  · exact Handler.Keeps.after (activate_keeps lm view) (bodies_setState rfl)

theorem refuseUnproposedView_keeps (view : ℕ) :
    Handler.Keeps (bodies (S := S)) (refuseUnproposedView cfg view) := by
  intro e
  unfold refuseUnproposedView
  split
  · rfl
  · exact Handler.Keeps.seq (onView_keeps fun ctx => ViewState.onEchoAbsoluteTimer_keeps ctx)
      (onView_keeps fun ctx => ViewState.onReadyTimer_keeps ctx) e

theorem tryDirectResolutionVote_bodies (lm : Lanes K D) (entry : ResolutionEntry K D)
    (fresh : Bool) (e : AgbEngine S) :
    (e.tryDirectResolutionVote cfg lm entry fresh).2.bodies = e.bodies := by
  unfold tryDirectResolutionVote
  split
  · rfl
  split
  · rfl
  split
  · rfl
  split
  · rfl
  split
  · rfl
  · rfl
  · exact claimNonSkip_bodies entry e

end AgbEngine

/-- The calls that touch the bodies: proposals, by-value statements and pruning. -/
def AgbCall.isPlain : AgbCall K D → Bool
  | .propose .. => false
  | .echo _ => false
  | .ready _ => false
  | .gcBelow _ => false
  | _ => true

namespace AgbEngine

variable {cfg : Config K} {e : AgbEngine S}

theorem call_keeps {c : AgbCall K D} (hc : c.isPlain = true) :
    Handler.Keeps (bodies (S := S)) (call cfg c) := by
  cases c with
  | enter lm view now => exact enter_keeps lm view now
  | activate lm view => exact activate_keeps lm view
  | recheckAll lm =>
    intro e
    exact Handler.Keeps.forEach (fun view => recheckGate_keeps lm view) _
  | echoFallbackTimer lm view => exact onEchoFallbackTimer_keeps lm view
  | echoAbsoluteTimer view => exact onView_keeps fun ctx => ViewState.onEchoAbsoluteTimer_keeps ctx
  | readyTimer view => exact onView_keeps fun ctx => ViewState.onReadyTimer_keeps ctx
  | refuseUnproposedView view => exact refuseUnproposedView_keeps view
  | echoSkip view q => exact onView_keeps fun _ => ViewState.onEchoSkip_keeps q
  | noready view q => exact onView_keeps fun _ _ => rfl
  | skipVote view q => exact onView_keeps fun _ => ViewState.onSkipVote_keeps q
  | submitResolution view o => exact onView_keeps fun _ => ViewState.trySeal_keeps _ _
  | vote lm entry fresh => exact fun e => tryDirectResolutionVote_bodies lm entry fresh e
  | propose => cases hc
  | echo => cases hc
  | ready => cases hc
  | gcBelow => cases hc

end AgbEngine

end Vantage
