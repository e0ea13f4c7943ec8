import Vantage.Agb.Step

/-!
# The engine is a run of atomic steps

Every entry point of the engine, and every entry point of the digest-named statements, is a
finite run of `AgbEngine.Step`: one atomic step on the statements of one unpruned view at a
time, with all other views unchanged.  The statements of other parties enter only through the
`Inputs` of the view.

* `AgbEngine.onView_followsAt`: lifting a view handler;
* `AgbEngine.recheckGate_follows`, `…onEcho_follows`, …: the entry points;
* `DigestStatements.drain_follows`, `…onEchoDigest_follows`, …: the buffered statements.
-/

namespace Vantage

variable {K D : Type} [LinearOrder K] [LinearOrder D] {S : Session K D} {view : ℕ}

namespace AgbEngine

variable {cfg : Config K} {I : ∀ view, Inputs S view} {es : List (Effect K D)} {lm : Lanes K D}
  {entries : List (ResolutionEntry K D)} {entry : ResolutionEntry K D}
  {h : ViewCtx → Handler (ViewState S view) (Effect K D)}

/-- One atomic step on the statements of one unpruned view. -/
def Step (cfg : Config K) (I : ∀ view, Inputs S view) (e : AgbEngine S)
    (es : List (Effect K D)) (e' : AgbEngine S) : Prop :=
  ∃ view, e.isPruned view = false ∧
    StmtStep cfg (I view) (e.state view).toStatements es (e'.state view).toStatements ∧
    (∀ u, u ≠ view → (e'.state u).toStatements = (e.state u).toStatements) ∧
    e'.minLiveView = e.minLiveView

section

omit [LinearOrder K] [LinearOrder D]

@[simp] theorem state_setState_self (e : AgbEngine S) (view : ℕ) (s : ViewState S view) :
    (e.setState view s).state view = s := by
  simp [state, setState]

theorem state_setState_ne (e : AgbEngine S) {view u : ℕ} (s : ViewState S view) (h : u ≠ view) :
    (e.setState view s).state u = e.state u := by
  simp [state, setState, AList.lookup_insert_ne h]

theorem setState_setState (e : AgbEngine S) (view : ℕ) (s s' : ViewState S view) :
    (e.setState view s).setState view s' = e.setState view s' := by
  simp [setState, AList.insert_insert]

theorem isPruned_minLiveView (e : AgbEngine S) : e.isPruned e.minLiveView = false := by
  simp [isPruned]

end

theorem step_setState {e : AgbEngine S} {s : ViewState S view} (hp : e.isPruned view = false)
    (h : StmtStep cfg (I view) (e.state view).toStatements es s.toStatements) :
    Step cfg I e es (e.setState view s) := by
  refine ⟨view, hp, ?_, fun u hu => ?_, rfl⟩
  · rwa [state_setState_self]
  · rw [state_setState_ne e s hu]

theorem step_setState_quiet {e : AgbEngine S} {s : ViewState S view} (hp : e.isPruned view = false)
    (h : s.toStatements = (e.state view).toStatements) (hes : ∀ x ∈ es, x.isQuiet = true) :
    Step cfg I e es (e.setState view s) := by
  refine step_setState hp ?_
  rw [h]
  exact .quiet hes

theorem step_quiet {e e' : AgbEngine S}
    (h : ∀ u, (e'.state u).toStatements = (e.state u).toStatements)
    (hm : e'.minLiveView = e.minLiveView) (hes : ∀ x ∈ es, x.isQuiet = true) :
    Step cfg I e es e' := by
  refine ⟨e.minLiveView, isPruned_minLiveView e, ?_, fun u _ => h u, hm⟩
  rw [h]
  exact .quiet hes

theorem steps_minLiveView {e e' : AgbEngine S} (h : Steps (Step cfg I) e es e') :
    e'.minLiveView = e.minLiveView := by
  induction h with
  | refl => rfl
  | step hr _ ih =>
    obtain ⟨_, _, _, _, hm⟩ := hr
    rw [ih, hm]

theorem steps_isPruned {e e' : AgbEngine S} (h : Steps (Step cfg I) e es e') (view : ℕ) :
    e'.isPruned view = e.isPruned view := by
  rw [isPruned, isPruned, steps_minLiveView h]

theorem steps_lift {s s' : ViewState S view} (h : Steps (ViewState.Step cfg (I view)) s es s')
    {e : AgbEngine S} (hp : e.isPruned view = false) (hs : e.state view = s) :
    Steps (Step cfg I) e es (e.setState view s') := by
  induction h generalizing e with
  | refl s =>
    subst hs
    exact .single (step_setState_quiet hp rfl Effect.quiet_nil)
  | @step s t s' es es' hr _ ih =>
    subst hs
    rw [← setState_setState e view t s']
    exact .step (step_setState hp hr) (ih hp (state_setState_self e view t))

theorem onView_followsAt {e : AgbEngine S}
    (hh : ∀ ctx, Handler.FollowsAt (ViewState.Step cfg (I view)) (h ctx) (e.state view)) :
    Handler.FollowsAt (Step cfg I) (onView view h) e := by
  unfold Handler.FollowsAt onView
  split
  · exact .refl e
  · next hp => exact steps_lift (hh _) (by simpa using hp) rfl

theorem onView_follows (hh : ∀ ctx, Handler.Follows (ViewState.Step cfg (I view)) (h ctx)) :
    Handler.Follows (Step cfg I) (onView view h) := fun _ => onView_followsAt fun ctx => hh ctx _

/-! ### Gates -/

theorem steps_claimNonSkip {e : AgbEngine S} (hp : e.isPruned entry.targetView = false) :
    Steps (Step cfg I) e [] (e.claimNonSkip entry) := by
  unfold claimNonSkip
  split
  · dsimp only
    split
    · next hf => exact .single (step_setState hp (.claimNonSkip hf))
    · exact .single (step_setState_quiet hp rfl Effect.quiet_nil)
  · exact .refl e

omit [LinearOrder K] [LinearOrder D] in
theorem isPruned_claimNonSkip (e : AgbEngine S) (entry : ResolutionEntry K D) (u : ℕ) :
    (e.claimNonSkip entry).isPruned u = e.isPruned u := by
  unfold claimNonSkip
  split <;> rfl

theorem steps_claimAll {e : AgbEngine S}
    (hp : ∀ entry ∈ entries, e.isPruned entry.targetView = false) :
    Steps (Step cfg I) e [] (entries.foldl (fun e entry => e.claimNonSkip entry) e) := by
  induction entries generalizing e with
  | nil => exact .refl e
  | cons entry rest ih =>
    refine (steps_claimNonSkip (hp entry List.mem_cons_self)).trans (ih fun x hx => ?_)
    rw [isPruned_claimNonSkip]
    exact hp x (List.mem_cons_of_mem _ hx)

theorem metaEntryStatus_ok_unpruned {e : AgbEngine S} (h : e.metaEntryStatus cfg lm entry = .ok) :
    e.isPruned entry.targetView = false := by
  unfold metaEntryStatus at h
  split at h
  · cases h
  · next hp => simpa using hp

theorem steps_tryMetaOk {w : ℕ} {e : AgbEngine S} (hw : e.isPruned w = false) :
    Steps (Step cfg I) e [] (e.tryMetaOk cfg lm w entries).2 := by
  unfold tryMetaOk
  split
  · exact .refl e
  split
  · exact .refl e
  split
  · exact .refl e
  split
  · exact .refl e
  · next hok =>
    simp only [Bool.not_eq_true', Bool.not_eq_false, List.all_eq_true, decide_eq_true_eq] at hok
    have hall : Steps (Step cfg I) e [] _ :=
      steps_claimAll fun entry hentry => metaEntryStatus_ok_unpruned (hok entry hentry)
    refine hall.trans (.single (step_setState_quiet ?_ rfl Effect.quiet_nil))
    rw [steps_isPruned hall, hw]

theorem steps_positiveGateHolds {p : ProposalOut K D} {e : AgbEngine S}
    (hw : e.isPruned p.view = false) :
    Steps (Step cfg I) e [] (e.positiveGateHolds cfg lm p).2 := by
  unfold positiveGateHolds
  split
  · exact steps_tryMetaOk hw
  · exact .refl e

omit [LinearOrder K] [LinearOrder D] in
theorem claimNonSkip_echoSent (e : AgbEngine S) (entry : ResolutionEntry K D) (u : ℕ) :
    ((e.claimNonSkip entry).state u).echoSent = (e.state u).echoSent := by
  unfold claimNonSkip
  split
  · by_cases hu : u = entry.targetView
    · subst hu
      rw [state_setState_self]
      split <;> rfl
    · rw [state_setState_ne _ _ hu]
  · rfl

omit [LinearOrder K] [LinearOrder D] in
theorem claimAll_echoSent (entries : List (ResolutionEntry K D)) (e : AgbEngine S) (u : ℕ) :
    ((entries.foldl (fun e entry => e.claimNonSkip entry) e).state u).echoSent =
      (e.state u).echoSent := by
  induction entries generalizing e with
  | nil => rfl
  | cons entry rest ih => rw [List.foldl_cons, ih, claimNonSkip_echoSent]

theorem tryMetaOk_echoSent {w : ℕ} (e : AgbEngine S) (u : ℕ) :
    (((e.tryMetaOk cfg lm w entries).2).state u).echoSent = (e.state u).echoSent := by
  unfold tryMetaOk
  split
  · rfl
  split
  · rfl
  split
  · rfl
  split
  · rfl
  · dsimp only
    by_cases hu : u = w
    · subst hu
      rw [state_setState_self]
      exact claimAll_echoSent entries e u
    · rw [state_setState_ne _ _ hu, claimAll_echoSent]

theorem positiveGateHolds_echoSent {p : ProposalOut K D} (e : AgbEngine S) (u : ℕ) :
    (((e.positiveGateHolds cfg lm p).2).state u).echoSent = (e.state u).echoSent := by
  unfold positiveGateHolds
  split
  · exact tryMetaOk_echoSent e u
  · rfl

/-! ### The own echo -/

theorem recheckGate_follows (lm : Lanes K D) (view : ℕ) :
    Handler.Follows (Step cfg I) (recheckGate cfg lm view) := by
  intro e
  unfold Handler.FollowsAt recheckGate
  split
  · exact .refl e
  next hp =>
  have hp : e.isPruned view = false := by simpa using hp
  dsimp only
  split
  · exact .refl e
  next hs =>
  have hs : (e.state view).echoSent = false := by
    simp only [Bool.or_eq_true, not_or, Bool.not_eq_true] at hs
    exact hs.2
  split
  · next b hb =>
    have hg : Steps (Step cfg I) e [] (e.positiveGateHolds cfg lm b.proposal).2 :=
      steps_positiveGateHolds (by rw [b.view_eq]; exact hp)
    split
    · refine hg.trans (onView_followsAt fun ctx => ViewState.emitPositiveEcho_followsAt ?_)
      rw [positiveGateHolds_echoSent, hs]
    · exact hg
  · exact .refl e

theorem recheckAll_follows (lm : Lanes K D) :
    Handler.Follows (Step cfg I) (recheckAll cfg lm) := by
  intro e
  unfold Handler.FollowsAt recheckAll
  have hq : Step cfg I e [] { e with
      recheckCursor := ((recheckWindow ((e.views.keys.mergeSort fun a b => decide (a ≤ b)).filter
        fun v => (e.state v).pendingGate) e.recheckCursor recheckBudget).getLast?).elim
          e.recheckCursor (· + 1) } :=
    step_quiet (fun _ => rfl) rfl Effect.quiet_nil
  exact Steps.step hq (Handler.Follows.forEach (fun view _ => recheckGate_follows lm view) _)

theorem onEchoFallbackTimer_follows (lm : Lanes K D) (view : ℕ) :
    Handler.Follows (Step cfg I) (onEchoFallbackTimer cfg lm view) := by
  intro e
  unfold Handler.FollowsAt onEchoFallbackTimer
  split
  · exact .refl e
  next hp =>
  have hp : e.isPruned view = false := by simpa using hp
  dsimp only
  split
  · exact .refl e
  next hs =>
  have hs : (e.state view).echoSent = false := by simpa using hs
  split
  · next b hb =>
    split
    · refine (steps_tryMetaOk hp).trans
        (onView_followsAt fun ctx => ViewState.emitFallbackEcho_followsAt ?_)
      rw [tryMetaOk_echoSent, hs]
    · exact onView_followsAt fun ctx => ViewState.emitFallbackEcho_followsAt hs
  · exact .refl e

/-! ### Entering and proposing -/

theorem activate_follows (lm : Lanes K D) (view : ℕ) :
    Handler.Follows (Step cfg I) (activate cfg lm view) := by
  intro e
  unfold Handler.FollowsAt activate
  split
  · exact .refl e
  next hp =>
  have hp : e.isPruned view = false := by simpa using hp
  dsimp only
  split
  · exact .single (step_setState_quiet hp rfl Effect.quiet_nil)
  · refine .silent ?_ (recheckGate_follows lm view _)
    exact step_setState_quiet hp rfl Effect.quiet_nil

theorem enter_follows (lm : Lanes K D) (view now : ℕ) :
    Handler.Follows (Step cfg I) (enter cfg lm view now) := by
  intro e
  unfold Handler.FollowsAt enter
  split
  · exact .refl e
  next hp =>
  have hp : e.isPruned view = false := by simpa using hp
  dsimp only
  split
  · exact .single (step_setState_quiet hp rfl Effect.quiet_nil)
  · refine Handler.FollowsAt.after (.single (step_setState_quiet hp rfl fun x hx => ?_))
      (activate_follows lm view _)
    simp only [List.mem_append, List.mem_cons, List.not_mem_nil, or_false] at hx
    rcases hx with (rfl | rfl) | hx
    · rfl
    · rfl
    · split at hx
      · obtain rfl := List.mem_singleton.mp hx
        rfl
      · cases hx

theorem onProposeAny_follows (lm : Lanes K D) (sender : K) (p : ProposalOut K D) (now : ℕ) :
    Handler.Follows (Step cfg I) (onProposeAny cfg lm sender p now) := by
  intro e
  unfold Handler.FollowsAt onProposeAny
  dsimp only
  split
  · exact .refl e
  next hp =>
  have hp : e.isPruned p.view = false := by
    simp only [not_or, Bool.not_eq_true] at hp
    exact hp.1
  split
  · exact .single (step_setState_quiet hp rfl Effect.quiet_nil)
  split
  · split
    · refine Handler.FollowsAt.after (.single (step_setState_quiet hp ?_ fun x hx => ?_))
        (recheckGate_follows lm p.view _)
      · exact ViewState.canonicalProposal_toStatements p rfl _
      · simp only [List.mem_append, List.mem_map, List.mem_singleton] at hx
        rcases hx with (⟨r, -, rfl⟩ | rfl) | ⟨t, -, rfl⟩ <;> rfl
    · refine .single (step_setState_quiet hp rfl fun x hx => ?_)
      obtain rfl := List.mem_singleton.mp hx
      rfl
  · exact .single (step_setState_quiet hp rfl Effect.quiet_nil)

theorem refuseUnproposedView_follows (view : ℕ) :
    Handler.Follows (Step cfg I) (refuseUnproposedView cfg view) := by
  intro e
  unfold Handler.FollowsAt refuseUnproposedView
  split
  · exact .refl e
  · exact Handler.Follows.seq (onView_follows fun ctx => ViewState.onEchoAbsoluteTimer_follows ctx)
      (onView_follows fun ctx => ViewState.onReadyTimer_follows ctx) e

/-! ### Statements of other parties -/

def AllowsEcho (I : ∀ view, Inputs S view) (echo : EchoOut K D) : Prop :=
  ∀ b : Body S echo.proposalOut.view, b.proposal = echo.proposalOut → echo.grade ≤ 1 →
    (I echo.proposalOut.view).echo echo.sender (.graded b echo.grade echo.originVec)

def AllowsReady (I : ∀ view, Inputs S view) (ready : ReadyOut K D) : Prop :=
  ∀ b : Body S ready.proposalOut.view, b.proposal = ready.proposalOut →
    (I ready.proposalOut.view).ready ready.sender (.graded b ready.grade)

theorem onEchoAny_follows {echo : EchoOut K D} (h : AllowsEcho I echo) :
    Handler.Follows (Step cfg I) (onEchoAny cfg echo) := by
  intro e
  unfold onEchoAny
  split
  · next hg =>
    refine onView_followsAt fun ctx => ?_
    refine ViewState.steps_congr (ViewState.canonicalProposal_toStatements _ rfl _)
      (ViewState.onEchoStatement_follows (h _ ?_ hg) _)
    exact ViewState.canonicalProposal_proposal _ rfl _
  · exact Handler.followsAt_skip e

omit [LinearOrder D] in
theorem claimEffects_quiet {w grade : ℕ} {sender : K} {formed : Bool}
    {avail : Option AvailClaim} {refs : List (BlockRef K D)} (e : AgbEngine S) :
    ∀ x ∈ e.claimEffects cfg w grade sender formed avail refs, x.isQuiet = true := by
  intro x hx
  unfold claimEffects at hx
  split at hx
  · dsimp only at hx
    split at hx
    · cases hx
    · rcases List.mem_cons.mp hx with rfl | hx
      · rfl
      · obtain ⟨cl, -, rfl⟩ := List.mem_map.mp hx
        rfl
  · cases hx

theorem onEcho_follows {echo : Echo K D} (h : AllowsEcho I (.single echo)) :
    Handler.Follows (Step cfg I) (onEcho cfg echo) := fun e =>
  Handler.FollowsAt.after
    (.single (step_quiet (fun _ => rfl) rfl (claimEffects_quiet e))) (onEchoAny_follows h e)

theorem onEchoBatch_follows {echo : EchoBatch K D} (h : AllowsEcho I (.batch echo)) :
    Handler.Follows (Step cfg I) (onEchoBatch cfg echo) := fun e =>
  Handler.FollowsAt.after
    (.single (step_quiet (fun _ => rfl) rfl (claimEffects_quiet e))) (onEchoAny_follows h e)

theorem onReadyAny_follows {ready : ReadyOut K D} (h : AllowsReady I ready) :
    Handler.Follows (Step cfg I) (onReadyAny cfg ready) := by
  intro e
  refine onView_followsAt fun ctx => ?_
  refine ViewState.steps_congr (ViewState.canonicalProposal_toStatements _ rfl _)
    (ViewState.onReadyStatement_follows (h _ ?_) _)
  exact ViewState.canonicalProposal_proposal _ rfl _

theorem onEchoSkip_follows {q : K} (h : (I view).echo q .skip) :
    Handler.Follows (Step cfg I) (onEchoSkip cfg view q) :=
  onView_follows fun _ => ViewState.onEchoSkip_follows h

theorem onNoready_follows {q : K} (h : (I view).ready q .noReady) :
    Handler.Follows (Step cfg I) (onNoready cfg view q) :=
  onView_follows fun _ => ViewState.onNoready_follows h

theorem onSkipVote_follows {q : K} (h : (I view).skipVote q) :
    Handler.Follows (Step cfg I) (onSkipVote cfg view q) :=
  onView_follows fun _ => ViewState.onSkipVote_follows h

theorem submitResolution_follows {o : Outcome K D} (h : (I view).resolved o) :
    Handler.Follows (Step cfg I) (submitResolution view o) :=
  onView_follows fun _ => ViewState.submitResolution_follows h

theorem onEchoAbsoluteTimer_follows (view : ℕ) :
    Handler.Follows (Step cfg I) (onEchoAbsoluteTimer cfg view) :=
  onView_follows fun ctx => ViewState.onEchoAbsoluteTimer_follows ctx

theorem onReadyTimer_follows (view : ℕ) :
    Handler.Follows (Step cfg I) (onReadyTimer cfg view) :=
  onView_follows fun ctx => ViewState.onReadyTimer_follows ctx

theorem steps_tryDirectResolutionVote {fresh : Bool} (e : AgbEngine S) :
    Steps (Step cfg I) e [] (e.tryDirectResolutionVote cfg lm entry fresh).2 := by
  unfold tryDirectResolutionVote
  split
  · exact .refl e
  next hp =>
  split
  · exact .refl e
  split
  · exact .refl e
  split
  · exact .refl e
  split
  · exact .refl e
  · exact .refl e
  · exact steps_claimNonSkip (by simpa using hp)

end AgbEngine

/-! ### Digest-named statements -/

namespace DigestStatements

variable {cfg : Config K} {I : ∀ view, Inputs S view} {ds : DigestStatements S}

/-- Whatever body a buffered statement turns out to name, the inputs contain it. -/
structure Sound (I : ∀ view, Inputs S view) (ds : DigestStatements S) : Prop where
  echo : ∀ view q b, (ds.echoesAt view).lookup q = some b → ∀ p,
    (ProposalOut.single p).digest S = b.digest → AgbEngine.AllowsEcho I (.single (echoOf p (q, b)))
  ready : ∀ view q b, (ds.readiesAt view).lookup q = some b → ∀ p,
    (ProposalOut.single p).digest S = b.digest →
      AgbEngine.AllowsReady I (.single (readyOf p (q, b)))

theorem mem_dueEchoes {digest : D} {x : K × BufferedEcho D} (hx : x ∈ ds.dueEchoes view digest) :
    (ds.echoesAt view).lookup x.1 = some x.2 ∧ x.2.digest = digest := by
  obtain ⟨q, -, hq⟩ := List.mem_filterMap.mp hx
  obtain ⟨b, hb, hd⟩ := Option.bind_eq_some_iff.mp hq
  split at hd
  · next h => cases hd; exact ⟨hb, h⟩
  · cases hd

theorem mem_dueReadies {digest : D} {x : K × BufferedReady D} (hx : x ∈ ds.dueReadies view digest) :
    (ds.readiesAt view).lookup x.1 = some x.2 ∧ x.2.digest = digest := by
  obtain ⟨q, -, hq⟩ := List.mem_filterMap.mp hx
  obtain ⟨b, hb, hd⟩ := Option.bind_eq_some_iff.mp hq
  split at hd
  · next h => cases hd; exact ⟨hb, h⟩
  · cases hd

theorem drain_steps (hds : ds.Sound I) (agb : AgbEngine S) {digest : D} {p : ViewProposal K D}
    (hp : (ProposalOut.single p).digest S = digest) :
    Steps (AgbEngine.Step cfg I) agb (drain cfg view digest p (ds, agb)).2
      (drain cfg view digest p (ds, agb)).1.2 := by
  refine Handler.Follows.seq (Handler.Follows.forEach fun x hx => ?_)
    (Handler.Follows.forEach fun x hx => ?_) agb
  · obtain ⟨hl, hd⟩ := mem_dueEchoes hx
    exact AgbEngine.onEcho_follows (hds.echo view x.1 x.2 hl p (hp.trans hd.symm))
  · obtain ⟨hl, hd⟩ := mem_dueReadies hx
    exact AgbEngine.onReadyAny_follows (hds.ready view x.1 x.2 hl p (hp.trans hd.symm))

section Buckets

variable {β : Type} {m : Table ℕ (Table K β)}

omit [LinearOrder D] in
theorem lookup_foldl_erase {bucket : Table K β} {senders : List K} {q : K} {b : β}
    (h : (senders.foldl (fun m k => m.erase k) bucket).lookup q = some b) :
    bucket.lookup q = some b := by
  induction senders generalizing bucket with
  | nil => exact h
  | cons k rest ih =>
    have h' := ih h
    by_cases hq : q = k
    · subst hq
      rw [AList.lookup_erase] at h'
      cases h'
    · rwa [AList.lookup_erase_ne hq] at h'

theorem lookup_removeSenders {view u : ℕ} {senders : List K} {q : K} {b : β}
    (h : (((removeSenders m view senders).lookup u).getD ∅).lookup q = some b) :
    ((m.lookup u).getD ∅).lookup q = some b := by
  unfold removeSenders at h
  split at h
  · exact h
  next bucket hb =>
  dsimp only at h
  split at h
  · by_cases hu : u = view
    · subst hu
      rw [AList.lookup_erase] at h
      simp at h
    · rwa [AList.lookup_erase_ne hu] at h
  · by_cases hu : u = view
    · subst hu
      rw [AList.lookup_insert] at h
      rw [hb]
      exact lookup_foldl_erase h
    · rwa [AList.lookup_insert_ne hu] at h

theorem lookup_insert_bucket {view u : ℕ} {bucket : Table K β} {q : K} {b : β}
    (h : (((m.insert view bucket).lookup u).getD ∅).lookup q = some b) :
    (u = view ∧ bucket.lookup q = some b) ∨ ((m.lookup u).getD ∅).lookup q = some b := by
  by_cases hu : u = view
  · subst hu
    rw [AList.lookup_insert] at h
    exact .inl ⟨rfl, h⟩
  · rw [AList.lookup_insert_ne hu] at h
    exact .inr h

theorem lookup_gc {views : List ℕ} {u : ℕ} {q : K} {b : β}
    (h : (((views.foldl (fun m v => m.erase v) m).lookup u).getD ∅).lookup q = some b) :
    ((m.lookup u).getD ∅).lookup q = some b := by
  induction views generalizing m with
  | nil => exact h
  | cons v rest ih =>
    have h' := ih h
    by_cases hu : u = v
    · subst hu
      rw [AList.lookup_erase] at h'
      simp at h'
    · rwa [AList.lookup_erase_ne hu] at h'

end Buckets

omit [LinearOrder D] in
theorem Sound.of_lookup {ds ds' : DigestStatements S} (h : ds.Sound I)
    (he : ∀ view q b, (ds'.echoesAt view).lookup q = some b →
      (ds.echoesAt view).lookup q = some b)
    (hr : ∀ view q b, (ds'.readiesAt view).lookup q = some b →
      (ds.readiesAt view).lookup q = some b) : ds'.Sound I where
  echo view q b hb := h.echo view q b (he view q b hb)
  ready view q b hb := h.ready view q b (hr view q b hb)

theorem ensureFetch_buffers (view : ℕ) (digest : D) (now : ℕ) (ds : DigestStatements S) :
    (ensureFetch cfg view digest now ds).1.bufferedEcho = ds.bufferedEcho ∧
      (ensureFetch cfg view digest now ds).1.bufferedReady = ds.bufferedReady := by
  unfold ensureFetch
  split
  · exact ⟨rfl, rfl⟩
  dsimp only
  split
  · split
    · exact ⟨rfl, rfl⟩
    · split
      · exact ⟨rfl, rfl⟩
      · split <;> exact ⟨rfl, rfl⟩
  · split <;> exact ⟨rfl, rfl⟩

theorem ensureFetch_quiet (view : ℕ) (digest : D) (now : ℕ) (ds : DigestStatements S) :
    ∀ x ∈ (ensureFetch cfg view digest now ds).2, x.isQuiet = true := by
  intro x hx
  have hfetch : ∀ targets : List K,
      x ∈ targets.map (fun peer => Effect.bodyFetchTo peer view digest) → x.isQuiet = true := by
    intro targets h
    obtain ⟨peer, -, rfl⟩ := List.mem_map.mp h
    rfl
  unfold ensureFetch at hx
  split at hx
  · cases hx
  dsimp only at hx
  split at hx
  · split at hx
    · cases hx
    · split at hx
      · cases hx
      · split at hx
        · cases hx
        · exact hfetch _ hx
  · split at hx
    · cases hx
    · exact hfetch _ hx

omit [LinearOrder D] in
theorem Sound.of_buffers {ds ds' : DigestStatements S} (h : ds.Sound I)
    (he : ds'.bufferedEcho = ds.bufferedEcho) (hr : ds'.bufferedReady = ds.bufferedReady) :
    ds'.Sound I :=
  h.of_lookup (fun view q b hb => by rwa [echoesAt, he] at hb)
    (fun view q b hb => by rwa [readiesAt, hr] at hb)

theorem Sound.ensureFetch (h : ds.Sound I) (view : ℕ) (digest : D) (now : ℕ) :
    ((ensureFetch cfg view digest now ds).1).Sound I :=
  h.of_buffers (ensureFetch_buffers view digest now ds).1 (ensureFetch_buffers view digest now ds).2

theorem Sound.drain (h : ds.Sound I) (agb : AgbEngine S) (view : ℕ) (digest : D)
    (p : ViewProposal K D) :
    ((drain cfg view digest p (ds, agb)).1.1).Sound I :=
  h.of_lookup (fun _ _ _ hb => lookup_removeSenders hb) (fun _ _ _ hb => lookup_removeSenders hb)

theorem Sound.gcBelow (h : ds.Sound I) (floor : ℕ) :
    (ds.gcBelow floor).Sound I := by
  unfold DigestStatements.gcBelow
  split
  · exact h
  · exact h.of_lookup (fun _ _ _ hb => lookup_gc hb) (fun _ _ _ hb => lookup_gc hb)

omit [LinearOrder K] in
theorem resolveBody_buffers (view : ℕ) (digest : D) (agb : AgbEngine S)
    (ds : DigestStatements S) :
    (ds.resolveBody view digest agb).1.bufferedEcho = ds.bufferedEcho ∧
      (ds.resolveBody view digest agb).1.bufferedReady = ds.bufferedReady := by
  unfold resolveBody
  split
  · exact ⟨rfl, rfl⟩
  · split <;> exact ⟨rfl, rfl⟩

/-- A digest-named echo is allowed if every body it may name is. -/
def AllowsEchoDigest (I : ∀ view, Inputs S view) (msg : EchoDigest K D) : Prop :=
  ∀ p : ViewProposal K D, (ProposalOut.single p).digest S = msg.digest → ∀ avail,
    AgbEngine.AllowsEcho I (.single ⟨p, msg.grade, msg.sender, msg.origin, avail⟩)

/-- A digest-named ready is allowed if every body it may name is. -/
def AllowsReadyDigest (I : ∀ view, Inputs S view) (msg : ReadyDigest K D) : Prop :=
  ∀ p : ViewProposal K D, (ProposalOut.single p).digest S = msg.digest →
    AgbEngine.AllowsReady I (.single ⟨p, msg.grade, msg.sender⟩)

theorem Sound.bufferEcho (h : ds.Sound I) {msg : EchoDigest K D} (hm : AllowsEchoDigest I msg)
    (now : ℕ) : ((bufferEcho cfg msg now ds).1).Sound I := by
  have hstore : ∀ bucket : Table K (BufferedEcho D),
      (∀ q b, bucket.lookup q = some b → (ds.echoesAt msg.view).lookup q = some b ∨
        (q = msg.sender ∧ b = ⟨msg.digest, msg.grade, msg.origin, msg.avail⟩)) →
      ({ ds with bufferedEcho := ds.bufferedEcho.insert msg.view bucket }).Sound I := by
    intro bucket hb
    refine ⟨fun view q b hl p hp => ?_, h.ready⟩
    rcases lookup_insert_bucket hl with ⟨rfl, hl'⟩ | hl'
    · rcases hb q b hl' with hl' | ⟨rfl, rfl⟩
      · exact h.echo _ q b hl' p hp
      · exact hm p hp msg.avail
    · exact h.echo view q b hl' p hp
  unfold DigestStatements.bufferEcho
  dsimp only
  split
  · exact hstore _ fun q b hb => .inl hb
  · refine (hstore _ fun q b hb => ?_).ensureFetch _ _ _
    by_cases hq : q = msg.sender
    · subst hq
      rw [AList.lookup_insert] at hb
      exact .inr ⟨rfl, (Option.some.inj hb).symm⟩
    · rw [AList.lookup_insert_ne hq] at hb
      exact .inl hb

theorem Sound.bufferReady (h : ds.Sound I) {msg : ReadyDigest K D} (hm : AllowsReadyDigest I msg)
    (now : ℕ) :
    ((bufferReady cfg msg.view msg.digest msg.sender msg.grade now ds).1).Sound I := by
  have hstore : ∀ bucket : Table K (BufferedReady D),
      (∀ q b, bucket.lookup q = some b → (ds.readiesAt msg.view).lookup q = some b ∨
        (q = msg.sender ∧ b = ⟨msg.digest, msg.grade⟩)) →
      ({ ds with bufferedReady := ds.bufferedReady.insert msg.view bucket }).Sound I := by
    intro bucket hb
    refine ⟨h.echo, fun view q b hl p hp => ?_⟩
    rcases lookup_insert_bucket hl with ⟨rfl, hl'⟩ | hl'
    · rcases hb q b hl' with hl' | ⟨rfl, rfl⟩
      · exact h.ready _ q b hl' p hp
      · exact hm p hp
    · exact h.ready view q b hl' p hp
  unfold DigestStatements.bufferReady
  dsimp only
  split
  · refine (hstore _ fun q b hb => ?_).ensureFetch _ _ _
    by_cases hq : q = msg.sender
    · subst hq
      rw [AList.lookup_insert] at hb
      exact .inr ⟨rfl, (Option.some.inj hb).symm⟩
    · rw [AList.lookup_insert_ne hq] at hb
      exact .inl hb
  · exact hstore _ fun q b hb => .inl hb

/-- What a handler of the digest-named statements does to the engine is a run of its steps,
and the buffers stay sound. -/
structure Runs (cfg : Config K) (I : ∀ view, Inputs S view) (x : DigestStatements S × AgbEngine S)
    (r : (DigestStatements S × AgbEngine S) × List (Effect K D)) : Prop where
  steps : Steps (AgbEngine.Step cfg I) x.2 r.2 r.1.2
  sound : r.1.1.Sound I

theorem Runs.idle {ds₀ ds : DigestStatements S} (h : ds.Sound I) (agb : AgbEngine S) :
    Runs cfg I (ds₀, agb) ((ds, agb), []) := ⟨.refl agb, h⟩

theorem onEchoDigest_runs (h : ds.Sound I) (agb : AgbEngine S) {msg : EchoDigest K D}
    (hm : AllowsEchoDigest I msg) (now : ℕ) :
    Runs cfg I (ds, agb) (onEchoDigest cfg msg now (ds, agb)) := by
  unfold onEchoDigest
  dsimp only
  split
  · exact .idle h agb
  have hb := resolveBody_buffers msg.view msg.digest agb ds
  split
  · next ds' p hr =>
    rw [hr] at hb
    exact ⟨AgbEngine.onEcho_follows (hm p.1 p.2 _) agb, h.of_buffers hb.1 hb.2⟩
  · next ds' hr =>
    rw [hr] at hb
    refine ⟨.single (AgbEngine.step_quiet (fun _ => rfl) rfl ?_),
      (h.of_buffers hb.1 hb.2).bufferEcho hm now⟩
    unfold besideAgb bufferEcho
    dsimp only
    split
    · exact Effect.quiet_nil
    · exact ensureFetch_quiet _ _ _ _

theorem onReadyDigest_runs (h : ds.Sound I) (agb : AgbEngine S) {msg : ReadyDigest K D}
    (hm : AllowsReadyDigest I msg) (now : ℕ) :
    Runs cfg I (ds, agb) (onReadyDigest cfg msg now (ds, agb)) := by
  unfold onReadyDigest
  dsimp only
  split
  · exact .idle h agb
  have hb := resolveBody_buffers msg.view msg.digest agb ds
  split
  · next ds' p hr =>
    rw [hr] at hb
    exact ⟨AgbEngine.onReadyAny_follows (hm p.1 p.2) agb, h.of_buffers hb.1 hb.2⟩
  · next ds' hr =>
    rw [hr] at hb
    refine ⟨.single (AgbEngine.step_quiet (fun _ => rfl) rfl ?_),
      (h.of_buffers hb.1 hb.2).bufferReady hm now⟩
    unfold besideAgb bufferReady
    dsimp only
    split
    · exact ensureFetch_quiet _ _ _ _
    · exact Effect.quiet_nil

theorem onLocalFixed_runs (h : ds.Sound I) (agb : AgbEngine S) (view : ℕ) :
    Runs cfg I (ds, agb) (onLocalFixed cfg view (ds, agb)) := by
  unfold onLocalFixed
  dsimp only
  split
  · exact .idle h agb
  next b _ =>
  have hb := resolveBody_buffers view b.digest agb ds
  split
  · next ds' p hr =>
    rw [hr] at hb
    have h' := h.of_buffers hb.1 hb.2
    exact ⟨drain_steps h' agb p.2, h'.drain agb view b.digest p.1⟩
  · next ds' hr =>
    rw [hr] at hb
    exact .idle (h.of_buffers hb.1 hb.2) agb

theorem onBodyFetch_runs (h : ds.Sound I) (agb : AgbEngine S) (requester : K) (view : ℕ)
    (digest : D) :
    Runs cfg I (ds, agb) (onBodyFetch requester view digest (ds, agb)) := by
  unfold onBodyFetch
  dsimp only
  split
  · exact .idle h agb
  split
  · exact .idle h agb
  · refine ⟨.single (AgbEngine.step_quiet (fun _ => rfl) rfl fun x hx => ?_),
      h.of_buffers rfl rfl⟩
    obtain rfl := List.mem_singleton.mp hx
    rfl

theorem onBodyServe_runs (h : ds.Sound I) (agb : AgbEngine S) (view : ℕ) (p : ViewProposal K D) :
    Runs cfg I (ds, agb) (onBodyServe cfg view p (ds, agb)) := by
  unfold onBodyServe
  dsimp only
  split
  · exact .idle h agb
  split
  · exact .idle h agb
  split
  · have h' : ({ ds with
        knownBodies := ds.knownBodies.insert (view, (ProposalOut.single p).digest S) ⟨p, rfl⟩
        } : DigestStatements S).Sound I := h.of_buffers rfl rfl
    exact ⟨drain_steps h' agb rfl, h'.drain agb view _ p⟩
  · exact .idle h agb

theorem retryFetches_runs (h : ds.Sound I) (agb : AgbEngine S) (now : ℕ) :
    Runs cfg I (ds, agb) (besideAgb (retryFetches cfg now) (ds, agb)) := by
  have hall : ∀ (keys : List (ℕ × D)) (ds : DigestStatements S), ds.Sound I →
      ((Handler.forEach keys fun key => ensureFetch cfg key.1 key.2 now) ds).1.Sound I ∧
      ∀ x ∈ ((Handler.forEach keys fun key => ensureFetch cfg key.1 key.2 now) ds).2,
        x.isQuiet = true := by
    intro keys
    induction keys with
    | nil => exact fun ds h => ⟨h, Effect.quiet_nil⟩
    | cons key rest ih =>
      intro ds h
      obtain ⟨h1, h2⟩ := ih _ (h.ensureFetch key.1 key.2 now)
      refine ⟨h1, fun x hx => ?_⟩
      rcases List.mem_append.mp hx with hx | hx
      · exact ensureFetch_quiet _ _ _ _ x hx
      · exact h2 x hx
  obtain ⟨h1, h2⟩ := hall _ ds h
  exact ⟨.single (AgbEngine.step_quiet (fun _ => rfl) rfl h2), h1⟩

end DigestStatements

end Vantage
