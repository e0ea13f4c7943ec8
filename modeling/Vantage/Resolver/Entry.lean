import Vantage.Resolver.Phases

/-!
# The entry points of the resolver are runs of atomic steps

Messages may be handled when the inputs allow them, and an acceptance when the caller gave it.

* `TargetState.…_follows`: the entry points of one target;
* `DirectResolver.Step`, `DirectResolver.…_follows`: the entry points of the resolver.
-/

namespace Vantage

variable {K D : Type} [LinearOrder K] [LinearOrder D] [Inhabited D] {S : Session K D}
  {target : ℕ}

namespace TargetState

variable {cfg : ResolverConfig K D} {I : ResolverInputs K D}
  {s s' : TargetState S cfg.committee target} {i : DirectInstance K D}
  {es : List (DirectResolutionEffect K D)} {st : DirectViewState K D}

/-! ### View entry -/

omit [LinearOrder D] in
theorem core_enter (i : DirectInstance K D) (view : ℕ) (m : DirectResolutionProof K D)
    (suggestions : Table K (DirectResolutionSuggest K D)) (name : K) :
    DirectInstance.core
      { i with
        enteredThrough := view
        currentView := view
        views := i.views.insert view
          { (i.views.lookup view).getD {} with
            suggestions := suggestions
            proofs := ((i.views.lookup view).getD {}).proofs.insert name m } } =
      InstCore.setBallot { i.core with enteredThrough := view, currentView := view } view
        { i.core.ballots view with proofs := (i.core.ballots view).proofs.insert name m } := by
  rw [ballots_getD]
  unfold DirectInstance.core InstCore.setBallot
  rw [ballotsOf_insert]

theorem enterView_follows (fuel view : ℕ) :
    Handler.Follows (Step cfg I) (enterView cfg fuel view : TargetHandler S cfg target) := by
  intro s
  unfold Handler.FollowsAt enterView
  cases hi : s.inst with
  | none => exact .refl s
  | some i =>
    dsimp only
    split
    · exact .refl s
    next hv =>
    refine Handler.FollowsAt.after ?_
      ((((tryPrimaryPropose_follows view).seq (tryEcho_follows view)).seq
        (advanceView_follows fuel view)) _)
    have timers : Steps (Step cfg I) s
        [.armTimer target view .proposal cfg.proposalTimeout,
          .armTimer target view .view cfg.resolverTimeout] s :=
      .single (step_quiet rfl (by simp [DirectResolutionEffect.isQuiet]))
    change Steps _ s ([_, _] ++ ([DirectResolutionEffect.broadcastProof _] ++ _)) _
    refine timers.trans (.step ?_ (.single (step_quiet rfl ?_)))
    · have step : CoreStep S cfg target I s.core _ _ :=
        .enter (core_inst hi) (Nat.lt_of_not_le hv) rfl
      unfold Step core
      rw [Option.map_some, core_enter]
      exact step
    · split <;> simp [DirectResolutionEffect.isQuiet]

theorem recheckWishes_follows (fuel : ℕ) :
    Handler.Follows (Step cfg I) (recheckWishes cfg fuel : TargetHandler S cfg target) := by
  refine Handler.Follows.seq (fun s => ?_) fun s => ?_
  · unfold Handler.FollowsAt
    dsimp only
    split
    · exact .refl s
    · exact raiseOwnWish_follows _ s
  · unfold Handler.FollowsAt
    dsimp only
    split
    · exact .refl s
    · exact Handler.Follows.forEach (fun v _ => enterView_follows fuel v) s

theorem retryTarget_follows (fuel : ℕ) :
    Handler.Follows (Step cfg I) (retryTarget cfg fuel : TargetHandler S cfg target) := by
  intro s
  unfold Handler.FollowsAt retryTarget retryTargetWith
  split
  · exact .refl s
  · exact ((((tryPrimaryPropose_follows _).seq (tryEcho_follows _)).seq
      (advanceView_follows fuel _)).seq recheckDone_follows) s

/-! ### Instances -/

theorem rememberAll_core (es : List (ResolutionEntry K D))
    (s : TargetState S cfg.committee target) :
    (es.foldl (fun s e => (s.rememberEntry e).2) s).core = s.core := by
  induction es generalizing s with
  | nil => rfl
  | cons e es ih => rw [List.foldl_cons, ih, rememberEntry_core]

theorem steps_create {i : DirectInstance K D} (hn : s.inst = none) (hd : s.decision = none)
    (hI : I.mayStart) (hs : s'.core = { s.core with inst := some i.core }) (hi : i.core = {}) :
    Steps (Step cfg I) s [] s' := by
  refine .single ?_
  unfold Step
  rw [hs, hi]
  exact .create (by simp [core, hn]) hd hI

theorem updateCandidates_followsAt (fuel : ℕ) (candidates : List (ResolutionEntry K D))
    (hd : s.decision = none) (hI : I.mayStart) :
    Handler.FollowsAt (Step cfg I) (updateCandidates cfg fuel candidates) s := by
  have hcore := rememberAll_core candidates s
  unfold Handler.FollowsAt updateCandidates
  dsimp only
  split
  · exact .single (step_silent hcore)
  · generalize hs₁ : candidates.foldl (fun s e => (s.rememberEntry e).2) s = s₁ at hcore ⊢
    have hd₁ : s₁.decision = none := (congrArg Core.decision hcore).trans hd
    refine steps_congr hcore ?_
    refine Steps.silentTrans ?_
      ((((raiseOwnWish_follows 1).seq (recheckWishes_follows fuel)).seq
        (.read tryPrimaryPropose_follows currentView)) _)
    cases hi : s₁.inst with
    | none => exact steps_create hi hd₁ hI rfl rfl
    | some i =>
      refine .single (step_silent ?_)
      simp only [core, hi]
      rfl

theorem activateWithLocalTerminal_followsAt (fuel : ℕ) (hd : s.decision = none)
    (hn : s.inst = none) (hI : I.mayStart) :
    Handler.FollowsAt (Step cfg I) (activateWithLocalTerminal cfg fuel) s := by
  unfold Handler.FollowsAt activateWithLocalTerminal
  refine Steps.silentTrans ?_ (((raiseOwnWish_follows 1).seq (recheckWishes_follows fuel)) _)
  exact steps_create (i := { wishes := s.passiveWishes }) hn hd hI rfl rfl

theorem onTimer_follows (fuel view : ℕ) (kind : DirectResolutionTimerKind) :
    Handler.Follows (Step cfg I) (onTimer cfg fuel view kind : TargetHandler S cfg target) := by
  intro s
  unfold Handler.FollowsAt onTimer
  split
  · exact .refl s
  split
  · split
    · exact .refl s
    · exact .single (step_quiet rfl (by simp [DirectResolutionEffect.isQuiet]))
  split
  · exact .refl s
  split
  · exact .refl s
  · exact ((raiseOwnWish_follows _).seq (recheckWishes_follows fuel)) s

/-! ### Messages -/

theorem setView_core {view : ℕ} (hi : s.inst = some i) (h : st.toBallot = i.core.ballots view) :
    ({ s with inst := some { i with views := i.views.insert view st } } :
      TargetState S cfg.committee target).core = s.core := by
  have hc := core_insert i view st
  have hself : i.core.setBallot view (i.core.ballots view) = i.core := by
    unfold InstCore.setBallot
    rw [Function.update_eq_self]
  rw [h, hself] at hc
  unfold core
  rw [hi, Option.map_some, Option.map_some, hc]

theorem onSuggest_follows (m : DirectResolutionSuggest K D) :
    Handler.Follows (Step cfg I) (onSuggest cfg m : TargetHandler S cfg target) := by
  intro s
  unfold Handler.FollowsAt onSuggest
  split
  · exact .refl s
  next hguard =>
  split
  · exact .refl s
  have hsome : s.inst ≠ none := by
    unfold refusesPhase at hguard
    simp only [Bool.or_eq_true, not_or, Option.isNone_iff_eq_none] at hguard
    exact hguard.1.1.2
  have record : ∀ t : TargetState S cfg.committee target, t.core = s.core → t.inst = s.inst →
      Steps (Step cfg I) s
        (tryPrimaryPropose cfg m.view (t.updateView m.view fun st =>
          { st with suggestions := st.suggestions.insert m.sender m })).2
        (tryPrimaryPropose cfg m.view (t.updateView m.view fun st =>
          { st with suggestions := st.suggestions.insert m.sender m })).1 := by
    intro t hcore hinst
    obtain ⟨i, hi⟩ := Option.ne_none_iff_exists'.mp hsome
    refine steps_congr ?_ (tryPrimaryPropose_follows m.view _)
    have hi' := hinst.trans hi
    rw [updateView_eq _ _ hi']
    refine (setView_core hi' ?_).trans hcore
    exact (ballots_getD i m.view).symm
  dsimp only
  split
  · split
    · exact .refl s
    · exact record s rfl rfl
  split
  · exact .refl s
  next e _ =>
  have hcore := rememberEntry_core e s
  have hinst := rememberEntry_inst e s
  split
  · next s' heq =>
    rw [heq] at hcore
    exact .single (step_silent hcore)
  · next value s' heq =>
    rw [heq] at hcore hinst
    split
    · exact .single (step_silent hcore)
    · exact record s' hcore hinst

theorem notMem_of_any {view : ℕ} {β : Type} (table : Ballot K D → Table K β) {q : K}
    (hi : s.inst = some i) (hempty : q ∉ table {})
    (h : ¬((s.viewState view).any fun st => decide (q ∈ table st.toBallot)) = true) :
    q ∉ table (i.core.ballots view) := by
  rw [viewState_any hi] at h
  rw [ballots_getD]
  cases hv : i.views.lookup view with
  | none => exact hempty
  | some st => simpa [hv] using h

theorem onProof_follows {m : DirectResolutionProof K D} (hI : I.proof m) :
    Handler.Follows (Step cfg I) (onProof cfg m : TargetHandler S cfg target) := by
  intro s
  unfold Handler.FollowsAt onProof
  split
  · exact .refl s
  next hguard =>
  split
  · exact .refl s
  next hn =>
  have hsome : s.inst ≠ none := by
    unfold refusesPhase at hguard
    simp only [Bool.or_eq_true, not_or, Option.isNone_iff_eq_none] at hguard
    exact hguard.1.1.2
  obtain ⟨i, hi⟩ := Option.ne_none_iff_exists'.mp hsome
  have hn' : m.sender ∉ (i.core.ballots m.view).proofs :=
    notMem_of_any Ballot.proofs hi (AList.notMem_empty _) hn
  rw [updateView_eq _ _ hi]
  refine Steps.silent (step_setView ?_) (tryEcho_follows m.view _)
  have step : CoreStep S cfg target I s.core _ _ := .recvProof (core_inst hi) hI hn'
  rw [ballots_getD] at step
  exact step

theorem steps_recordWitness {m : DirectResolutionWitness K D}
    (hI : I.witness m.sender m.view m.value) (hi : s.inst = some i)
    (hn : m.sender ∉ (i.core.ballots m.view).backingWitnesses) :
    Steps (Step cfg I) s [] (s.updateView m.view fun st =>
      { st with backingWitnesses := st.backingWitnesses.insert m.sender m.value }) := by
  rw [updateView_eq _ _ hi]
  refine .single (step_setView ?_)
  have step : CoreStep S cfg target I s.core _ _ := .recvWitness (core_inst hi) hI hn
  rw [ballots_getD] at step
  exact step

theorem onWitness_follows (fuel : ℕ) {m : DirectResolutionWitness K D}
    (hI : I.witness m.sender m.view m.value) :
    Handler.Follows (Step cfg I) (onWitness cfg fuel m : TargetHandler S cfg target) := by
  intro s
  unfold Handler.FollowsAt onWitness onWitnessWith
  split
  · exact .refl s
  next hguard =>
  split
  · exact .refl s
  split
  · exact .refl s
  next hn =>
  obtain ⟨i, hi⟩ := inst_of_guard hguard
  have hcore := rememberEntry_core m.entry s
  have hinst := rememberEntry_inst m.entry s
  split
  · next s' heq =>
    rw [heq] at hcore
    exact .single (step_silent hcore)
  · next value s' heq =>
    rw [heq] at hcore hinst
    have hn' : m.sender ∉ (i.core.ballots m.view).backingWitnesses :=
      notMem_of_any Ballot.backingWitnesses hi (AList.notMem_empty _) hn
    refine steps_congr hcore ((steps_recordWitness hI (hinst.trans hi) hn').silentTrans ?_)
    exact ((recheckBacking_follows fun t _ => advanceView_follows fuel m.view t).seq
      (retryTarget_follows fuel)) _

theorem steps_acceptVote {view : ℕ} {origin : Option ℕ} {p : DirectResolutionProposal K D}
    (hst : s.viewState view = some st) (hp : st.proposal = some p)
    (hI : I.vote view p.value origin) :
    Steps (Step cfg I) s [] (s.mapView view fun st =>
      { st with voteStatus := .accepted, voteOrigin := origin }) := by
  obtain ⟨i, hi, hv⟩ := viewState_eq hst
  have hb := ballots_core hv
  rw [mapView_eq _ hi hv]
  refine .single (step_setView ?_)
  have hpc : (i.core.ballots view).proposal = some p := by rw [hb, hp]
  have step : CoreStep S cfg target I s.core _ _ := .accept (core_inst hi) hpc hI
  rw [hb] at step
  exact step

theorem onVote_follows (fuel view : ℕ) (value : D) {vote : DirectResolutionVote}
    (hI : ∀ origin, vote = .accept origin → I.vote view value origin) :
    Handler.Follows (Step cfg I)
      (onVote cfg fuel view value vote : TargetHandler S cfg target) := by
  intro s
  unfold Handler.FollowsAt onVote onVoteWith
  split
  · exact .refl s
  next st hst =>
  obtain ⟨i, hi, hv⟩ := viewState_eq hst
  have hb := ballots_core hv
  have refuse : ∀ status, status ≠ VoteStatus.accepted → Steps (Step cfg I) s []
      (s.mapView view fun st => { st with voteStatus := status }) := by
    intro status hne
    rw [mapView_eq _ hi hv]
    refine .single (step_setView ?_)
    have step : CoreStep S cfg target I s.core _ _ := .setVote view (core_inst hi) hne
    rw [hb] at step
    exact step
  split
  · exact .refl s
  next hguard =>
  simp only [not_or, Bool.not_eq_true', Bool.not_eq_false] at hguard
  obtain ⟨p, hp, hvalue⟩ := (Option.any_eq_true _ _).mp hguard.2
  have hvalue : p.value = value := of_decide_eq_true hvalue
  cases vote with
  | reject permanent =>
    cases permanent
    · exact refuse .rejected nofun
    · exact refuse .rejectedPermanently nofun
  | accept origin =>
    dsimp only
    split
    · exact refuse .rejected nofun
    · subst hvalue
      exact (steps_acceptVote hst hp (hI origin rfl)).silentTrans
        (((tryEcho_follows view).seq (advanceView_follows fuel view)) _)

theorem retryExternalValidity_follows :
    Handler.Follows (Step cfg I) (retryExternalValidity cfg : TargetHandler S cfg target) := by
  intro s
  unfold Handler.FollowsAt retryExternalValidity
  split
  · exact .refl s
  next i hi =>
  split
  · next h =>
    obtain ⟨st, hv, -⟩ := (Option.any_eq_true _ _).mp h
    rw [mapView_eq _ hi hv]
    refine Steps.silent (step_setView ?_) (tryEcho_follows i.currentView _)
    have hne : VoteStatus.unknown ≠ .accepted := nofun
    have step : CoreStep S cfg target I s.core _ _ :=
      .setVote i.currentView (core_inst hi) hne
    rw [ballots_core hv] at step
    exact step
  · exact .refl s

theorem steps_recordStatement {m : DirectResolutionStatement K D} (hI : I.statement m)
    (hi : s.inst = some i) (hn : m.sender ∉ (i.core.ballots m.view).statements m.phase) :
    Steps (Step cfg I) s [] (s.updateView m.view fun st =>
      { st with
        statements := Function.update st.statements m.phase
          ((st.statements m.phase).insert m.sender ⟨m.value, m.proposalKeyView, m.origin⟩) }) := by
  rw [updateView_eq _ _ hi]
  refine .single (step_setView ?_)
  have step : CoreStep S cfg target I s.core _ _ := .recvStatement (core_inst hi) hI hn
  rw [ballots_getD] at step
  exact step

theorem onStatement_follows (fuel : ℕ) {m : DirectResolutionStatement K D} (hI : I.statement m) :
    Handler.Follows (Step cfg I) (onStatement cfg fuel m : TargetHandler S cfg target) := by
  intro s
  unfold Handler.FollowsAt onStatement onStatementWith
  split
  · exact .refl s
  next hguard =>
  split
  · exact .refl s
  split
  · exact .refl s
  next hn =>
  obtain ⟨i, hi⟩ := inst_of_guard hguard
  have hn' : m.sender ∉ (i.core.ballots m.view).statements m.phase :=
    notMem_of_any (fun b => b.statements m.phase) hi (AList.notMem_empty _) hn
  have rest : Handler.Follows (Step cfg I)
      (((tryPrimaryPropose cfg s.currentView).seq (tryEcho cfg s.currentView)).seq
        (if m.view = s.currentView then advanceView cfg fuel m.view else .skip) :
        TargetHandler S cfg target) := by
    refine ((tryPrimaryPropose_follows _).seq (tryEcho_follows _)).seq ?_
    split
    · exact advanceView_follows fuel m.view
    · exact Handler.followsAt_skip
  exact (steps_recordStatement hI hi hn').silentTrans (rest _)

theorem onDone_follows {m : DirectResolutionDone K D} (hI : I.done m.sender m.value) :
    Handler.Follows (Step cfg I) (onDone cfg m : TargetHandler S cfg target) := by
  intro s
  unfold Handler.FollowsAt onDone
  split
  · exact .refl s
  split
  · exact .refl s
  next i hi =>
  split
  · exact .refl s
  next hn =>
  have hinst := rememberEntry_inst m.entry s
  refine steps_congr (rememberEntry_core m.entry s) ?_
  have hi' : (s.rememberEntry m.entry).2.inst = some i := hinst.trans hi
  refine Steps.silent ?_ (recheckDone_follows _)
  unfold Step mapInst core
  rw [hi', Option.map_some, Option.map_some]
  exact .recvDone (i := i.core) rfl hI hn

theorem onValueFetch_follows (m : DirectResolutionValueFetch K D) :
    Handler.Follows (Step cfg I) (onValueFetch cfg m : TargetHandler S cfg target) := by
  intro s
  unfold Handler.FollowsAt onValueFetch
  split
  · exact .refl s
  split
  · exact .refl s
  split
  · exact .refl s
  · exact .single (step_quiet rfl (by simp [DirectResolutionEffect.isQuiet]))

theorem onValueServe_follows (fuel : ℕ) (m : DirectResolutionValueServe K D) :
    Handler.Follows (Step cfg I) (onValueServe cfg fuel m : TargetHandler S cfg target) := by
  intro s
  unfold Handler.FollowsAt onValueServe
  split
  · exact .refl s
  · refine steps_congr ?_ (retryTarget_follows fuel _)
    exact (rememberEntry_core _ _).trans rfl

/-! ### Catch-up -/

theorem steps_replays {es : List (DirectResolutionEffect K D)} (hi : s.inst = some i)
    (hs : s'.core = s.core)
    (h : ∀ x ∈ es, x.isQuiet = true ∨ IsReplay S cfg target i.core x) :
    Steps (Step cfg I) s es s' := by
  suffices hall : Steps (Step cfg I) s es s by
    have := hall.trans (.single (step_silent hs))
    rwa [List.append_nil] at this
  clear hs
  induction es with
  | nil => exact .refl s
  | cons x es ih =>
    have hx : Step cfg I s [x] s := by
      rcases h x List.mem_cons_self with hq | hr
      · refine step_quiet rfl fun y hy => ?_
        rw [List.mem_singleton.mp hy]
        exact hq
      · exact .replay (core_inst hi) hr
    exact .step hx (ih fun y hy => h y (List.mem_cons_of_mem _ hy))

theorem ownSends_replays {requester : K} {view : ℕ} (hv : i.views.lookup view = some st) :
    ∀ x ∈ s.ownSends cfg requester view st,
      x.2.isQuiet = true ∨ IsReplay S cfg target i.core x.2 := by
  have hb := ballots_core hv
  intro x hx
  simp only [ownSends, List.mem_append, List.mem_flatMap, List.mem_map] at hx
  rcases hx with (((hx | ⟨m, hm, rfl⟩) | ⟨m, -, rfl⟩) | ⟨phase, -, r, hr, rfl⟩) | ⟨v, hv', rfl⟩
  · split at hx
    · obtain ⟨m, -, rfl⟩ := List.mem_map.mp hx
      exact .inl rfl
    · cases hx
  · have hp : (i.core.ballots view).proofs.lookup cfg.name = some m := by
      rw [hb]
      exact Option.mem_toList.mp hm
    exact .inr (.proof requester hp)
  · exact .inl rfl
  · refine .inr (.statement requester ?_)
    rw [hb]
    exact Option.mem_toList.mp hr
  · split
    · next e he =>
      refine .inr (.witness requester ?_ (entry_spec he).1)
      rw [hb]
      exact Option.mem_toList.mp hv'
    · exact .inl rfl

theorem replayView_follows (requester : K) (view : ℕ) :
    Handler.Follows (Step cfg I) (replayView cfg requester view : TargetHandler S cfg target) := by
  intro s
  unfold Handler.FollowsAt replayView
  split
  · exact .single (step_quiet rfl (by simp [DirectResolutionEffect.isQuiet]))
  next st hst =>
  obtain ⟨i, hi, hv⟩ := viewState_eq hst
  refine steps_replays hi ?_ fun x hx => ?_
  · dsimp only
    rw [mapView_eq _ hi hv]
    refine setView_core hi ?_
    exact (ballots_core hv).symm
  · obtain ⟨y, hy, rfl⟩ := List.mem_map.mp hx
    exact ownSends_replays hv y (List.mem_filter.mp hy).1

theorem replayProgressTo_follows (requester : K) (through : ℕ) :
    Handler.Follows (Step cfg I)
      (replayProgressTo cfg requester through : TargetHandler S cfg target) := by
  refine Handler.Follows.seq (Handler.Follows.seq (fun s => ?_) fun s => ?_) fun s => ?_
  · unfold Handler.FollowsAt replayWish
    cases hi : s.inst with
    | none => exact .refl s
    | some i =>
      dsimp only
      split
      · refine .single (step_quiet ?_ (by simp [DirectResolutionEffect.isQuiet]))
        unfold core
        rw [hi]
        rfl
      · exact .refl s
  · exact Handler.Follows.forEach (fun v _ => replayView_follows requester v) s
  · unfold Handler.FollowsAt replayDone
    split
    · exact .refl s
    next value hdone =>
    split
    · exact .refl s
    obtain ⟨i, hi, hd⟩ := Option.bind_eq_some_iff.mp hdone
    refine steps_replays hi rfl fun x hx => ?_
    split at hx
    · next e he =>
      rw [List.mem_singleton.mp hx]
      exact .inr (.done requester hd (entry_spec he).1)
    · rw [List.mem_singleton.mp hx]
      exact .inl rfl

theorem onWish_followsAt (fuel : ℕ) (m : DirectResolutionWish K)
    (hI : s.inst = none → s.decision = none → I.mayStart) :
    Handler.FollowsAt (Step cfg I) (onWish cfg fuel m) s := by
  have rest : Handler.Follows (Step cfg I)
      ((recheckWishes cfg fuel).seq (replayProgressTo cfg m.sender m.view) :
        TargetHandler S cfg target) :=
    (recheckWishes_follows fuel).seq (replayProgressTo_follows m.sender m.view)
  unfold Handler.FollowsAt onWish
  split
  · next value e hd =>
    split
    · exact .refl s
    · exact .single (.replayDecision m.sender hd)
  · next hd hn =>
    split
    · exact .refl s
    dsimp only
    split
    · exact .single (step_silent rfl)
    · refine Steps.silentTrans ?_ (rest _)
      exact steps_create (i := { wishes := s.passiveWishes.insert m.sender m.view }) hn hd
        (hI hn hd) rfl rfl
  · next i hd hi =>
    split
    · exact .refl s
    · refine steps_congr ?_ (rest _)
      unfold core
      rw [hi]
      rfl

end TargetState

/-! ### The resolver -/

namespace DirectResolver

variable {cfg : ResolverConfig K D} {I : ℕ → ResolverInputs K D} {r r' : DirectResolver S cfg}
  {es : List (DirectResolutionEffect K D)}

def Step (cfg : ResolverConfig K D) (I : ℕ → ResolverInputs K D) (r : DirectResolver S cfg)
    (es : List (DirectResolutionEffect K D)) (r' : DirectResolver S cfg) : Prop :=
  ∃ target, CoreStep S cfg target (I target) (r.state target).core es (r'.state target).core ∧
    (∀ t, t ≠ target → (r'.state t).core = (r.state t).core) ∧
    r'.retainedFloor = r.retainedFloor

@[simp] theorem state_setState_self (r : DirectResolver S cfg) (target : ℕ)
    (s : TargetState S cfg.committee target) : (r.setState target s).state target = s := by
  simp [state, setState]

theorem state_setState_ne (r : DirectResolver S cfg) {target t : ℕ}
    (s : TargetState S cfg.committee target) (h : t ≠ target) :
    (r.setState target s).state t = r.state t := by
  simp [state, setState, AList.lookup_insert_ne h]

theorem state_gcBelow (r : DirectResolver S cfg) (floor t : ℕ) :
    (r.gcBelow floor).state t = if t < floor then {} else r.state t := by
  unfold gcBelow
  split
  · next h =>
    subst h
    rfl
  unfold state
  dsimp only
  rw [Table.lookup_eraseAll]
  by_cases ht : t < floor
  · rw [if_pos ht]
    split
    · rfl
    · next hm =>
      have hk : t ∉ r.targets := fun hk =>
        hm (List.mem_filter.mpr ⟨AList.mem_keys.mp hk, decide_eq_true ht⟩)
      rw [AList.lookup_eq_none.mpr hk]
      rfl
  · rw [if_neg ht, if_neg]
    intro hm
    exact ht (of_decide_eq_true (List.mem_filter.mp hm).2)

theorem retainedFloor_gcBelow (r : DirectResolver S cfg) (floor : ℕ) :
    (r.gcBelow floor).retainedFloor = max r.retainedFloor floor := by
  unfold gcBelow
  split
  · next h =>
    subst h
    exact (Nat.max_zero _).symm
  · rfl

theorem steps_lift {target : ℕ} {s s' : TargetState S cfg.committee target}
    (h : Steps (TargetState.Step cfg (I target)) s es s') (r : DirectResolver S cfg) :
    Steps (Step cfg I) (r.setState target s) es (r.setState target s') := by
  induction h with
  | refl s => exact .refl _
  | @step s s₁ _ es₁ _ hr _ ih =>
    have hstep : Step cfg I (r.setState target s) es₁ (r.setState target s₁) := by
      refine ⟨target, ?_, fun t ht => ?_, rfl⟩
      · rw [state_setState_self, state_setState_self]
        exact hr
      · rw [state_setState_ne r _ ht, state_setState_ne r _ ht]
    exact .step hstep ih

theorem step_quiet (h : ∀ t, (r'.state t).core = (r.state t).core)
    (hf : r'.retainedFloor = r.retainedFloor) (hes : ∀ x ∈ es, x.isQuiet = true) :
    Step cfg I r es r' := by
  refine ⟨0, ?_, fun t _ => h t, hf⟩
  rw [h 0]
  exact .quiet hes

theorem onTarget_followsAt {target : ℕ} {h : TargetHandler S cfg target}
    (hh : Handler.FollowsAt (TargetState.Step cfg (I target)) h (r.state target)) :
    Handler.FollowsAt (Step cfg I) (onTarget target h) r := by
  unfold Handler.FollowsAt onTarget
  have hstep : Step cfg I r [] (r.setState target (r.state target)) := by
    refine step_quiet (fun t => ?_) rfl fun _ hx => absurd hx List.not_mem_nil
    by_cases ht : t = target
    · subst ht
      rw [state_setState_self]
    · rw [state_setState_ne r _ ht]
  exact Steps.silent hstep (steps_lift hh r)

theorem onTarget_follows {target : ℕ} {h : TargetHandler S cfg target}
    (hh : Handler.Follows (TargetState.Step cfg (I target)) h) :
    Handler.Follows (Step cfg I) (onTarget target h) := fun _ => onTarget_followsAt (hh _)

theorem isClosed_eq_false {target : ℕ} (h : ¬r.isClosed target = true) :
    r.retainedFloor ≤ target ∧ (r.state target).decision = none := by
  simp only [isClosed, Bool.or_eq_true, decide_eq_true_eq, not_or, not_lt] at h
  exact ⟨h.1.2, by simpa using h.2⟩

theorem steps_admit {through : ℕ} {r' : DirectResolver S cfg}
    (h : Steps (Step cfg I) { r with admittedThrough := through } es r') :
    Steps (Step cfg I) r es r' := by
  have hstep : Step cfg I r [] { r with admittedThrough := through } :=
    step_quiet (fun _ => rfl) rfl fun _ hx => absurd hx List.not_mem_nil
  exact Steps.silent hstep h

theorem updateCandidates_followsAt (fuel target : ℕ) (candidates : List (ResolutionEntry K D))
    (hI : r.retainedFloor ≤ target → (I target).mayStart) :
    Handler.FollowsAt (Step cfg I) (updateCandidates fuel target candidates) r := by
  unfold Handler.FollowsAt updateCandidates
  split
  · exact .refl r
  · next h =>
    obtain ⟨hf, hd⟩ := isClosed_eq_false h
    exact steps_admit
      (onTarget_followsAt (TargetState.updateCandidates_followsAt fuel candidates hd (hI hf)))

theorem activateWithLocalTerminal_followsAt (fuel target : ℕ)
    (hI : r.retainedFloor ≤ target → (I target).mayStart) :
    Handler.FollowsAt (Step cfg I) (activateWithLocalTerminal fuel target) r := by
  unfold Handler.FollowsAt activateWithLocalTerminal
  split
  · exact .refl r
  · next h =>
    rw [Bool.or_eq_true, not_or] at h
    obtain ⟨hf, hd⟩ := isClosed_eq_false h.1
    have hn : (r.state target).inst = none := by simpa using h.2
    exact steps_admit (onTarget_followsAt
      (TargetState.activateWithLocalTerminal_followsAt fuel hd hn (hI hf)))

theorem barFullSelection_follows (target : ℕ) :
    Handler.Follows (Step cfg I) (barFullSelection target : Handler (DirectResolver S cfg) _) := by
  intro r
  unfold Handler.FollowsAt barFullSelection
  split
  · exact .refl r
  · refine .single (step_quiet (fun t => ?_) rfl fun _ hx => absurd hx List.not_mem_nil)
    by_cases ht : t = target
    · subst ht
      rw [state_setState_self]
      rfl
    · rw [state_setState_ne r _ ht]

theorem onWish_followsAt (fuel : ℕ) (m : DirectResolutionWish K)
    (hI : r.retainedFloor ≤ m.target → (I m.target).mayStart) :
    Handler.FollowsAt (Step cfg I) (onWish fuel m) r := by
  unfold Handler.FollowsAt onWish
  split
  · exact .refl r
  dsimp only
  split
  · exact .refl r
  · next h =>
    refine onTarget_followsAt (TargetState.onWish_followsAt fuel m fun hn hd => hI ?_)
    rw [hn, hd] at h
    simp only [Option.isNone_none, Bool.and_self, Bool.true_and, Bool.or_eq_true,
      decide_eq_true_eq, not_or, not_lt] at h
    exact h.1

theorem retryExternalValidity_follows :
    Handler.Follows (Step cfg I) (retryExternalValidity : Handler (DirectResolver S cfg) _) :=
  fun r => Handler.Follows.forEach
    (fun _ _ => onTarget_follows TargetState.retryExternalValidity_follows) r

end DirectResolver

end Vantage
