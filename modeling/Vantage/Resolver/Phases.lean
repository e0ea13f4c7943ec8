import Vantage.Resolver.Refine

/-!
# The phase loop is a run of atomic steps

* `nextMove_witness`, `nextMove_send`: the evidence of each move;
* `sendPhase_followsAt`: the key and the statement are one step;
* `advance_followsIn`: the loop with its witness recursion, for every amount of fuel.
-/

namespace Vantage

variable {K D : Type} [LinearOrder K] [LinearOrder D] [Inhabited D] {S : Session K D}
  {target : ℕ}

namespace TargetState

variable {cfg : ResolverConfig K D} {I : ResolverInputs K D}
  {s s' : TargetState S cfg.committee target} {i : DirectInstance K D}
  {es : List (DirectResolutionEffect K D)} {view : ℕ} {fromPhase toPhase : DirectResolutionPhase}
  {value : D} {phase : DirectResolutionPhase}

/-! ### The phase loop -/

/-- The instance, if there is one, is in this resolver view. -/
def AtView (view : ℕ) (s : TargetState S cfg.committee target) : Prop :=
  ∀ i, s.inst = some i → i.currentView = view

theorem AtView.mapInst (h : AtView view s) {f : DirectInstance K D → DirectInstance K D}
    (hf : ∀ i, (f i).currentView = i.currentView) : AtView view (s.mapInst f) := by
  intro i hi
  obtain ⟨i₀, hi₀, rfl⟩ := Option.map_eq_some_iff.mp hi
  rw [hf, h i₀ hi₀]

theorem AtView.mapView {view v : ℕ} (h : AtView view s)
    (f : DirectViewState K D → DirectViewState K D) : AtView view (s.mapView v f) := by
  refine h.mapInst fun i => ?_
  split <;> rfl

theorem ensureValueFetch_followsIn (view : ℕ) (value : D) (peers : List K) :
    Handler.FollowsIn (Step cfg I) (AtView view)
      (ensureValueFetch cfg value peers : TargetHandler S cfg target) := by
  intro s hs
  refine ⟨ensureValueFetch_follows value peers s, ?_⟩
  unfold ensureValueFetch
  split <;> exact hs

theorem emitDone_atView {e : ResolutionEntry K D} (hs : AtView view s) :
    AtView view (emitDone cfg value e s).1 := by
  unfold emitDone
  split
  · exact hs
  split
  · exact hs
  next i hi =>
  split
  · exact hs
  · intro i' hi'
    cases hi'
    exact hs i hi

theorem recheckDone_followsIn (view : ℕ) :
    Handler.FollowsIn (Step cfg I) (AtView view)
      (recheckDone cfg : TargetHandler S cfg target) := by
  intro s hs
  refine ⟨recheckDone_follows s, ?_⟩
  have h1 : AtView view (relayDone cfg s).1 := by
    unfold relayDone
    split
    · exact hs
    split
    · exact hs
    split
    · exact hs
    · exact emitDone_atView hs
  show AtView view (decideDone cfg (relayDone cfg s).1).1
  unfold decideDone
  split
  · exact h1
  split
  · exact h1
  · exact fun i hi => nomatch hi

theorem emitBackingWitness_followsAt
    (h : ∀ i, s.inst = some i → InstCore.FreshQuorum cfg (i.core.ballots view) value ∨
      cfg.fPlus1Parties ≤ witnessCount value (i.core.ballots view)) :
    Handler.FollowsAt (Step cfg I) (emitBackingWitness cfg view value) s := by
  unfold Handler.FollowsAt emitBackingWitness
  split
  · next e st he hst =>
    split
    · exact .refl s
    · next hsent =>
      obtain ⟨i, hi, hv⟩ := viewState_eq hst
      rw [mapView_eq _ hi hv]
      refine .single (step_setView ?_)
      have hb := ballots_core hv
      have hn : (i.core.ballots view).backingSent = none := by
        rw [hb]
        simpa using hsent
      have step : CoreStep S cfg target I s.core _ _ :=
        .witness (core_inst hi) hn (entry_spec he).1 (h i hi)
      rw [hb] at step
      exact step
  · exact .refl s

theorem emitBackingWitness_atView {view v : ℕ} (hs : AtView view s) :
    AtView view (emitBackingWitness cfg v value s).1 := by
  unfold emitBackingWitness
  split
  · split
    · exact hs
    · exact hs.mapView _
  · exact hs

theorem backingWinner_count {view threshold : ℕ} (hi : s.inst = some i)
    (h : s.backingWinner cfg view threshold = some value) :
    threshold ≤ witnessCount value (i.core.ballots view) := by
  obtain ⟨st, hst, hw⟩ := Option.bind_eq_some_iff.mp h
  obtain ⟨i', hi', hv⟩ := viewState_eq hst
  rw [hi] at hi'
  cases hi'
  rw [ballots_core hv]
  simpa [witnessCount] using Table.winner_count hw

theorem recheckBacking_relay_follows (view : ℕ) :
    Handler.Follows (Step cfg I) (fun s : TargetState S cfg.committee target =>
      match s.backingWinner cfg view cfg.fPlus1Parties with
      | some value => emitBackingWitness cfg view value s
      | none => (s, [])) := by
  intro s
  unfold Handler.FollowsAt
  dsimp only
  split
  · next value hw =>
    exact emitBackingWitness_followsAt fun i hi => .inr (backingWinner_count hi hw)
  · exact .refl s

theorem recheckBacking_follows {adv : TargetHandler S cfg target}
    (hadv : ∀ s, AtView view s → Handler.FollowsAt (Step cfg I) adv s) :
    Handler.Follows (Step cfg I) (recheckBacking cfg view adv) := by
  refine Handler.Follows.seq (recheckBacking_relay_follows view) fun s => ?_
  unfold Handler.FollowsAt
  dsimp only
  split
  · next h =>
    refine hadv s fun i hi => ?_
    have := h.2
    rw [hi, Option.any_some, decide_eq_true_eq] at this
    exact this
  · exact .refl s

theorem recheckBacking_followsIn {adv : TargetHandler S cfg target}
    (hadv : Handler.FollowsIn (Step cfg I) (AtView view) adv) :
    Handler.FollowsIn (Step cfg I) (AtView view) (recheckBacking cfg view adv) := by
  refine Handler.FollowsIn.seq (fun s hs => ⟨recheckBacking_relay_follows view s, ?_⟩) ?_
  · split
    · exact emitBackingWitness_atView hs
    · exact hs
  · intro s hs
    unfold Handler.FollowsAt
    dsimp only
    split
    · exact hadv s hs
    · exact ⟨.refl s, hs⟩

theorem phaseWinner_quorum {vote : Option ℕ × D}
    (h : s.phaseWinner cfg view phase cfg.quorumParties = some vote) :
    ∃ i, s.inst = some i ∧ InstCore.PhaseQuorum cfg (i.core.ballots view) phase vote := by
  obtain ⟨st, hst, hw⟩ := Option.bind_eq_some_iff.mp h
  obtain ⟨i, hi, hv⟩ := viewState_eq hst
  refine ⟨i, hi, ?_⟩
  unfold InstCore.PhaseQuorum
  rw [ballots_core hv]
  exact Table.winner_count hw

omit [LinearOrder K] [Inhabited D] in
theorem phaseVote_echo {p : DirectResolutionProposal K D} {r : StatementRecord D}
    {vote : Option ℕ × D} (h : phaseVote .echo (some p) r = some vote) :
    vote = (some p.keyView, p.value) := by
  simp only [phaseVote, if_true] at h
  split at h
  · next hr =>
    rw [← Option.some.inj h, hr.1, hr.2]
  · cases h

omit [Inhabited D] in
theorem PhaseQuorum.echo_vote {b : Ballot K D} {p : DirectResolutionProposal K D}
    {vote : Option ℕ × D} (hq : InstCore.PhaseQuorum cfg b .echo vote) (hp : b.proposal = some p)
    (hpos : 0 < cfg.quorumParties) : vote = (some p.keyView, p.value) := by
  unfold InstCore.PhaseQuorum at hq
  obtain ⟨q, hq'⟩ := Finset.card_pos.mp (hpos.trans_le hq)
  obtain ⟨r, -, hr⟩ := Table.mem_keysWhere.mp hq'
  rw [hp] at hr
  exact phaseVote_echo (of_decide_eq_true hr)

omit [LinearOrder K] [LinearOrder D] [Inhabited D] in
theorem quorumParties_pos (cfg : ResolverConfig K D) : 0 < cfg.quorumParties := by
  have := cfg.committee.size_pos
  simp only [Config.quorumParties, Thresholds.fromPartyCount, Config.n]
  omega

theorem freshOriginOk_spec (hi : s.inst = some i) (h : s.freshOriginOk cfg view value = true) :
    ∃ p, (i.core.ballots view).proposal = some p ∧ p.value = value ∧
      ((0 < p.keyView ∨ p.entry.isNonSkip = false) ∨
        cfg.fPlus1Parties ≤ originCount value (i.core.ballots view)) := by
  unfold freshOriginOk at h
  obtain ⟨st, hst, h⟩ := (Option.any_eq_true _ _).mp h
  obtain ⟨p, hp, h⟩ := (Option.any_eq_true _ _).mp h
  obtain ⟨i', hi', hv⟩ := viewState_eq hst
  rw [hi] at hi'
  cases hi'
  simp only [Bool.and_eq_true, Bool.or_eq_true, decide_eq_true_eq, Bool.not_eq_true'] at h
  rw [ballots_core hv]
  exact ⟨p, hp, h.1, h.2⟩

theorem viewState_any {P : DirectViewState K D → Bool} (hi : s.inst = some i) :
    (s.viewState view).any P = (i.views.lookup view).any P := by
  unfold viewState
  rw [hi, Option.bind_some]

theorem proposal_any {P : DirectResolutionProposal K D → Bool} (hi : s.inst = some i) :
    ((s.viewState view).any fun st => st.proposal.any P) =
      (i.core.ballots view).proposal.any P := by
  rw [viewState_any hi, ballots_getD]
  cases i.views.lookup view <;> rfl

theorem sent_any (hi : s.inst = some i) :
    ((s.viewState view).any fun st => (st.sent phase).isSome) =
      ((i.core.ballots view).sent phase).isSome := by
  rw [viewState_any hi, ballots_getD]
  cases i.views.lookup view <;> rfl

theorem nextMove_witness (h : s.nextMove cfg view fromPhase toPhase = .witness value)
    (hi : s.inst = some i) :
    InstCore.FreshQuorum cfg (i.core.ballots view) value := by
  unfold nextMove at h
  split at h
  · cases h
  next vote hw =>
  obtain ⟨i', hi', hq⟩ := phaseWinner_quorum hw
  rw [hi] at hi'
  cases hi'
  split at h
  · cases h
  split at h
  · cases h
  split at h
  · next hecho =>
    subst hecho
    split at h
    · cases h
    next horigin =>
    rw [Bool.not_eq_true', Bool.not_eq_false] at horigin
    obtain ⟨p, hp, hvalue, hor⟩ := freshOriginOk_spec hi horigin
    split at h
    · next hfresh =>
      cases h
      rw [proposal_any hi, hp, Option.any_some, Bool.and_eq_true, decide_eq_true_eq] at hfresh
      have hvote := PhaseQuorum.echo_vote hq hp (quorumParties_pos cfg)
      rw [hfresh.1] at hvote
      refine ⟨p, hp, hvalue, hfresh.1, ?_, fun hns => ?_⟩
      · rw [hvote] at hq ⊢
        exact hq
      · rcases hor with (h0 | h0) | h0
        · omega
        · rw [hns] at h0
          cases h0
        · exact h0
    · cases h
  · cases h

/-- A phase statement is sent after a quorum of the phase before, and a fresh value enters
KEY1 only once it is backed. -/
theorem nextMove_send (h : s.nextMove cfg view fromPhase toPhase = .send value) :
    ∃ i vote, s.inst = some i ∧ vote.2 = value ∧
      InstCore.PhaseQuorum cfg (i.core.ballots view) fromPhase vote ∧
      (i.core.ballots view).sent toPhase = none ∧
      (fromPhase = .echo → ∃ p, (i.core.ballots view).proposal = some p ∧ p.value = vote.2 ∧
        (p.keyView = 0 → i.core.Backed cfg vote.2)) := by
  unfold nextMove at h
  split at h
  · cases h
  next vote hw =>
  obtain ⟨i, hi, hq⟩ := phaseWinner_quorum hw
  split at h
  · cases h
  next hsent =>
  rw [sent_any hi] at hsent
  have hs : (i.core.ballots view).sent toPhase = none := by simpa using hsent
  split at h
  · cases h
  split at h
  · next hecho =>
    subst hecho
    split at h
    · cases h
    next horigin =>
    rw [Bool.not_eq_true', Bool.not_eq_false] at horigin
    obtain ⟨p, hp, hvalue, -⟩ := freshOriginOk_spec hi horigin
    split at h
    · cases h
    next hfresh =>
    cases h
    refine ⟨i, vote, hi, rfl, hq, hs, fun _ => ⟨p, hp, hvalue, fun hk => ?_⟩⟩
    rw [proposal_any hi, hp, Option.any_some, hk] at hfresh
    exact isBacked_core hi (by simpa using hfresh)
  · next hecho =>
    cases h
    exact ⟨i, vote, hi, rfl, hq, hs, fun h => absurd h hecho⟩

omit [LinearOrder K] in
theorem recordKey_core (phase : DirectResolutionPhase) (value : D) (i : DirectInstance K D) :
    (recordKey i.currentView phase value i).core = i.core.recordKey phase value := by
  cases phase with
  | key1 =>
    unfold recordKey InstCore.recordKey
    have h1 : i.core.key1Value = i.key1Value := rfl
    dsimp only
    rw [h1]
    split
    · rfl
    · next h =>
      rw [not_ne_iff] at h
      subst h
      rfl
  | key2 =>
    unfold recordKey
    dsimp only
    split <;> rfl
  | _ => rfl

omit [LinearOrder K] in
theorem recordKey_currentView (view : ℕ) (phase : DirectResolutionPhase) (value : D)
    (i : DirectInstance K D) : (recordKey view phase value i).currentView = i.currentView := by
  unfold recordKey
  split
  · rfl
  · split <;> rfl
  · split <;> rfl
  · rfl
  · rfl

omit [LinearOrder K] in
theorem recordKey_views (view : ℕ) (phase : DirectResolutionPhase) (value : D)
    (i : DirectInstance K D) : (recordKey view phase value i).views = i.views := by
  unfold recordKey
  split
  · rfl
  · split <;> rfl
  · split <;> rfl
  · rfl
  · rfl

theorem emitStatement_atView {view v : ℕ} {key origin : Option ℕ} (hs : AtView view s) :
    AtView view (emitStatement cfg v phase value key origin s).1 := by
  unfold emitStatement
  split
  · exact hs
  split
  · exact hs
  split
  · exact hs
  · exact hs.mapInst fun _ => rfl

theorem sendPhase_spec (ht : (fromPhase, toPhase) ∈ transitions) (hi : s.inst = some i)
    (h : s.nextMove cfg i.currentView fromPhase toPhase = .send value) :
    (sendPhase cfg i.currentView toPhase value s).2 = [.broadcastStatement
        ⟨target, i.currentView, value, toPhase, none, none, cfg.name⟩] ∧
      (sendPhase cfg i.currentView toPhase value s).1.core =
        { s.core with
          inst := some
            ((i.core.recordKey toPhase value).say cfg toPhase ⟨value, none, none⟩) } := by
  obtain ⟨i', vote, hi', rfl, -, hs, -⟩ := nextMove_send h
  rw [hi] at hi'
  cases hi'
  have hi1 : (s.mapInst (recordKey i.currentView toPhase vote.2)).inst =
      some (recordKey i.currentView toPhase vote.2 i) := by
    unfold mapInst
    rw [hi, Option.map_some]
  have hcv := recordKey_currentView i.currentView toPhase vote.2 i
  have hne : toPhase ≠ .echo := by
    rintro rfl
    simp [transitions] at ht
  have hs1 : ((recordKey i.currentView toPhase vote.2 i).core.ballots
      (recordKey i.currentView toPhase vote.2 i).currentView).sent toPhase = none := by
    rw [hcv, ballots_getD, recordKey_views, ← ballots_getD]
    exact hs
  have hb : bindingIsValid (recordKey i.currentView toPhase vote.2 i).currentView toPhase none
      none = true := by
    cases toPhase <;> first | rfl | exact absurd rfl hne
  obtain ⟨hes, hcore⟩ := emitStatement_spec vote.2 hi1 hs1 hb
  rw [hcv, if_neg hne] at hes
  rw [hcv, if_neg hne, recordKey_core] at hcore
  unfold sendPhase
  simp only [Handler.seq_apply, Handler.modify_apply, List.nil_append]
  exact ⟨hes, hcore⟩

theorem sendPhase_followsAt (ht : (fromPhase, toPhase) ∈ transitions) (hi : s.inst = some i)
    (h : s.nextMove cfg i.currentView fromPhase toPhase = .send value) :
    Handler.FollowsAt (Step cfg I) (sendPhase cfg i.currentView toPhase value) s := by
  obtain ⟨hes, hcore⟩ := sendPhase_spec ht hi h
  obtain ⟨i', vote, hi', rfl, hq, hs, hecho⟩ := nextMove_send h
  rw [hi] at hi'
  cases hi'
  refine .single ?_
  unfold Step
  rw [hes, hcore]
  exact .phase (core_inst hi) ht hq hs hecho

theorem finishRound_followsIn {loop : TargetHandler S cfg target} (progressed : Bool)
    (hloop : Handler.FollowsIn (Step cfg I) (AtView view) loop) :
    Handler.FollowsIn (Step cfg I) (AtView view) (finishRound cfg view progressed loop) := by
  intro s hs
  unfold Handler.FollowsAt finishRound
  split
  · next vote hw _ =>
    split
    · exact ensureValueFetch_followsIn view _ _ s hs
    · next e _ =>
      obtain ⟨i, hi, hq⟩ := phaseWinner_quorum hw
      have hdone : Handler.FollowsAt (Step cfg I) (emitDone cfg vote.2 e) s :=
        emitDone_followsAt fun i' hi' => by
          rw [hi] at hi'
          cases hi'
          exact .inl ⟨view, vote, hq, rfl⟩
      obtain ⟨h2, p2⟩ := hloop _ (emitDone_atView hs)
      exact ⟨hdone.seq h2, p2⟩
  · split
    · exact hloop s hs
    · exact recheckDone_followsIn view s hs

/-- One round of the loop; every transition it may take is one of the four. -/
theorem advanceRound_followsIn {backing loop : TargetHandler S cfg target}
    (hb : Handler.FollowsIn (Step cfg I) (AtView view) backing)
    (hloop : Handler.FollowsIn (Step cfg I) (AtView view) loop)
    (ts : List (DirectResolutionPhase × DirectResolutionPhase)) (hts : ∀ t ∈ ts, t ∈ transitions)
    (progressed : Bool) :
    Handler.FollowsIn (Step cfg I) (AtView view)
      (advanceRound cfg view backing loop ts progressed) := by
  induction ts generalizing progressed with
  | nil => exact finishRound_followsIn progressed hloop
  | cons t rest ih =>
    obtain ⟨fromPhase, toPhase⟩ := t
    have ih' := ih fun t ht => hts t (List.mem_cons_of_mem _ ht)
    intro s hs
    unfold Handler.FollowsAt advanceRound
    cases hm : s.nextMove cfg view fromPhase toPhase with
    | wait => exact ih' progressed s hs
    | fetch vote => exact ensureValueFetch_followsIn view _ _ s hs
    | witness value =>
      have hw : Handler.FollowsAt (Step cfg I) (emitBackingWitness cfg view value) s :=
        emitBackingWitness_followsAt fun i hi => .inl (nextMove_witness hm hi)
      obtain ⟨h1, p1⟩ := (hb.seq (ih' progressed)) _ (emitBackingWitness_atView hs)
      refine ⟨?_, p1⟩
      have := hw.seq h1
      simpa only [Handler.FollowsAt, Handler.seq_apply, List.append_assoc] using this
    | send value =>
      obtain ⟨i, -, hi, -⟩ := nextMove_send hm
      have hv := hs i hi
      subst hv
      have hsend : Handler.FollowsAt (Step cfg I) (sendPhase cfg i.currentView toPhase value) s :=
        sendPhase_followsAt (hts _ List.mem_cons_self) hi hm
      have p1 : AtView i.currentView (sendPhase cfg i.currentView toPhase value s).1 :=
        emitStatement_atView (hs.mapInst fun _ => recordKey_currentView _ _ _ _)
      obtain ⟨h2, p2⟩ := ih' true _ p1
      exact ⟨hsend.seq h2, p2⟩

theorem advance_followsIn (view fuel : ℕ) :
    Handler.FollowsIn (Step cfg I) (AtView view)
      (advance cfg view fuel : TargetHandler S cfg target) := by
  induction fuel with
  | zero => exact Handler.FollowsIn.skip
  | succ fuel ih =>
    exact advanceRound_followsIn (recheckBacking_followsIn ih) ih transitions (fun _ h => h) false

theorem advanceView_follows (fuel view : ℕ) :
    Handler.Follows (Step cfg I) (advanceView cfg fuel view : TargetHandler S cfg target) := by
  intro s
  unfold Handler.FollowsAt advanceView
  split
  · exact .refl s
  · next h =>
    refine (advance_followsIn view fuel s fun i hi => ?_).1
    rw [hi, Option.all_some, decide_eq_true_eq, not_ne_iff] at h
    exact h.symm

end TargetState

end Vantage
