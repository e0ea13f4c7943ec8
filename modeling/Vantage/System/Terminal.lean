import Vantage.System.Votes

/-!
# The outcome of a view, pruned or not

A party that prunes a view forgets its state, and says nothing about the view from then on. So the
state in which it did so still accounts for what it has said, and everything that is known about a
view which nobody has pruned holds of every view.

* `Deployment.Kept`: a state that accounts for what a party has said about a view;
* `Reachable.kept`: every correct party has one; `Deployment.Restored`: the view with these states;
* `Deployment.Settles`: a seal by any route, or a decision of the resolver;
* `settled_unique`: one outcome; `completed_settled`: what a completion leaves possible;
* `settled_grounded`: what correct parties have said for an outcome.
-/

namespace Vantage

variable {K D : Type} [LinearOrder K] [LinearOrder D] [Inhabited D]

omit [Inhabited D] in
/-- An engine is silent about the views it has pruned. -/
theorem AgbEngine.silent_of_steps {S : Session K D} {cfg : Config K} {I : ∀ view, Inputs S view}
    {e e' : AgbEngine S} {es : List (Effect K D)} {view : ℕ} (h : Steps (Step cfg I) e es e')
    (hv : e.isPruned view = true) : ∀ x ∈ es, x.isAbout view = false := by
  induction h with
  | refl => exact fun x hx => absurd hx List.not_mem_nil
  | step hr _ ih =>
    obtain ⟨u, hu, hstep, -, hmin⟩ := hr
    have hne : view ≠ u := by
      rintro rfl
      rw [hv] at hu
      cases hu
    intro x hx
    rcases List.mem_append.mp hx with hx | hx
    · exact hstep.isAbout_of_ne hne x hx
    · refine ih ?_ x hx
      unfold isPruned at hv ⊢
      rwa [hmin]

namespace Deployment

variable {d : Deployment K D} {byzantine : Finset K} {F : FaultModel K} {σ σ' : ∀ q, Node d q}
  {p q : K} {view : ℕ} {s : ViewState d.session view}

/-! ### States that account for what was said -/

/-- What a party has said about a view, and the fresh resolver votes it has accepted for it, are
as if `s` were its state of the view. -/
structure Kept (byzantine : Finset K) (σ : ∀ q, Node d q) (p : K) (s : ViewState d.session view) :
    Prop where
  own : s.toStatements.Own (d.cfg p).toConfig (d.agbInputs byzantine σ p view) (σ p).out
  votes : ∀ e origin, (e, true, origin) ∈ (σ p).accepted → e.targetView = view →
    s.toStatements.Committed (d.cfg p).toConfig e

theorem Kept.later (h : Kept byzantine σ p s) (hl : Later σ σ') (ho : (σ' p).out = (σ p).out)
    (ha : (σ' p).accepted = (σ p).accepted) : Kept byzantine σ' p s where
  own := by
    rw [ho]
    exact h.own.mono (agbInputs_le hl p view)
  votes := by
    rw [ha]
    exact h.votes

theorem kept_of_live (hI : d.Inv byzantine F σ) (hV : Votes F σ) (hp : F.Correct p)
    (hv : (σ p).agb.isPruned view = false) : Kept byzantine σ p ((σ p).agb.state view) where
  own := hI.agb p hp view hv
  votes := by
    rintro e origin he rfl
    exact (hV p hp e origin he).1 hv

/-- A node that has pruned the view afterwards has nothing to add to the state. -/
theorem Kept.of_change {n : Node d p} (h : Kept byzantine σ p s)
    (hc : Change d byzantine σ p n) (hv : n.agb.isPruned view = true) :
    Kept byzantine (Function.update σ p n) p s := by
  have hl := hc.later
  have hself : Function.update σ p n p = n := Function.update_self ..
  cases hc with
  | agb hs _ =>
    have hes := AgbEngine.silent_of_steps hs ((AgbEngine.steps_isPruned hs view).symm.trans hv)
    refine ⟨?_, ?_⟩ <;> rw [hself]
    · exact (h.own.append hes).mono (agbInputs_le hl p view)
    · exact h.votes
  | resolver _ => exact h.later hl (by rw [hself]) (by rw [hself])
  | gc floor => exact h.later hl (by rw [hself]) (by rw [hself])
  | validate lm entry fresh =>
    refine ⟨?_, ?_⟩ <;> rw [hself]
    · exact h.own.mono (agbInputs_le hl p view)
    · rintro e origin he ht
      rcases mem_accepted_cases he with hold | ⟨rfl, rfl, hacc⟩
      · exact h.votes e origin hold ht
      · -- a fresh vote is accepted only for a view that is not pruned
        obtain ⟨hpr, -, -, hagb, -⟩ := AgbEngine.accept_fresh hacc
        change ((σ p).agb.tryDirectResolutionVote _ lm e true).2.isPruned view = true at hv
        rw [hagb, AgbEngine.isPruned_claimNonSkip, ← ht, hpr] at hv
        cases hv

section Reachable

variable (hS : d.session.hash.CollisionFree)
  (hb : (d.committee.authorities ∩ byzantine).card ≤
    (Thresholds.fromPartyCount d.committee.size).fParties)
  (hσ : d.Reachable byzantine σ)
include hS hb hσ

/-- Every correct party has such a state for every view. -/
theorem Reachable.kept (view : ℕ) (hp : (d.faults byzantine hb).Correct p) :
    ∃ s : ViewState d.session view, Kept byzantine σ p s := by
  refine (hσ.induct hS hb (P := fun σ => Votes (d.faults byzantine hb) σ ∧
    ∀ p, (d.faults byzantine hb).Correct p → ∃ s : ViewState d.session view, Kept byzantine σ p s)
    ⟨Reachable.init.votes hS hb, fun p hp => ?_⟩ ?_ ?_).2.2 p hp
  · exact ⟨{}, Statements.own_default _ _, fun e origin he => absurd he List.not_mem_nil⟩
  · rintro σ p n hI ⟨hV, hK⟩ hp hc
    have hV' := votes_of_change hI hp hV hc
    refine ⟨hV', fun q hq => ?_⟩
    cases hv : (Function.update σ p n q).agb.isPruned view with
    | false => exact ⟨_, kept_of_live (hI.of_change hp hc) hV' hq hv⟩
    | true =>
      obtain ⟨s, hs⟩ := hK q hq
      by_cases hqp : q = p
      · subst hqp
        rw [Function.update_self] at hv
        exact ⟨s, hs.of_change hc hv⟩
      · exact ⟨s, hs.later hc.later (by rw [Function.update_of_ne hqp])
          (by rw [Function.update_of_ne hqp])⟩
  · rintro σ r es hr ⟨hV, hK⟩
    have hne : ∀ p, (d.faults byzantine hb).Correct p → p ≠ r := fun p hp h => hp.2 (h ▸ hr)
    refine ⟨fun p hp => ?_, fun p hp => ?_⟩
    · rw [Function.update_of_ne (hne p hp)]
      exact hV p hp
    · obtain ⟨s, hs⟩ := hK p hp
      exact ⟨s, hs.later (later_update (fun _ => id) fun _ => List.mem_append_left _)
        (by rw [Function.update_of_ne (hne p hp)]) (by rw [Function.update_of_ne (hne p hp)])⟩

end Reachable

/-- The nodes with the given states of one view. -/
def restore (σ : ∀ q, Node d q) (s : K → ViewState d.session view) (q : K) : Node d q :=
  { σ q with agb := (σ q).agb.setState view (s q) }

/-- With states that account for what was said in place, the responses of the correct parties are
as in a view that nobody has pruned, a quorum is committed to every decision, and decisions are
unique. -/
structure Restored (d : Deployment K D) (byzantine : Finset K) (F : FaultModel K)
    (σ : ∀ q, Node d q) (s : K → ViewState d.session view) : Prop where
  responses : d.Responses byzantine F (restore σ s) view
  decided : ∀ p e, F.Correct p → .decide e ∈ (σ p).resolverOut → e.targetView = view →
    AtLeast F.members F.quorum fun q => F.Correct q →
      ((restore σ s q).agb.state view).toStatements.Committed (d.cfg q).toConfig e
  unique : ∀ p q e e', F.Correct p → F.Correct q → .decide e ∈ (σ p).resolverOut →
    .decide e' ∈ (σ q).resolverOut → e.targetView = view → e'.targetView = view → e = e'

theorem Reachable.restored (hS : d.session.hash.CollisionFree)
    (hb : (d.committee.authorities ∩ byzantine).card ≤
      (Thresholds.fromPartyCount d.committee.size).fParties)
    (hu : d.committee.UnitStakes) (hσ : d.Reachable byzantine σ) (view : ℕ) :
    ∃ s : K → ViewState d.session view, Restored d byzantine (d.faults byzantine hb) σ s := by
  have hkept : ∀ q, ∃ s : ViewState d.session view,
      (d.faults byzantine hb).Correct q → Kept byzantine σ q s := by
    intro q
    by_cases hq : (d.faults byzantine hb).Correct q
    · exact (hσ.kept hS hb view hq).imp fun s hs _ => hs
    · exact ⟨{}, fun h => absurd h hq⟩
  choose s hs using hkept
  have hstate : ∀ q, (restore σ s q).agb.state view = s q :=
    fun q => AgbEngine.state_setState_self ..
  refine ⟨s, ⟨fun p hp => ?_, rfl, d.fits byzantine hb,
    fun _ => d.committee.quorumThreshold_of_unitStakes hu, fun _ => rfl, fun k => ?_,
    fun k hk => if_neg hk, hS⟩, fun p e hp he ht => ?_, fun p q e e' hp hq he he' ht ht' => ?_⟩
  · rw [hstate]
    exact (hs p hp).own
  · unfold Committee.stake
    split
    · next hk => exact (hu k hk).le
    · exact Nat.zero_le _
  · subst ht
    obtain ⟨r, hq, -⟩ := fresh_of_decided hS hb hσ hp he
    refine hq.mono fun q _ ⟨origin, ho⟩ hc => ?_
    rw [hstate]
    exact (hs q hc).votes e origin (accepted_of_fresh hS hb hσ hc ho) rfl
  · exact Sayings.decision_unique (logFacts hS hb hσ view) hS hp hq ⟨he, ht⟩ ⟨he', ht'⟩

/-! ### One outcome -/

/-- A party has sealed the view with an outcome, by any route, or its resolver has decided on an
entry that stands for the outcome. -/
def Settles (σ : ∀ q, Node d q) (p : K) (view : ℕ) (o : Outcome K D) : Prop :=
  (∃ route, .sealed view o route ∈ (σ p).out) ∨
    ∃ e, .decide e ∈ (σ p).resolverOut ∧ e.targetView = view ∧ e.outcome = o

namespace Restored

variable {s : K → ViewState d.session view} {o o' : Outcome K D} {c t c' t' : Manifest K D}
  (T : Restored d byzantine F σ s) (hp : F.Correct p) (hq : F.Correct q)
include T hp

/-- A seal has direct evidence or goes back to a decision of its own party. -/
theorem settles_cases (h : Settles σ p view o) : DirectSeal F (restore σ s) view o ∨
    ∃ e, .decide e ∈ (σ p).resolverOut ∧ e.targetView = view ∧ e.outcome = o := by
  rcases h with ⟨route, h⟩ | h
  · cases hr : route.isResolver with
    | false => exact .inl (T.responses.directSeal hp h hr)
    | true =>
      cases ((T.responses.own p hp).evidence.sealed o route h).1 with
      | resolver _ hres => exact .inr hres
      | directFull | directCore | fastFull | voteSkip => cases hr
  · exact .inr h

include hq

theorem settles_unique (h : Settles σ p view o) (h' : Settles σ q view o') : o = o' := by
  have R := T.responses
  rcases T.settles_cases hp h with hd | ⟨e, he, ht, rfl⟩
  · rcases T.settles_cases hq h' with hd' | ⟨e', he', ht', rfl⟩
    · exact hd.unique R hd'
    · exact hd.eq_outcome R (T.decided q e' hq he' ht')
  · rcases T.settles_cases hq h' with hd' | ⟨e', he', ht', rfl⟩
    · exact (hd'.eq_outcome R (T.decided p e hp he ht)).symm
    · rw [T.unique p q e e' hp hq he he' ht ht']

theorem settles_completed (h : .completed view c t ∈ (σ p).out) :
    (∀ o, Settles σ q view o → CoreIs c t o) ∧
      ∀ c' t', .completed view c' t' ∈ (σ q).out → c' = c ∧ t' = t := by
  have R := T.responses
  obtain ⟨b, rfl, rfl, hb⟩ := R.completionQuorum hp ((R.own p hp).evidence.completed c t h)
  have hcomp : CompletedBy F (restore σ s) b := hb
  refine ⟨fun o ho => ?_, fun c' t' h' => ?_⟩
  · rcases T.settles_cases hq ho with ho | ⟨e, he, ht, rfl⟩
    · exact hcomp.directSeal R ho
    · exact hcomp.committed (T.decided q e hq he ht)
  · obtain ⟨b₁, rfl, rfl, h₁⟩ :=
      R.completionQuorum hq ((R.own q hq).evidence.completed c' t' h')
    obtain rfl := hcomp.unique h₁
    exact ⟨rfl, rfl⟩

end Restored

/-! ### No outcome without correct parties -/

/-- The word of correct parties that an outcome needs: an echo for its manifests, of grade 1 if the
outcome has tips, and for a skip the NO-READY of `f + 1` parties. -/
def Grounded (byzantine : Finset K) (σ : ∀ q, Node d q) (view : ℕ) : Outcome K D → Prop
  | .full c t => ∃ q ∈ d.committee.authorities \ byzantine, ∃ m, .broadcastEcho m ∈ (σ q).out ∧
      m.proposalOut.view = view ∧ m.proposalOut.c = c ∧ m.proposalOut.t = t ∧ m.grade = 1
  | .core c => ∃ q ∈ d.committee.authorities \ byzantine, ∃ m, .broadcastEcho m ∈ (σ q).out ∧
      m.proposalOut.view = view ∧ m.proposalOut.c = c
  | .skip => AtLeast (d.committee.authorities \ byzantine)
      (Thresholds.fromPartyCount d.committee.size).fPlus1Parties
      fun q => .broadcastNoReady view ∈ (σ q).out

namespace Restored

variable {hb : (d.committee.authorities ∩ byzantine).card ≤
    (Thresholds.fromPartyCount d.committee.size).fParties} {s : K → ViewState d.session view}
  (T : Restored d byzantine (d.faults byzantine hb) σ s)
include T

/-- More than `f` of a quorum are correct, and a correct party that answers NO-READY has sent it. -/
theorem grounded_skip {P : K → Prop} (h : AtLeast (d.faults byzantine hb).members
      (d.faults byzantine hb).quorum fun q => (d.faults byzantine hb).Correct q → P q)
    (hP : ∀ q, (d.faults byzantine hb).Correct q → P q →
      ownReady (restore σ s) view q = some .noReady) : Grounded byzantine σ view .skip := by
  obtain ⟨A, hA, hcard, hq⟩ := h
  refine ⟨A \ byzantine, Finset.sdiff_subset_sdiff hA subset_rfl,
    FaultModel.correct_card hA hcard, fun q hqA => ?_⟩
  obtain ⟨hqA, hqb⟩ := Finset.mem_sdiff.mp hqA
  have hc : (d.faults byzantine hb).Correct q := ⟨hA hqA, hqb⟩
  exact (T.responses.own q hc).ready.said _ (hP q hc (hq q hqA hc))

/-- Some correct party has sent an echo for the body of a quorum of READYs, of their grade. -/
theorem echo_of_readies {b : Body d.session view} {grade : ReadyGrade}
    (h : AtLeast (d.faults byzantine hb).members (d.faults byzantine hb).quorum fun q =>
      (d.faults byzantine hb).Correct q →
        ownReady (restore σ s) view q = some (.graded b grade)) :
    ∃ k ∈ d.committee.authorities \ byzantine, ∃ m, .broadcastEcho m ∈ (σ k).out ∧
      m.proposalOut = b.proposal ∧ (grade = .one → m.grade = 1) := by
  obtain ⟨q, hq, hr⟩ := FaultModel.atLeast_correct h FaultModel.f_lt_quorum
  obtain ⟨k, hk, hecho⟩ :=
    FaultModel.atLeast_correct (T.responses.echoed_of_ready hq (hr hq)) FaultModel.f_lt_quorum
  obtain ⟨g, origin, hown, hone, -⟩ := hecho hk
  obtain ⟨m, hm, hb, hg⟩ := (T.responses.own k hk).echo.said _ hown
  exact ⟨k, Finset.mem_sdiff.mpr hk, m, hm, hb, fun h => hg.trans (hone h)⟩

theorem grounded_of_directSeal (hp : (d.faults byzantine hb).Correct p) {o : Outcome K D}
    (h : DirectSeal (d.faults byzantine hb) (restore σ s) view o) :
    Grounded byzantine σ view o := by
  cases h with
  | full b h =>
    obtain ⟨k, hk, m, hm, hb, hg⟩ := T.echo_of_readies h
    exact ⟨k, hk, m, hm, by rw [hb, b.view_eq], by rw [hb], by rw [hb], hg rfl⟩
  | core b h =>
    obtain ⟨k, hk, m, hm, hb, -⟩ := T.echo_of_readies h
    exact ⟨k, hk, m, hm, by rw [hb, b.view_eq], by rw [hb]⟩
  | fast b h =>
    obtain ⟨origin, hown⟩ := h p hp
    obtain ⟨m, hm, hb, hg⟩ := (T.responses.own p hp).echo.said _ hown
    exact ⟨p, Finset.mem_sdiff.mpr hp, m, hm, by rw [hb, b.view_eq], by rw [hb], by rw [hb], hg⟩
  | skip h => exact T.grounded_skip h fun q hq => T.responses.noReady_of_voted hq

end Restored

section Terminal

variable (hS : d.session.hash.CollisionFree) (hu : d.committee.UnitStakes)
  (hb : (d.committee.authorities ∩ byzantine).card ≤
    (Thresholds.fromPartyCount d.committee.size).fParties)
  (hσ : d.Reachable byzantine σ) (hp : p ∈ d.committee.authorities \ byzantine)
  (hq : q ∈ d.committee.authorities \ byzantine) {o o' : Outcome K D} {c t : Manifest K D}

include hS hu hb hσ hp hq in
/-- All seals of a view by any route and all decisions for it, of all correct parties, stand for
one outcome, also after any of them has pruned the view. -/
theorem settled_unique (h : Settles σ p view o) (h' : Settles σ q view o') : o = o' := by
  obtain ⟨s, T⟩ := hσ.restored hS hb hu view
  exact T.settles_unique (Finset.mem_sdiff.mp hp) (Finset.mem_sdiff.mp hq) h h'

/-- After `resolutionScript` party 0, which has sealed view 1 and decided on it, prunes it. -/
def prunedScript : List (Event (Fin 4) ℕ) := resolutionScript ++ [.take 0 (.gcBelow 2)]

theorem prunedScript_reachable :
    (numbered 4).Reachable {2} ((numbered 4).play (fun _ => {}) prunedScript) :=
  Reachable.init.play (by decide +kernel)

theorem settled_unique_prunedScript :
    let σ := (numbered 4).play (fun _ => {}) prunedScript
    (σ 0).agb.isPruned 1 = true ∧ Settles σ 0 1 (.full [] []) ∧ Settles σ 1 1 emptyFull.outcome ∧
      .full [] [] = emptyFull.outcome := by
  have h₀ : .sealed 1 (.full [] []) .directFull ∈
      ((numbered 4).play (fun _ => {}) prunedScript 0).out := by decide +kernel
  have h₁ : .decide emptyFull ∈
      ((numbered 4).play (fun _ => {}) prunedScript 1).resolverOut := by decide +kernel
  exact ⟨by decide +kernel, .inl ⟨_, h₀⟩, .inr ⟨_, h₁, rfl, rfl⟩,
    settled_unique (numbered_collisionFree 4) (numbered_unitStakes 4) (by decide)
      prunedScript_reachable (by decide) (by decide) (.inl ⟨_, h₀⟩) (.inr ⟨_, h₁, rfl, rfl⟩)⟩

include hS hu hb hσ hp hq in
/-- A completion fixes the core of every seal, decision and completion of the view by a correct
party, also after any of them has pruned the view. -/
theorem completed_settled (h : .completed view c t ∈ (σ p).out) :
    (∀ o, Settles σ q view o → CoreIs c t o) ∧
      ∀ c' t', .completed view c' t' ∈ (σ q).out → c' = c ∧ t' = t := by
  obtain ⟨s, T⟩ := hσ.restored hS hb hu view
  exact T.settles_completed (Finset.mem_sdiff.mp hp) (Finset.mem_sdiff.mp hq) h

theorem completed_settled_prunedScript :
    .completed 1 [] [] ∈ ((numbered 4).play (fun _ => {}) prunedScript 0).out ∧
      ∀ o, Settles ((numbered 4).play (fun _ => {}) prunedScript) 1 1 o → CoreIs [] [] o := by
  have h : .completed 1 [] [] ∈ ((numbered 4).play (fun _ => {}) prunedScript 0).out := by
    decide +kernel
  exact ⟨h, (completed_settled (numbered_collisionFree 4) (numbered_unitStakes 4) (by decide)
    prunedScript_reachable (by decide) (by decide) h).1⟩

include hS hu hb hσ hp in
/-- Nobody settles a view on the word of Byzantine parties alone: the manifests of a sealed or
decided outcome were echoed by a correct party, and a view is skipped only if `f + 1` correct
parties have sent NO-READY. -/
theorem settled_grounded (h : Settles σ p view o) : Grounded byzantine σ view o := by
  have hp : (d.faults byzantine hb).Correct p := Finset.mem_sdiff.mp hp
  obtain ⟨s, T⟩ := hσ.restored hS hb hu view
  rcases T.settles_cases hp h with hd | ⟨e, he, rfl, rfl⟩
  · exact T.grounded_of_directSeal hp hd
  -- a decision other than a skip needs `f + 1` origin bits, one of them of a correct party
  obtain ⟨r, -, e', he', horigin⟩ := fresh_of_decided hS hb hσ hp he
  obtain rfl := valueDigest_injective hS he'
  have origin : e'.isNonSkip = true → ∃ q ∈ d.committee.authorities \ byzantine,
      AgbEngine.OriginEcho (σ q).out e' := by
    intro hn
    obtain ⟨q, hq, hsaid⟩ := FaultModel.atLeast_correct (horigin hn) (Nat.lt_succ_self _)
    exact ⟨q, Finset.mem_sdiff.mpr hq, (hσ.votes hS hb q hq e' (some 1)
      (accepted_of_fresh hS hb hσ hq hsaid)).2 rfl⟩
  cases e' with
  | full u c t => exact origin rfl
  | core u c t =>
    obtain ⟨q, hq, m, hm, hv, hc, -⟩ := origin rfl
    exact ⟨q, hq, m, hm, hv, hc⟩
  | skip u =>
    refine T.grounded_skip (T.decided p _ hp he rfl) fun q hq hcom => ?_
    obtain ⟨r, hr, hfits⟩ := hcom.ready
    exact hfits ▸ hr

theorem settled_grounded_skipScript :
    Settles ((numbered 4).play (fun _ => {}) skipScript) 0 1 .skip ∧
      Grounded {3} ((numbered 4).play (fun _ => {}) skipScript) 1 .skip := by
  have h : .sealed 1 .skip .voteSkip ∈ ((numbered 4).play (fun _ => {}) skipScript 0).out := by
    decide +kernel
  exact ⟨.inl ⟨_, h⟩, settled_grounded (numbered_collisionFree 4) (numbered_unitStakes 4)
    (by decide) (Reachable.init.play (by decide +kernel)) (by decide) (.inl ⟨_, h⟩)⟩

end Terminal

end Deployment

end Vantage
