import Vantage.Resolver.Fixpoint
import Vantage.System.Invariant
import Vantage.System.Votes

/-!
# The resolver of a correct party returns

* `Deployment.resolver_returns`: every call that advances a view returns.
-/

namespace Vantage

variable {K D : Type} [LinearOrder K] [LinearOrder D] [Inhabited D]
  {accepted : K → ResolutionEntry K D → Bool → Option ℕ → Prop}

omit [LinearOrder D] [Inhabited D] in
theorem Sayings.echoed_unique {F : FaultModel K} {S : Session K D} {H : K → History K D}
    (hlog : ∀ p, F.Correct p → LogFacts F H S (accepted p) (H p)) {r key key' : ℕ} {v w : D}
    (hv : Echoed F H r v key) (hw : Echoed F H r w key') : v = w := by
  obtain ⟨q, hq, ⟨o, ho⟩, o', ho'⟩ := FaultModel.atLeast_inter hv hw
  have := (hlog q hq).unique r .echo _ _ ho ho'
  exact congrArg StatementRecord.value this

theorem Honest.coherent {F : FaultModel K} {S : Session K D} {cfg : ResolverConfig K D} {target : ℕ}
    {H : K → History K D} {accepted' : ResolutionEntry K D → Bool → Option ℕ → Prop}
    {mayStart : Prop} {c : Core K D} (hc : Honest F S cfg target H accepted' mayStart c)
    (hF : cfg.toConfig.Fits F) (hlog : ∀ p, F.Correct p → LogFacts F H S (accepted p) (H p)) :
    c.Coherent cfg := by
  intro i hi view fresh witnessed hfresh hcount
  have hb := hc.ballots i hi view
  rw [hF.quorumParties] at hcount
  obtain ⟨p, hp, hw⟩ := FaultModel.atLeast_correct (hb.atLeast_witness hcount)
    FaultModel.f_lt_quorum
  exact Sayings.echoed_unique hlog ((hlog p hp).witness view witnessed hw).1 (hb.fresh hF hfresh).1

namespace Deployment

variable {d : Deployment K D} {byzantine : Finset K} {σ : ∀ q, Node d q} {p : K}

/-- Whatever happens during a call, the target of a correct party stays coherent. -/
theorem stable_of_steps {hb : (d.committee.authorities ∩ byzantine).card ≤
      (Thresholds.fromPartyCount d.committee.size).fParties}
    (hw : (world σ).Inv (d.faults byzantine hb) d.session d.cfg)
    (hp : (d.faults byzantine hb).Correct p) {t : ℕ} {es : List (DirectResolutionEffect K D)}
    {s : TargetState d.session (d.cfg p).committee t}
    (hs : Steps (TargetState.Step (d.cfg p) ((world σ).inputs d.committee p t))
      ((σ p).resolver.state t) es s) {J : ResolverInputs K D}
    (hJ : J.Le ((world σ).inputs d.committee p t)) : s.Stable (d.cfg p) J := by
  intro es' s' hs'
  have hall := hs.trans (hs'.mono fun _ _ _ h => CoreStep.mono hJ h)
  have hsteps := DirectResolver.steps_lift (I := (world σ).inputs d.committee p) hall (σ p).resolver
  have hcore : (world σ).core p = fun t' =>
      (((σ p).resolver.setState t ((σ p).resolver.state t)).state t').core := by
    funext t'
    by_cases ht : t' = t
    · subst ht
      rw [DirectResolver.state_setState_self]
      rfl
    · rw [DirectResolver.state_setState_ne _ _ ht]
      rfl
  have hw' := World.Inv.of_steps (fun _ => rfl) (d.fits byzantine hb) hp hsteps hw hcore
    fun _ => .refl _
  have hhonest := hw' p hp t
  simp only [Function.update_self, DirectResolver.state_setState_self] at hhonest
  exact hhonest.coherent (d.fits byzantine hb p) (hw'.logFacts (fun _ => rfl) t)

theorem inputs_validate_le (lm : Lanes K D) (entry : ResolutionEntry K D) (fresh : Bool) {t : ℕ} :
    ((world σ).inputs d.committee p t).Le ((world (Function.update σ p
      ((σ p).validate lm entry fresh).2)).inputs d.committee p t) := by
  have hout : (world (Function.update σ p ((σ p).validate lm entry fresh).2)).out =
      (world σ).out := by
    rw [world_update]
    exact Function.update_eq_self p _
  refine inputsOf_le (fun q => ?_) (fun e f o ho => ?_) fun hf => ?_
  · unfold World.said
    rw [hout]
    exact .refl _
  · rw [world_update]
    simp only [Function.update_self]
    exact mem_accepted_validate lm entry fresh ho
  · rw [world_update]
    simp only [Function.update_self]
    exact hf

/-- The resolver's recursion returns: in every state of a correct party, and in every state it goes
through during a call, `advance_view`, `recheck_backing` and `retry_target` return, and so do
`on_witness` and `on_statement` for everything that can be delivered and `on_vote` for every answer
of the caller. -/
theorem resolver_returns (d : Deployment K D) (byzantine : Finset K)
    (hb : (d.committee.authorities ∩ byzantine).card ≤
      (Thresholds.fromPartyCount d.committee.size).fParties)
    {σ : ∀ q, Node d q} (h : d.Reachable byzantine σ) {p : K} (hp : p ∈ d.committee.authorities)
    (hc : p ∉ byzantine) {t : ℕ} {es : List (DirectResolutionEffect K D)}
    {s : TargetState d.session (d.cfg p).committee t}
    (hs : Steps (TargetState.Step (d.cfg p) ((world σ).inputs d.committee p t))
      ((σ p).resolver.state t) es s) :
    (∀ view, TargetState.Returns (d.cfg p) (fun advanceView => advanceView view) s ∧
      TargetState.Returns (d.cfg p)
        (fun advanceView => TargetState.recheckBacking (d.cfg p) view (advanceView view)) s) ∧
    TargetState.Returns (d.cfg p) (TargetState.retryTargetWith (d.cfg p)) s ∧
    (∀ m : DirectResolutionWitness K D, m.target = t → d.Deliverable byzantine σ p (.witness m) →
      TargetState.Returns (d.cfg p) (TargetState.onWitnessWith (d.cfg p) m) s) ∧
    (∀ m : DirectResolutionStatement K D, m.target = t →
      d.Deliverable byzantine σ p (.statement m) →
      TargetState.Returns (d.cfg p) (TargetState.onStatementWith (d.cfg p) m) s) ∧
    ∀ lm view value entry fresh,
      d.Deliverable byzantine σ p (.validateVote t view value entry fresh) →
      TargetState.Returns (d.cfg p)
        (TargetState.onVoteWith (d.cfg p) view value ((σ p).validate lm entry fresh).1.vote) s := by
  have hcorrect : (d.faults byzantine hb).Correct p := ⟨hp, hc⟩
  have hw := Reachable.world_inv hb h
  have hstable := stable_of_steps hw hcorrect hs (ResolverInputs.withoutStart_le _)
  have hI : ¬((world σ).inputs d.committee p t).withoutStart.mayStart := id
  refine ⟨fun view => ⟨TargetState.returns_advanceView hI hstable view,
    TargetState.returns_recheckBacking hI hstable view⟩,
    TargetState.returns_retryTarget hI hstable, ?_, ?_, ?_⟩
  · rintro m rfl ⟨hm, x, hx, hxm⟩
    exact TargetState.returns_onWitness hI hstable ⟨hm, x, hx, m.entry, hxm⟩
  · rintro m rfl hm
    exact TargetState.returns_onStatement hI hstable ⟨rfl, hm⟩
  · intro lm view value entry fresh hi
    -- The vote is logged before the resolver hears of it.
    have hw' := world_inv_of_change hw hcorrect (.validate lm entry fresh)
    have hs' : Steps (TargetState.Step (d.cfg p) ((world (Function.update σ p
        ((σ p).validate lm entry fresh).2)).inputs d.committee p t))
        (((Function.update σ p ((σ p).validate lm entry fresh).2) p).resolver.state t) es s := by
      rw [Function.update_self]
      exact hs.mono fun _ _ _ h => CoreStep.mono (inputs_validate_le lm entry fresh) h
    refine TargetState.returns_onVote (I := ResolverInputs.withoutStart _) id
      (stable_of_steps hw' hcorrect hs' (ResolverInputs.withoutStart_le _)) fun origin ho => ?_
    exact vote_validate hi ho

/-- Party 0 has a quorum of ECHOs and lacks one witness. -/
def echoedScript : List (Event (Fin 4) ℕ) := resolutionScript.take 28

def lastWitness : DirectResolutionWitness (Fin 4) ℕ :=
  ⟨1, 1, valueDigest (numbered 4).session emptyFull, emptyFull, 2⟩

theorem resolver_returns_lastWitness :
    (TargetState.onWitness ((numbered 4).cfg 0) TargetState.loopBound lastWitness
      (((numbered 4).play (fun _ => {}) echoedScript 0).resolver.state 1)).2 ≠ [] ∧
    TargetState.Returns ((numbered 4).cfg 0)
      (TargetState.onWitnessWith ((numbered 4).cfg 0) lastWitness)
      (((numbered 4).play (fun _ => {}) echoedScript 0).resolver.state 1) := by
  have hreach : (numbered 4).Reachable {2} ((numbered 4).play (fun _ => {}) echoedScript) :=
    Reachable.init.play (by decide +kernel)
  have hdeliver : (numbered 4).Deliverable {2} ((numbered 4).play (fun _ => {}) echoedScript) 0
      (.witness lastWitness) := by decide +kernel
  refine ⟨by decide +kernel, ?_⟩
  exact (resolver_returns (numbered 4) {2} (by decide) hreach (by decide) (by decide)
    (Steps.refl _)).2.2.1 lastWitness rfl hdeliver

end Deployment

end Vantage
