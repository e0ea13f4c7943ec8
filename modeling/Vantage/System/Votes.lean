import Vantage.Agb.Commit
import Vantage.System.Seals

/-!
# Seals, completions and resolver decisions agree

* `resolver_agreement`, `resolver_externally_valid`: agreement and external validity;
* `sealed_decided_agree`: a direct seal and a decision stand for the same outcome;
* `completed_final`: a completion fixes the core.
-/

namespace Vantage

variable {K D : Type} [LinearOrder K] [LinearOrder D] [Inhabited D]

namespace Deployment

variable {d : Deployment K D} {byzantine : Finset K} {F : FaultModel K} {σ : ∀ q, Node d q}
  {p q : K} {e : ResolutionEntry K D}

/-- Accepted fresh votes commit their party, and origin bits are honest. -/
def Votes (F : FaultModel K) (σ : ∀ q, Node d q) : Prop :=
  ∀ p, F.Correct p → ∀ e origin, (e, true, origin) ∈ (σ p).accepted →
    (σ p).agb.Committed (d.cfg p).toConfig e ∧
      (origin = some 1 → AgbEngine.OriginEcho (σ p).out e)

theorem mem_accepted_cases {lm : Lanes K D} {entry : ResolutionEntry K D} {fresh : Bool}
    {n : Node d p} {x : ResolutionEntry K D × Bool × Option ℕ}
    (h : x ∈ (n.validate lm entry fresh).2.accepted) :
    x ∈ n.accepted ∨ (x.1 = entry ∧ x.2.1 = fresh ∧
      (n.agb.tryDirectResolutionVote (d.cfg p).toConfig lm entry fresh).1 = .accept x.2.2) := by
  unfold Node.validate at h
  dsimp only at h
  split at h
  · next origin ho =>
    rcases List.mem_append.mp h with h | h
    · exact .inl h
    · obtain rfl := List.mem_singleton.mp h
      exact .inr ⟨rfl, rfl, ho⟩
  · exact .inl h

theorem votes_of_change {hb : (d.committee.authorities ∩ byzantine).card ≤
      (Thresholds.fromPartyCount d.committee.size).fParties}
    (hI : d.Inv byzantine (d.faults byzantine hb) σ) (hp : (d.faults byzantine hb).Correct p)
    (hV : Votes (d.faults byzantine hb) σ) {n : Node d p} (h : Change d byzantine σ p n) :
    Votes (d.faults byzantine hb) (Function.update σ p n) := by
  have hecho : ∀ view, (d.agbInputs byzantine σ p view).Echoed (d.cfg p).toConfig (σ p).out :=
    agbInputs_echoed hp.2
  have hown := hI.agb p hp
  intro q hq e origin hacc
  by_cases hqp : q = p
  swap
  · rw [Function.update_of_ne hqp] at hacc ⊢
    exact hV q hq e origin hacc
  subst hqp
  rw [Function.update_self] at hacc ⊢
  cases h with
  | @agb _ _ es hs _ =>
    obtain ⟨hc, ho⟩ := hV q hq e origin hacc
    exact ⟨hc.of_steps hs hown hecho, fun h1 => (ho h1).append es⟩
  | resolver _ => exact hV q hq e origin hacc
  | gc floor =>
    obtain ⟨hc, ho⟩ := hV q hq e origin hacc
    exact ⟨hc.gcBelow floor, ho⟩
  | validate lm entry fresh =>
    have hs : Steps (AgbEngine.Step (d.cfg q).toConfig (d.agbInputs byzantine σ q)) (σ q).agb []
        ((σ q).validate lm entry fresh).2.agb := AgbEngine.steps_tryDirectResolutionVote _
    rcases mem_accepted_cases hacc with hold | ⟨rfl, rfl, ho⟩
    · obtain ⟨hc, ho⟩ := hV q hq e origin hold
      exact ⟨hc.of_steps hs hown hecho, ho⟩
    · refine ⟨AgbEngine.committed_of_accept ho, fun h1 => ?_⟩
      obtain ⟨hpr, -, -, he', horigin⟩ := AgbEngine.accept_fresh ho
      have hown' := hown.of_steps hs hecho
      rw [List.append_nil] at hown'
      change ((σ q).agb.tryDirectResolutionVote (d.cfg q).toConfig lm _ true).2.Own _ _ _ at hown'
      rw [he'] at hown'
      refine AgbEngine.originEcho_of_one hown' ?_ (horigin.symm.trans h1)
      rw [AgbEngine.isPruned_claimNonSkip]
      exact hpr

theorem Reachable.votes (hS : d.session.hash.CollisionFree)
    (hb : (d.committee.authorities ∩ byzantine).card ≤
      (Thresholds.fromPartyCount d.committee.size).fParties)
    (h : d.Reachable byzantine σ) : Votes (d.faults byzantine hb) σ := by
  refine (h.induct hS hb (P := Votes (d.faults byzantine hb)) nofun
    (fun σ p n hI hV hp hc => votes_of_change hI hp hV hc) fun σ q es hq hV => ?_).2
  intro p hp e origin hacc
  have hne : p ≠ q := fun h => hp.2 (h ▸ hq)
  rw [Function.update_of_ne hne] at hacc ⊢
  exact hV p hp e origin hacc

/-! ### Decisions of the resolver -/

section Decisions

variable (hS : d.session.hash.CollisionFree)
  (hb : (d.committee.authorities ∩ byzantine).card ≤
    (Thresholds.fromPartyCount d.committee.size).fParties)
  (hσ : d.Reachable byzantine σ) {e : ResolutionEntry K D}
include hS hσ

theorem logFacts (target : ℕ) (p : K) (hp : (d.faults byzantine hb).Correct p) :
    LogFacts (d.faults byzantine hb) ((world σ).said target) d.session ((world σ).accepted p)
      ((world σ).said target p) :=
  (hσ.inv hS hb).resolver.logFacts (fun _ => rfl) target p hp

theorem accepted_of_fresh {r : ℕ} {origin : Option ℕ} (hq : (d.faults byzantine hb).Correct q)
    (h : ((world σ).said e.targetView q).statement r .echo
      ⟨valueDigest d.session e, some 0, origin⟩) : (e, true, origin) ∈ (σ q).accepted := by
  obtain ⟨key, hkey, -, -, hacc, -⟩ := (logFacts hS hb hσ e.targetView q hq).echo r _ h
  cases hkey
  obtain ⟨e', he', hacc⟩ := hacc rfl
  rw [valueDigest_injective hS he'] at hacc
  exact hacc

/-- What a decision says about the correct parties: a quorum has echoed the value fresh. -/
theorem fresh_of_decided (hp : (d.faults byzantine hb).Correct p)
    (he : .decide e ∈ (σ p).resolverOut) :
    ∃ r, Fresh (d.faults byzantine hb) ((world σ).said e.targetView) d.session r
      (valueDigest d.session e) :=
  Sayings.decision_fresh (logFacts hS hb hσ e.targetView) hp ⟨he, rfl⟩

theorem committed_of_decided (hp : (d.faults byzantine hb).Correct p)
    (he : .decide e ∈ (σ p).resolverOut) :
    AtLeast (d.faults byzantine hb).members (d.faults byzantine hb).quorum fun q =>
      (d.faults byzantine hb).Correct q → (σ q).agb.Committed (d.cfg q).toConfig e := by
  obtain ⟨r, hq, -⟩ := fresh_of_decided hS hb hσ hp he
  refine hq.mono fun q _ ⟨origin, ho⟩ hc => ?_
  exact (hσ.votes hS hb q hc e origin (accepted_of_fresh hS hb hσ hc ho)).1

end Decisions

/-- Resolver agreement: no two correct nodes decide different entries for a target. -/
theorem resolver_agreement (d : Deployment K D) (hS : d.session.hash.CollisionFree)
    (byzantine : Finset K)
    (hb : (d.committee.authorities ∩ byzantine).card ≤
      (Thresholds.fromPartyCount d.committee.size).fParties)
    {σ : ∀ q, Node d q} (hσ : d.Reachable byzantine σ) {p q : K}
    (hp : p ∈ d.committee.authorities) (hp' : p ∉ byzantine) (hq : q ∈ d.committee.authorities)
    (hq' : q ∉ byzantine) {e e' : ResolutionEntry K D} (ht : e.targetView = e'.targetView)
    (he : .decide e ∈ (σ p).resolverOut) (he' : .decide e' ∈ (σ q).resolverOut) : e = e' := by
  have hc : (d.faults byzantine hb).Correct p := ⟨hp, hp'⟩
  have hc' : (d.faults byzantine hb).Correct q := ⟨hq, hq'⟩
  exact Sayings.decision_unique (logFacts hS hb hσ e.targetView) hS hc hc' ⟨he, rfl⟩ ⟨he', ht.symm⟩

/-- Party 2 of four is Byzantine and party 3 is silent. Parties 0 and 1 echo the proposal, complete
its view and seal it as full. -/
def completing (p : ViewProposal (Fin 4) ℕ) : List (Event (Fin 4) ℕ) :=
  let echo (q : Fin 4) : NodeInput (Fin 4) ℕ := .echo (.single ⟨p, 1, q, none, none⟩)
  let ready (q : Fin 4) : NodeInput (Fin 4) ℕ := .ready (.single ⟨p, .one, q⟩)
  [.take 0 (.enter p.view 0), .take 1 (.enter p.view 0),
    .take 0 (.propose 0 (.single p) 0), .take 1 (.propose 0 (.single p) 0),
    .take 0 (echo 1), .take 0 (echo 2), .take 1 (echo 0), .take 1 (echo 2),
    .take 0 (ready 1), .take 0 (ready 2), .take 1 (ready 0), .take 1 (ready 2)]

/-- The empty proposal of view 1 is completed and sealed. -/
def completionScript : List (Event (Fin 4) ℕ) := completing ⟨1, [], [], none⟩

/-- The value that is resolved by `resolutionScript`. -/
def emptyFull : ResolutionEntry (Fin 4) ℕ := .full 1 [] []

/-- After `completionScript` the same parties resolve view 1; party 2 is the primary of the
first resolver view. -/
def resolutionScript : List (Event (Fin 4) ℕ) :=
  let value := valueDigest (numbered 4).session emptyFull
  let vote (phase : DirectResolutionPhase) (q : Fin 4) : DirectResolutionStatement (Fin 4) ℕ :=
    match phase with
    | .echo => ⟨1, 1, value, .echo, some 0, some 1, q⟩
    | _ => ⟨1, 1, value, phase, none, none, q⟩
  let each (inputs : Fin 4 → List (NodeInput (Fin 4) ℕ)) : List (Event (Fin 4) ℕ) :=
    (inputs 1).map (.take 0) ++ (inputs 0).map (.take 1)
  let phase (k : DirectResolutionPhase) : List (Event (Fin 4) ℕ) :=
    each fun q => [.statement (vote k q), .statement (vote k 2)]
  completionScript ++
    each (fun q => [.updateCandidates 1 [emptyFull], .wish ⟨1, 1, q⟩, .wish ⟨1, 1, 2⟩]) ++
    [.say 2 [.broadcastStatement (vote .echo 2), .broadcastWitness ⟨1, 1, value, emptyFull, 2⟩,
      .broadcastStatement (vote .key1 2), .broadcastStatement (vote .key2 2),
      .broadcastStatement (vote .key3 2), .broadcastStatement (vote .lock 2),
      .broadcastDone ⟨1, value, emptyFull, 2⟩]] ++
    each (fun _ => [.proposal ⟨1, 1, 0, value, emptyFull, 2⟩,
      .validateVote 1 1 value emptyFull true]) ++
    phase .echo ++
    each (fun q => [.witness ⟨1, 1, value, emptyFull, q⟩, .witness ⟨1, 1, value, emptyFull, 2⟩]) ++
    phase .key1 ++ phase .key2 ++ phase .key3 ++ phase .lock ++
    each (fun q => [.done ⟨1, value, emptyFull, q⟩, .done ⟨1, value, emptyFull, 2⟩])

theorem resolutionScript_reachable :
    (numbered 4).Reachable {2} ((numbered 4).play (fun _ => {}) resolutionScript) :=
  Reachable.init.play (by decide +kernel)

theorem resolutionScript_decides :
    .decide emptyFull ∈ ((numbered 4).play (fun _ => {}) resolutionScript 0).resolverOut ∧
      .decide emptyFull ∈ ((numbered 4).play (fun _ => {}) resolutionScript 1).resolverOut := by
  decide +kernel

theorem resolver_agreement_resolutionScript :
    .decide emptyFull ∈ ((numbered 4).play (fun _ => {}) resolutionScript 0).resolverOut ∧
      .decide emptyFull ∈ ((numbered 4).play (fun _ => {}) resolutionScript 1).resolverOut ∧
      emptyFull = emptyFull := by
  obtain ⟨h₀, h₁⟩ := resolutionScript_decides
  exact ⟨h₀, h₁, resolver_agreement (numbered 4) (numbered_collisionFree 4) {2} (by decide)
    resolutionScript_reachable (by decide) (by decide) (by decide) (by decide) rfl h₀ h₁⟩

/-- A party has sent an ECHO for a fresh value in a resolver view. -/
def SentFreshEcho (σ : ∀ q, Node d q) (view : ℕ) (e : ResolutionEntry K D) (origin : Option ℕ)
    (q : K) : Prop :=
  ∃ x ∈ (σ q).resolverOut, x.statement? = some
    ⟨e.targetView, view, valueDigest d.session e, .echo, some 0, origin, q⟩

/-- External validity of the resolver: a decided value was echoed fresh by `n - f` parties in
one resolver view, so `f + 1` correct parties accepted it as a fresh value, and unless it is a
skip one of them did so first-hand, with an own AGB echo for exactly its payload. -/
theorem resolver_externally_valid (d : Deployment K D) (hS : d.session.hash.CollisionFree)
    (byzantine : Finset K)
    (hb : (d.committee.authorities ∩ byzantine).card ≤
      (Thresholds.fromPartyCount d.committee.size).fParties)
    {σ : ∀ q, Node d q} (hσ : d.Reachable byzantine σ) {p : K}
    (hp : p ∈ d.committee.authorities) (hp' : p ∉ byzantine) {e : ResolutionEntry K D}
    (he : .decide e ∈ (σ p).resolverOut) :
    ∃ view, ∃ A ⊆ d.committee.authorities,
      (Thresholds.fromPartyCount d.committee.size).nMinusFParties ≤ A.card ∧
      (∀ q ∈ A, ∃ origin, SentFreshEcho σ view e origin q) ∧
      (Thresholds.fromPartyCount d.committee.size).fPlus1Parties ≤ (A \ byzantine).card ∧
      (∀ q ∈ A \ byzantine, ∃ origin, (e, true, origin) ∈ (σ q).accepted) ∧
      (e.isNonSkip = true → ∃ q ∈ d.committee.authorities \ byzantine,
        SentFreshEcho σ view e (some 1) q ∧ (e, true, some 1) ∈ (σ q).accepted ∧
          AgbEngine.OriginEcho (σ q).out e) := by
  have hc : (d.faults byzantine hb).Correct p := ⟨hp, hp'⟩
  obtain ⟨r, ⟨A, hA, hcard, hecho⟩, e', he', horigin⟩ := fresh_of_decided hS hb hσ hc he
  obtain rfl := valueDigest_injective hS he'
  refine ⟨r, A, hA, hcard, hecho, FaultModel.correct_card hA hcard, fun q hq => ?_, fun hn => ?_⟩
  · obtain ⟨hqA, hqb⟩ := Finset.mem_sdiff.mp hq
    obtain ⟨origin, ho⟩ := hecho q hqA
    exact ⟨origin, accepted_of_fresh hS hb hσ ⟨hA hqA, hqb⟩ ho⟩
  · obtain ⟨q, hq, hsaid⟩ := FaultModel.atLeast_correct (horigin hn) (Nat.lt_succ_self _)
    have hacc := accepted_of_fresh hS hb hσ hq hsaid
    exact ⟨q, Finset.mem_sdiff.mpr hq, hsaid, hacc,
      (hσ.votes hS hb q hq e' (some 1) hacc).2 rfl⟩

theorem resolver_externally_valid_resolutionScript :
    ∃ q ∈ ({0, 1, 2, 3} : Finset (Fin 4)) \ {2},
      (emptyFull, true, some 1) ∈
        ((numbered 4).play (fun _ => {}) resolutionScript q).accepted ∧
      AgbEngine.OriginEcho ((numbered 4).play (fun _ => {}) resolutionScript q).out
        emptyFull := by
  obtain ⟨_, _, _, _, _, _, _, horigin⟩ := resolver_externally_valid (numbered 4)
    (numbered_collisionFree 4) {2} (by decide) resolutionScript_reachable (by decide) (by decide)
    resolutionScript_decides.1
  obtain ⟨q, hq, -, hacc, hecho⟩ := horigin rfl
  exact ⟨q, hq, hacc, hecho⟩

/-! ### Decisions against seals and completions -/

theorem DirectSeal.eq_outcome {view : ℕ} (R : d.Responses byzantine F σ view) {o : Outcome K D}
    (h : DirectSeal F σ view o)
    (he : AtLeast F.members F.quorum fun q => F.Correct q →
      ((σ q).agb.state view).toStatements.Committed (d.cfg q).toConfig e) : o = e.outcome := by
  cases h with
  | full b h =>
    obtain ⟨q, hq, hr, hcom⟩ := FaultModel.atLeast_inter h he
    obtain ⟨r, hr', hfits⟩ := (hcom hq).ready
    obtain rfl : ReadyStatement.graded b .one = r := Option.some.inj ((hr hq).symm.trans hr')
    cases e with
    | full u c t =>
      obtain ⟨-, rfl, rfl⟩ := hfits b .one rfl
      rfl
    | core u c t => exact absurd rfl (hfits b .one rfl).1
    | skip u => cases hfits
  | core b h =>
    obtain ⟨q, hq, hr, hcom⟩ := FaultModel.atLeast_inter h he
    obtain ⟨r, hr', hfits⟩ := (hcom hq).ready
    obtain rfl : ReadyStatement.graded b .zero = r := Option.some.inj ((hr hq).symm.trans hr')
    cases e with
    | full u c t => exact absurd rfl (hfits b .zero rfl).1
    | core u c t =>
      obtain ⟨-, rfl, -⟩ := hfits b .zero rfl
      rfl
    | skip u => cases hfits
  | fast b h =>
    obtain ⟨q, hq, hcom⟩ := FaultModel.atLeast_correct he FaultModel.f_lt_quorum
    obtain ⟨l, hl, rfl, hactive⟩ := R.lock_active h hq
    obtain ⟨u, rfl⟩ := (hcom hq).lock l hl hactive
    rfl
  | skip h =>
    obtain ⟨q, hq, hv, hcom⟩ := FaultModel.atLeast_inter h he
    have hstance := (hcom hq).stance
    rw [hv hq] at hstance
    cases e with
    | full u c t => cases hstance rfl
    | core u c t => cases hstance rfl
    | skip u => rfl

/-- A quorum of READYs for one body, of any grades. -/
def CompletedBy (F : FaultModel K) (σ : ∀ q, Node d q) {view : ℕ} (b : Body d.session view) :
    Prop :=
  AtLeast F.members F.quorum fun q => F.Correct q →
    ∃ grade, ownReady σ view q = some (.graded b grade)

/-- The outcomes that a completion leaves. -/
def CoreIs (c t : Manifest K D) (o : Outcome K D) : Prop := o = .full c t ∨ o = .core c

theorem CompletedBy.unique {view : ℕ} {b b' : Body d.session view} (h : CompletedBy F σ b)
    (h' : CompletedBy F σ b') : b = b' := by
  obtain ⟨q, hq, h1, h2⟩ := FaultModel.atLeast_inter h h'
  obtain ⟨g, hg⟩ := h1 hq
  obtain ⟨g', hg'⟩ := h2 hq
  rw [hg] at hg'
  cases hg'
  rfl

theorem CompletedBy.directSeal {view : ℕ} (R : d.Responses byzantine F σ view)
    {b : Body d.session view} (h : CompletedBy F σ b) {o : Outcome K D}
    (ho : DirectSeal F σ view o) : CoreIs b.proposal.c b.proposal.t o := by
  cases ho with
  | full b' h' =>
    obtain rfl := h.unique (h'.mono fun q _ hq hc => ⟨_, hq hc⟩)
    exact .inl rfl
  | core b' h' =>
    obtain rfl := h.unique (h'.mono fun q _ hq hc => ⟨_, hq hc⟩)
    exact .inr rfl
  | fast b' h' =>
    obtain ⟨q, hq, hr⟩ := FaultModel.atLeast_correct h FaultModel.f_lt_quorum
    obtain ⟨g, hg⟩ := hr hq
    obtain rfl := (R.ready_of_fast h' hq hg).1
    exact .inl rfl
  | skip h' =>
    obtain ⟨q, hq, hr, hvote⟩ := FaultModel.atLeast_inter h h'
    obtain ⟨g, hg⟩ := hr hq
    rw [R.noReady_of_voted hq (hvote hq)] at hg
    cases hg

theorem CompletedBy.committed {view : ℕ} {b : Body d.session view} (h : CompletedBy F σ b)
    (he : AtLeast F.members F.quorum fun q => F.Correct q →
      ((σ q).agb.state view).toStatements.Committed (d.cfg q).toConfig e) :
    CoreIs b.proposal.c b.proposal.t e.outcome := by
  obtain ⟨q, hq, hr, hcom⟩ := FaultModel.atLeast_inter h he
  obtain ⟨g, hg⟩ := hr hq
  obtain ⟨r, hr', hfits⟩ := (hcom hq).ready
  obtain rfl : ReadyStatement.graded b g = r := Option.some.inj (hg.symm.trans hr')
  cases e with
  | full u c t =>
    obtain ⟨-, rfl, rfl⟩ := hfits b g rfl
    exact .inl rfl
  | core u c t =>
    obtain ⟨-, rfl, rfl⟩ := hfits b g rfl
    exact .inr rfl
  | skip u => cases hfits

section Terminal

variable (hS : d.session.hash.CollisionFree)
  (hb : (d.committee.authorities ∩ byzantine).card ≤
    (Thresholds.fromPartyCount d.committee.size).fParties)
  (hσ : d.Reachable byzantine σ) {view : ℕ}
  (hv : ∀ p ∈ d.committee.authorities, p ∉ byzantine → (σ p).agb.isPruned view = false)
include hS hσ hv

theorem committed_at (hp : (d.faults byzantine hb).Correct p) (he : .decide e ∈ (σ p).resolverOut)
    (ht : e.targetView = view) :
    AtLeast (d.faults byzantine hb).members (d.faults byzantine hb).quorum fun q =>
      (d.faults byzantine hb).Correct q →
        ((σ q).agb.state view).toStatements.Committed (d.cfg q).toConfig e := by
  subst ht
  exact (committed_of_decided hS hb hσ hp he).mono fun q _ h hq => h hq (hv q hq.1 hq.2)

end Terminal

/-- AGB seals and resolver decisions agree: if a correct node seals a view by READYs, by echoes
or by skip votes, every correct node's decision for it stands for the same outcome. -/
theorem sealed_decided_agree (d : Deployment K D) (hS : d.session.hash.CollisionFree)
    (hu : d.committee.UnitStakes) (byzantine : Finset K)
    (hb : (d.committee.authorities ∩ byzantine).card ≤
      (Thresholds.fromPartyCount d.committee.size).fParties)
    {σ : ∀ q, Node d q} (hσ : d.Reachable byzantine σ) {view : ℕ}
    (hv : ∀ p ∈ d.committee.authorities, p ∉ byzantine → (σ p).agb.isPruned view = false)
    {p q : K} (hp : p ∈ d.committee.authorities) (hp' : p ∉ byzantine)
    (hq : q ∈ d.committee.authorities) (hq' : q ∉ byzantine) {o : Outcome K D} {route : Route}
    (hr : route.isResolver = false) (h : .sealed view o route ∈ (σ p).out)
    {e : ResolutionEntry K D} (ht : e.targetView = view)
    (he : .decide e ∈ (σ q).resolverOut) : o = e.outcome := by
  have R := hσ.responses hS hb hu hv
  exact (R.directSeal ⟨hp, hp'⟩ h hr).eq_outcome R (committed_at hS hb hσ hv ⟨hq, hq'⟩ he ht)

theorem sealed_decided_agree_resolutionScript :
    .sealed 1 (.full [] []) .directFull ∈
        ((numbered 4).play (fun _ => {}) resolutionScript 0).out ∧
      .decide emptyFull ∈ ((numbered 4).play (fun _ => {}) resolutionScript 1).resolverOut ∧
      .full [] [] = emptyFull.outcome := by
  have h : .sealed 1 (.full [] []) .directFull ∈
      ((numbered 4).play (fun _ => {}) resolutionScript 0).out := by decide +kernel
  exact ⟨h, resolutionScript_decides.2, sealed_decided_agree (numbered 4)
    (numbered_collisionFree 4) (numbered_unitStakes 4) {2} (by decide)
    resolutionScript_reachable (by decide +kernel) (by decide) (by decide) (by decide) (by decide)
    rfl h rfl resolutionScript_decides.2⟩

/-- Completion is final for the core: after a correct node has completed a view with `(c, t)`,
no correct node seals it as skipped by any route, every completion of a correct node is with
`(c, t)`, and every seal of a correct node is `full c t` or `core c`. -/
theorem completed_final (d : Deployment K D) (hS : d.session.hash.CollisionFree)
    (hu : d.committee.UnitStakes) (byzantine : Finset K)
    (hb : (d.committee.authorities ∩ byzantine).card ≤
      (Thresholds.fromPartyCount d.committee.size).fParties)
    {σ : ∀ q, Node d q} (hσ : d.Reachable byzantine σ) {view : ℕ}
    (hv : ∀ p ∈ d.committee.authorities, p ∉ byzantine → (σ p).agb.isPruned view = false)
    {p q : K} (hp : p ∈ d.committee.authorities) (hp' : p ∉ byzantine)
    (hq : q ∈ d.committee.authorities) (hq' : q ∉ byzantine) {c t : Manifest K D}
    (h : .completed view c t ∈ (σ p).out) :
    (∀ route, .sealed view .skip route ∉ (σ q).out) ∧
    (∀ c' t', .completed view c' t' ∈ (σ q).out → c' = c ∧ t' = t) ∧
    ∀ o route, .sealed view o route ∈ (σ q).out → o = .full c t ∨ o = .core c := by
  have R := hσ.responses hS hb hu hv
  have hcp : (d.faults byzantine hb).Correct p := ⟨hp, hp'⟩
  have hcq : (d.faults byzantine hb).Correct q := ⟨hq, hq'⟩
  obtain ⟨b, rfl, rfl, hb'⟩ := R.completionQuorum hcp ((R.own p hcp).evidence.completed c t h)
  have hcomp : CompletedBy (d.faults byzantine hb) σ b := hb'
  have hseal : ∀ o route, .sealed view o route ∈ (σ q).out →
      CoreIs b.proposal.c b.proposal.t o := by
    intro o route ho
    cases hr : route.isResolver with
    | false => exact hcomp.directSeal R (R.directSeal hcq ho hr)
    | true =>
      -- A seal by the resolver goes back to a decision of this node.
      cases ((R.own q hcq).evidence.sealed o route ho).1 with
      | resolver _ hres =>
        obtain ⟨e, he, ht, rfl⟩ := hres
        exact hcomp.committed (committed_at hS hb hσ hv hcq he ht)
      | directFull | directCore | fastFull | voteSkip => cases hr
  refine ⟨fun route ho => ?_, fun c' t' h' => ?_, hseal⟩
  · rcases hseal .skip route ho with h | h <;> cases h
  · obtain ⟨b₁, rfl, rfl, h₁⟩ :=
      R.completionQuorum hcq ((R.own q hcq).evidence.completed c' t' h')
    obtain rfl := hcomp.unique h₁
    exact ⟨rfl, rfl⟩

theorem completed_final_completionScript :
    .completed 1 [] [] ∈ ((numbered 4).play (fun _ => {}) completionScript 0).out ∧
      .sealed 1 .skip .resolverSkip ∉ ((numbered 4).play (fun _ => {}) completionScript 1).out := by
  have h : .completed 1 [] [] ∈ ((numbered 4).play (fun _ => {}) completionScript 0).out := by
    decide +kernel
  have hσ : (numbered 4).Reachable {2} ((numbered 4).play (fun _ => {}) completionScript) :=
    Reachable.init.play (by decide +kernel)
  obtain ⟨hskip, -, -⟩ := completed_final (q := 1) (numbered 4) (numbered_collisionFree 4)
    (numbered_unitStakes 4) {2} (by decide)
    hσ (by decide +kernel)
    (by decide) (by decide) (by decide) (by decide) h
  exact ⟨h, hskip .resolverSkip⟩

end Deployment

end Vantage
