import Vantage.Agb.Invariant
import Vantage.Resolver.World
import Vantage.System.Node

/-!
# What holds in every reachable state

* `Deployment.agbInputs`, `Deployment.world`: what may reach the AGB engine of a party, and the
  resolvers of all parties;
* `Deployment.Inv`: the own invariant of every correct party;
* `Deployment.Change`: the elementary changes of a node; `Inv.handle`: every input is a
  sequence of them, and they keep the invariant;
* `Reachable.inv`: it holds in every reachable state; `Reachable.induct`: so does everything
  that the elementary changes keep.
-/

namespace Vantage

variable {K D : Type} [LinearOrder K] [LinearOrder D] [Inhabited D] {S : Session K D}
  {I J : ∀ view, Inputs S view}

/-! ### More inputs -/

section

omit [LinearOrder K] [LinearOrder D] [Inhabited D]

theorem AgbEngine.AllowsEcho.mono {echo : EchoOut K D} (h : AllowsEcho I echo)
    (hIJ : ∀ view, (I view).Le (J view)) :
    AllowsEcho J echo := fun b hb hg => (hIJ _).echo _ _ (h b hb hg)

theorem AgbEngine.AllowsReady.mono {ready : ReadyOut K D} (h : AllowsReady I ready)
    (hIJ : ∀ view, (I view).Le (J view)) :
    AllowsReady J ready := fun b hb => (hIJ _).ready _ _ (h b hb)

end

omit [LinearOrder D] [Inhabited D] in
theorem DigestStatements.Sound.mono {ds : DigestStatements S} (h : ds.Sound I)
    (hIJ : ∀ view, (I view).Le (J view)) :
    ds.Sound J where
  echo view q b hb p hp := (h.echo view q b hb p hp).mono hIJ
  ready view q b hb p hp := (h.ready view q b hb p hp).mono hIJ

/-- An input of the AGB engine or of the buffers of digest-named statements only. -/
def NodeInput.isAgb : NodeInput K D → Bool
  | .enter .. | .activate .. | .propose .. | .recheckAll | .agbTimer .. | .refuseUnproposedView ..
  | .echo .. | .echoSkip .. | .ready .. | .noready .. | .skipVote .. | .echoDigest ..
  | .readyDigest .. | .localFixed .. | .bodyFetch .. | .unanswerFetch .. | .bodyServe ..
  | .retryFetches .. | .decide .. => true
  | _ => false

namespace Deployment

/-- At most `f` authorities are Byzantine. -/
abbrev faults (d : Deployment K D) (byzantine : Finset K)
    (hb : (d.committee.authorities ∩ byzantine).card ≤
      (Thresholds.fromPartyCount d.committee.size).fParties) : FaultModel K :=
  d.committee.faultModel byzantine hb

/-- What may reach the AGB engine of a party about one view. -/
def agbInputs (d : Deployment K D) (byzantine : Finset K) (σ : ∀ q, Node d q) (p : K)
    (view : ℕ) : Inputs d.session view where
  echo q st := q ∈ d.committee.authorities ∧ (q ∉ byzantine → SaidEcho (σ q).out st)
  ready q st := q ∈ d.committee.authorities ∧ (q ∉ byzantine → SaidReady (σ q).out st)
  skipVote q := q ∈ d.committee.authorities ∧
    (q ∉ byzantine → .broadcastSkipVote view ∈ (σ q).out)
  resolved o := ∃ e, .decide e ∈ (σ p).resolverOut ∧ e.targetView = view ∧ e.outcome = o

def world {d : Deployment K D} (σ : ∀ q, Node d q) : World K D where
  out q := (σ q).resolverOut
  core q target := ((σ q).resolver.state target).core
  accepted q e fresh origin := (e, fresh, origin) ∈ (σ q).accepted
  floor q := (σ q).resolver.retainedFloor

/-- The own invariant of every correct party. -/
structure Inv (d : Deployment K D) (byzantine : Finset K) (F : FaultModel K)
    (σ : ∀ q, Node d q) : Prop where
  agb : ∀ p, F.Correct p →
    (σ p).agb.Own (d.cfg p).toConfig (d.agbInputs byzantine σ p) (σ p).out
  digests : ∀ p, F.Correct p → (σ p).digests.Sound (d.agbInputs byzantine σ p)
  resolver : (world σ).Inv F d.session d.cfg

/-- Nothing that was sent is taken back. -/
structure Later {d : Deployment K D} (σ σ' : ∀ q, Node d q) : Prop where
  out : ∀ q, ∀ x ∈ (σ q).out, x ∈ (σ' q).out
  resolverOut : ∀ q, ∀ x ∈ (σ q).resolverOut, x ∈ (σ' q).resolverOut

variable {d : Deployment K D} {byzantine : Finset K} {σ σ' : ∀ q, Node d q} {p : K}

theorem later_update {n : Node d p} (hout : ∀ x ∈ (σ p).out, x ∈ n.out)
    (hres : ∀ x ∈ (σ p).resolverOut, x ∈ n.resolverOut) : Later σ (Function.update σ p n) := by
  refine ⟨fun q x hx => ?_, fun q x hx => ?_⟩ <;> by_cases hq : q = p
  · subst hq
    rw [Function.update_self]
    exact hout x hx
  · rwa [Function.update_of_ne hq]
  · subst hq
    rw [Function.update_self]
    exact hres x hx
  · rwa [Function.update_of_ne hq]

theorem agbInputs_le (h : Later σ σ') (p : K) (view : ℕ) :
    (d.agbInputs byzantine σ p view).Le (d.agbInputs byzantine σ' p view) where
  echo q st := fun ⟨hq, hs⟩ => ⟨hq, fun hb => by
    have hs := hs hb
    cases st with
    | graded b grade origin => exact hs.imp fun e he => ⟨h.out q _ he.1, he.2⟩
    | skip => exact h.out q _ hs⟩
  ready q st := fun ⟨hq, hs⟩ => ⟨hq, fun hb => by
    have hs := hs hb
    cases st with
    | graded b grade => exact hs.imp fun e he => ⟨h.out q _ he.1, he.2⟩
    | noReady => exact h.out q _ hs⟩
  skipVote q := fun ⟨hq, hs⟩ => ⟨hq, fun hb => h.out q _ (hs hb)⟩
  resolved o := fun ⟨e, he, ho⟩ => ⟨e, h.resolverOut p _ he, ho⟩

theorem agbInputs_echoed (hp : p ∉ byzantine) (view : ℕ) :
    (d.agbInputs byzantine σ p view).Echoed (d.cfg p).toConfig (σ p).out where
  echo _ h := h.2 hp
  ready _ h := h.2 hp
  skipVote h := h.2 hp

theorem world_update (n : Node d p) : world (Function.update σ p n) =
    { out := Function.update (world σ).out p n.resolverOut
      core := Function.update (world σ).core p fun t => (n.resolver.state t).core
      accepted := Function.update (world σ).accepted p fun e f o => (e, f, o) ∈ n.accepted
      floor := Function.update (world σ).floor p n.resolver.retainedFloor } := by
  unfold world
  congr 1 <;> funext q <;> by_cases hq : q = p
  all_goals first
    | (subst hq; simp only [Function.update_self])
    | simp only [Function.update_of_ne hq]

/-! ### Elementary changes -/

/-- The elementary changes of the node `p`. -/
inductive Change (d : Deployment K D) (byzantine : Finset K) (σ : ∀ q, Node d q) (p : K) :
    Node d p → Prop
  | agb {agb : AgbEngine d.session} {ds : DigestStatements d.session} {es : List (Effect K D)}
      (hs : Steps (AgbEngine.Step (d.cfg p).toConfig (d.agbInputs byzantine σ p)) (σ p).agb es agb)
      (hds : ds.Sound (d.agbInputs byzantine σ p)) :
      Change d byzantine σ p { σ p with agb := agb, digests := ds, out := (σ p).out ++ es }
  | resolver {r : DirectResolver d.session (d.cfg p)} {es : List (DirectResolutionEffect K D)}
      (hs : Steps (DirectResolver.Step (d.cfg p) ((world σ).inputs d.committee p))
        (σ p).resolver es r) :
      Change d byzantine σ p
        { σ p with resolver := r, resolverOut := (σ p).resolverOut ++ es }
  | validate (lm : Lanes K D) (entry : ResolutionEntry K D) (fresh : Bool) :
      Change d byzantine σ p ((σ p).validate lm entry fresh).2
  | gc (floor : ℕ) :
      Change d byzantine σ p
        { σ p with
          agb := (σ p).agb.gcBelow floor
          digests := (σ p).digests.gcBelow floor
          resolver := (σ p).resolver.gcBelow floor }

theorem Change.later {n : Node d p} (h : Change d byzantine σ p n) :
    Later σ (Function.update σ p n) := by
  cases h with
  | agb _ _ => exact later_update (fun _ => List.mem_append_left _) fun _ => id
  | resolver _ => exact later_update (fun _ => id) fun _ => List.mem_append_left _
  | validate lm entry fresh => exact later_update (fun _ => id) fun _ => id
  | gc floor => exact later_update (fun _ => id) fun _ => id

omit [LinearOrder D] [Inhabited D] in
theorem fits (d : Deployment K D) (byzantine : Finset K)
    (hb : (d.committee.authorities ∩ byzantine).card ≤
      (Thresholds.fromPartyCount d.committee.size).fParties) (p : K) :
    (d.cfg p).toConfig.Fits (d.faults byzantine hb) := ⟨rfl, rfl, rfl⟩

theorem steps_retainedFloor {cfg : ResolverConfig K D} {J : ℕ → ResolverInputs K D}
    {r r' : DirectResolver S cfg} {es : List (DirectResolutionEffect K D)}
    (h : Steps (DirectResolver.Step cfg J) r es r') :
    r'.retainedFloor = r.retainedFloor := by
  induction h with
  | refl => rfl
  | step hr _ ih => rw [ih, hr.choose_spec.2.2]

theorem mem_accepted_validate (lm : Lanes K D) (entry : ResolutionEntry K D) (fresh : Bool)
    {n : Node d p} {x : ResolutionEntry K D × Bool × Option ℕ} (hx : x ∈ n.accepted) :
    x ∈ (n.validate lm entry fresh).2.accepted := by
  unfold Node.validate
  dsimp only
  split
  · exact List.mem_append_left _ hx
  · exact hx

theorem accepted_of_vote {lm : Lanes K D} {entry : ResolutionEntry K D} {fresh : Bool}
    {n : Node d p} {origin : Option ℕ}
    (h : (n.validate lm entry fresh).1.vote = .accept origin) :
    (entry, fresh, origin) ∈ (n.validate lm entry fresh).2.accepted := by
  unfold Node.validate at h ⊢
  dsimp only at h ⊢
  split
  · next o ho =>
    rw [ho] at h
    cases h
    exact List.mem_append_right _ (List.mem_singleton.mpr rfl)
  · next hno =>
    cases hr : (n.agb.tryDirectResolutionVote (d.cfg p).toConfig lm entry fresh).1 with
    | accept o => exact absurd hr (hno o)
    | notYet =>
      rw [hr] at h
      cases h
    | never =>
      rw [hr] at h
      cases h

/-- Every elementary change keeps the resolvers honest. -/
theorem world_inv_of_change {hb : (d.committee.authorities ∩ byzantine).card ≤
      (Thresholds.fromPartyCount d.committee.size).fParties}
    (hw : (world σ).Inv (d.faults byzantine hb) d.session d.cfg)
    (hp : (d.faults byzantine hb).Correct p) {n : Node d p} (h : Change d byzantine σ p n) :
    (world (Function.update σ p n)).Inv (d.faults byzantine hb) d.session d.cfg := by
  rw [world_update]
  cases h with
  | agb _ _ => simpa only [world, Function.update_eq_self] using hw
  | resolver hs =>
    have h := World.Inv.of_steps (fun _ => rfl) (d.fits byzantine hb) hp hs hw rfl
      fun _ => .refl _
    simpa only [world, Function.update_eq_self, steps_retainedFloor hs] using h
  | validate lm entry fresh =>
    have h := hw.accept (Function.update (world σ).accepted p fun e f o =>
      (e, f, o) ∈ ((σ p).validate lm entry fresh).2.accepted) ?_
    · simpa only [world, Function.update_eq_self, Node.validate_resolver,
        Node.validate_resolverOut] using h
    intro q e f o hacc
    by_cases hq : q = p
    · subst hq
      rw [Function.update_self]
      exact mem_accepted_validate lm entry fresh hacc
    · rwa [Function.update_of_ne hq]
  | gc floor =>
    have h := hw.gc p ((σ p).resolver.gcBelow floor).retainedFloor
      (fun t => (((σ p).resolver.gcBelow floor).state t).core) ?_ ?_ ?_
    · simpa only [world, Function.update_eq_self] using h
    · rw [DirectResolver.retainedFloor_gcBelow]
      exact le_max_left _ _
    · intro t ht
      rw [DirectResolver.retainedFloor_gcBelow] at ht
      rw [DirectResolver.state_gcBelow, if_neg (not_lt.mpr ((le_max_right _ _).trans ht))]
      rfl
    · intro t _
      rw [DirectResolver.state_gcBelow]
      split
      · exact .inr rfl
      · exact .inl rfl

namespace Inv

variable {hb : (d.committee.authorities ∩ byzantine).card ≤
      (Thresholds.fromPartyCount d.committee.size).fParties}
  (hI : d.Inv byzantine (d.faults byzantine hb) σ)
include hI

theorem agb_update {n : Node d p} (hl : Later σ (Function.update σ p n))
    (hagb : (d.faults byzantine hb).Correct p →
      n.agb.Own (d.cfg p).toConfig (d.agbInputs byzantine σ p) n.out)
    (hds : (d.faults byzantine hb).Correct p → n.digests.Sound (d.agbInputs byzantine σ p))
    (hres : (world (Function.update σ p n)).Inv (d.faults byzantine hb) d.session d.cfg) :
    d.Inv byzantine (d.faults byzantine hb) (Function.update σ p n) where
  agb q hq := by
    by_cases hqp : q = p
    · subst hqp
      rw [Function.update_self]
      exact (hagb hq).mono (agbInputs_le hl q)
    · rw [Function.update_of_ne hqp]
      exact (hI.agb q hq).mono (agbInputs_le hl q)
  digests q hq := by
    by_cases hqp : q = p
    · subst hqp
      rw [Function.update_self]
      exact (hds hq).mono (agbInputs_le hl q)
    · rw [Function.update_of_ne hqp]
      exact (hI.digests q hq).mono (agbInputs_le hl q)
  resolver := hres

/-- Every elementary change keeps the invariant. -/
theorem of_change (hp : (d.faults byzantine hb).Correct p) {n : Node d p}
    (h : Change d byzantine σ p n) :
    d.Inv byzantine (d.faults byzantine hb) (Function.update σ p n) := by
  have hecho : ∀ view, (d.agbInputs byzantine σ p view).Echoed (d.cfg p).toConfig (σ p).out :=
    agbInputs_echoed hp.2
  refine hI.agb_update h.later ?_ ?_ ?_
  · intro _
    cases h with
    | agb hs _ => exact (hI.agb p hp).of_steps hs hecho
    | resolver _ => exact hI.agb p hp
    | validate lm entry fresh =>
      have hs : Steps (AgbEngine.Step (d.cfg p).toConfig (d.agbInputs byzantine σ p)) (σ p).agb []
          ((σ p).validate lm entry fresh).2.agb := AgbEngine.steps_tryDirectResolutionVote _
      have := (hI.agb p hp).of_steps hs hecho
      rwa [List.append_nil] at this
    | gc floor => exact (hI.agb p hp).gcBelow floor
  · intro _
    cases h with
    | agb _ hds => exact hds
    | resolver _ => exact hI.digests p hp
    | validate lm entry fresh => exact hI.digests p hp
    | gc floor => exact (hI.digests p hp).gcBelow floor
  · exact world_inv_of_change hI.resolver hp h

end Inv

/-! ### Inputs as elementary changes -/

def Changes (d : Deployment K D) (byzantine : Finset K) (σ : ∀ q, Node d q) (p : K)
    (n : Node d p) : Prop :=
  Change d byzantine σ p n ∨
    ∃ n', Change d byzantine σ p n' ∧ Change d byzantine (Function.update σ p n') p n

theorem change_runAgb {h : Handler (AgbEngine d.session) (Effect K D)}
    (hds : (σ p).digests.Sound (d.agbInputs byzantine σ p))
    (hh : Handler.Follows
      (AgbEngine.Step (d.cfg p).toConfig (d.agbInputs byzantine σ p)) h) :
    Changes d byzantine σ p ((σ p).runAgb h) := .inl (.agb (hh (σ p).agb) hds)

theorem change_runDigests
    {h : Handler (DigestStatements d.session × AgbEngine d.session) (Effect K D)}
    (hh : DigestStatements.Runs (d.cfg p).toConfig (d.agbInputs byzantine σ p)
      ((σ p).digests, (σ p).agb) (h ((σ p).digests, (σ p).agb))) :
    Changes d byzantine σ p ((σ p).runDigests h) := .inl (.agb hh.steps hh.sound)

theorem change_runResolver
    {h : Handler (DirectResolver d.session (d.cfg p)) (DirectResolutionEffect K D)}
    (hh : Handler.FollowsAt (DirectResolver.Step (d.cfg p) ((world σ).inputs d.committee p)) h
      (σ p).resolver) :
    Changes d byzantine σ p ((σ p).runResolver h) := .inl (.resolver hh)

theorem allowsEcho {m : EchoOut K D} (h : d.Deliverable byzantine σ p (.echo m)) :
    AgbEngine.AllowsEcho (d.agbInputs byzantine σ p) m := by
  intro b hb _
  refine ⟨h.1, fun hs => ?_⟩
  obtain ⟨m', hm', hp', hg⟩ := h.2 hs
  exact ⟨m', hm', hp'.trans hb.symm, hg⟩

theorem allowsReady {m : ReadyOut K D} (h : d.Deliverable byzantine σ p (.ready m)) :
    AgbEngine.AllowsReady (d.agbInputs byzantine σ p) m := by
  intro b hb
  refine ⟨h.1, fun hs => ?_⟩
  obtain ⟨m', hm', hp', hg⟩ := h.2 hs
  exact ⟨m', hm', hp'.trans hb.symm, hg⟩

theorem allowsEchoDigest (hS : d.session.hash.CollisionFree) {m : EchoDigest K D} {now : ℕ}
    (h : d.Deliverable byzantine σ p (.echoDigest m now)) :
    DigestStatements.AllowsEchoDigest (d.agbInputs byzantine σ p) m := by
  intro q hq avail b hb _
  refine ⟨h.1, fun hs => ?_⟩
  obtain ⟨m', hm', hd, hg⟩ := h.2 hs
  exact ⟨m', hm', (ProposalOut.digest_injective hS (hd.trans hq.symm)).trans hb.symm, hg⟩

theorem allowsReadyDigest (hS : d.session.hash.CollisionFree) {m : ReadyDigest K D} {now : ℕ}
    (h : d.Deliverable byzantine σ p (.readyDigest m now)) :
    DigestStatements.AllowsReadyDigest (d.agbInputs byzantine σ p) m := by
  intro q hq b hb
  refine ⟨h.1, fun hs => ?_⟩
  obtain ⟨m', hm', hd, hg⟩ := h.2 hs
  exact ⟨m', hm', (ProposalOut.digest_injective hS (hd.trans hq.symm)).trans hb.symm, hg⟩

theorem vote_validate {lm : Lanes K D} {target view : ℕ} {value : D} {entry : ResolutionEntry K D}
    {fresh : Bool} (hi : d.Deliverable byzantine σ p (.validateVote target view value entry fresh))
    {origin : Option ℕ} (ho : ((σ p).validate lm entry fresh).1.vote = .accept origin) :
    ((world (Function.update σ p ((σ p).validate lm entry fresh).2)).inputs d.committee p
      target).vote view value origin := by
  refine ⟨entry, fresh, ?_, ?_⟩
  · change _ ∈ (Function.update σ p ((σ p).validate lm entry fresh).2 p).resolverOut
    rw [Function.update_self]
    exact hi
  · change _ ∈ (Function.update σ p ((σ p).validate lm entry fresh).2 p).accepted
    rw [Function.update_self]
    exact accepted_of_vote ho

/-- Every input of the resolver is one or two elementary changes. -/
theorem resolver_changes (lm : Lanes K D) (fuel : ℕ) (input : NodeInput K D)
    (hr : ¬input.isAgb = true) (hi : d.Deliverable byzantine σ p input) :
    Changes d byzantine σ p ((σ p).handle lm fuel input) := by
  cases input with
  | updateCandidates target candidates =>
    exact change_runResolver
      (DirectResolver.updateCandidates_followsAt fuel target candidates id)
  | barFullSelection target =>
    exact change_runResolver (DirectResolver.barFullSelection_follows target _)
  | activateWithLocalTerminal target =>
    exact change_runResolver (DirectResolver.activateWithLocalTerminal_followsAt fuel target id)
  | wish m => exact change_runResolver (DirectResolver.onWish_followsAt fuel m id)
  | resolverTimer target view kind =>
    exact change_runResolver
      (DirectResolver.onTarget_follows (TargetState.onTimer_follows fuel view kind) _)
  | suggest m =>
    exact change_runResolver (DirectResolver.onTarget_follows (TargetState.onSuggest_follows m) _)
  | proof m =>
    have hm : ((world σ).inputs d.committee p m.target).proof m := ⟨rfl, hi⟩
    exact change_runResolver (DirectResolver.onTarget_follows (TargetState.onProof_follows hm) _)
  | witness m =>
    obtain ⟨x, hx, hxm⟩ := hi.2
    have hm : ((world σ).inputs d.committee p m.target).witness m.sender m.view m.value :=
      ⟨hi.1, x, hx, m.entry, hxm⟩
    exact change_runResolver
      (DirectResolver.onTarget_follows (TargetState.onWitness_follows fuel hm) _)
  | proposal m =>
    exact change_runResolver (DirectResolver.onTarget_follows (TargetState.onProposal_follows m) _)
  | statement m =>
    have hm : ((world σ).inputs d.committee p m.target).statement m := ⟨rfl, hi⟩
    exact change_runResolver
      (DirectResolver.onTarget_follows (TargetState.onStatement_follows fuel hm) _)
  | done m =>
    obtain ⟨x, hx, hxm⟩ := hi.2
    have hm : ((world σ).inputs d.committee p m.target).done m.sender m.value :=
      ⟨hi.1, x, hx, m.entry, hxm⟩
    exact change_runResolver (DirectResolver.onTarget_follows (TargetState.onDone_follows hm) _)
  | valueFetch m =>
    exact change_runResolver
      (DirectResolver.onTarget_follows (TargetState.onValueFetch_follows m) _)
  | valueServe m =>
    exact change_runResolver
      (DirectResolver.onTarget_follows (TargetState.onValueServe_follows fuel m) _)
  | retryExternalValidity =>
    exact change_runResolver (DirectResolver.retryExternalValidity_follows _)
  | admitTargetsThrough through =>
    have hq : DirectResolver.Step (d.cfg p) ((world σ).inputs d.committee p) (σ p).resolver []
        ((σ p).resolver.admitTargetsThrough through) :=
      DirectResolver.step_quiet (fun _ => rfl) rfl nofun
    have h : Change d byzantine σ p _ := .resolver (.single hq)
    rw [List.append_nil] at h
    exact .inl h
  | validateVote target view value entry fresh =>
    refine .inr ⟨((σ p).validate lm entry fresh).2, .validate lm entry fresh, ?_⟩
    have h : Change d byzantine (Function.update σ p ((σ p).validate lm entry fresh).2) p _ :=
      .resolver (DirectResolver.onTarget_follows
        (TargetState.onVote_follows fuel view value fun _ => vote_validate hi) _)
    rw [Function.update_self] at h
    exact h
  | gcBelow floor => exact .inl (.gc floor)
  | _ => exact absurd rfl hr

/-- Every input is one or two elementary changes. -/
theorem handle_changes (hS : d.session.hash.CollisionFree)
    (hds : (σ p).digests.Sound (d.agbInputs byzantine σ p)) (lm : Lanes K D) (fuel : ℕ)
    (input : NodeInput K D) (hi : d.Deliverable byzantine σ p input) :
    Changes d byzantine σ p ((σ p).handle lm fuel input) := by
  by_cases hr : input.isAgb = true
  swap
  · exact resolver_changes lm fuel input hr hi
  cases input with
  | enter view now => exact change_runAgb hds (AgbEngine.enter_follows lm view now)
  | activate view => exact change_runAgb hds (AgbEngine.activate_follows lm view)
  | propose sender q now =>
    cases q with
    | single q => exact change_runAgb hds (AgbEngine.onProposeAny_follows lm sender _ now)
    | batch q => exact change_runAgb hds (AgbEngine.onProposeAny_follows lm sender _ now)
  | recheckAll => exact change_runAgb hds (AgbEngine.recheckAll_follows lm)
  | agbTimer view kind =>
    cases kind with
    | echoFallback => exact change_runAgb hds (AgbEngine.onEchoFallbackTimer_follows lm view)
    | echoAbsolute => exact change_runAgb hds (AgbEngine.onEchoAbsoluteTimer_follows view)
    | readyAbsolute => exact change_runAgb hds (AgbEngine.onReadyTimer_follows view)
  | refuseUnproposedView view =>
    exact change_runAgb hds (AgbEngine.refuseUnproposedView_follows view)
  | echo m =>
    cases m with
    | single m => exact change_runAgb hds (AgbEngine.onEcho_follows (allowsEcho hi))
    | batch m => exact change_runAgb hds (AgbEngine.onEchoBatch_follows (allowsEcho hi))
  | echoSkip view sender => exact change_runAgb hds (AgbEngine.onEchoSkip_follows hi)
  | ready m =>
    cases m with
    | single m => exact change_runAgb hds (AgbEngine.onReadyAny_follows (allowsReady hi))
    | batch m => exact change_runAgb hds (AgbEngine.onReadyAny_follows (allowsReady hi))
  | noready view sender => exact change_runAgb hds (AgbEngine.onNoready_follows hi)
  | skipVote view sender => exact change_runAgb hds (AgbEngine.onSkipVote_follows hi)
  | echoDigest m now =>
    exact change_runDigests (DigestStatements.onEchoDigest_runs hds _ (allowsEchoDigest hS hi) now)
  | readyDigest m now =>
    exact change_runDigests
      (DigestStatements.onReadyDigest_runs hds _ (allowsReadyDigest hS hi) now)
  | localFixed view => exact change_runDigests (DigestStatements.onLocalFixed_runs hds _ view)
  | bodyFetch requester view digest =>
    exact change_runDigests (DigestStatements.onBodyFetch_runs hds _ requester view digest)
  | unanswerFetch requester view =>
    have hds' : ((σ p).digests.unanswerFetch requester view).Sound (d.agbInputs byzantine σ p) :=
      ⟨hds.echo, hds.ready⟩
    have h : Change d byzantine σ p _ := .agb (Steps.refl (σ p).agb) hds'
    rw [List.append_nil] at h
    exact .inl h
  | bodyServe view q => exact change_runDigests (DigestStatements.onBodyServe_runs hds _ view q)
  | retryFetches now => exact change_runDigests (DigestStatements.retryFetches_runs hds _ now)
  | decide entry =>
    have hm : (d.agbInputs byzantine σ p entry.targetView).resolved entry.outcome :=
      ⟨entry, hi, rfl, rfl⟩
    exact change_runAgb hds (AgbEngine.submitResolution_follows hm)
  | _ => cases hr

/-! ### Reachable states -/

section Reachable

variable (hS : d.session.hash.CollisionFree)
  (hb : (d.committee.authorities ∩ byzantine).card ≤
    (Thresholds.fromPartyCount d.committee.size).fParties)

theorem inv_init : d.Inv byzantine (d.faults byzantine hb) fun _ => {} where
  agb _ _ := AgbEngine.own_default _ _
  digests _ _ := ⟨nofun, nofun⟩
  resolver := World.inv_init.accept (fun _ _ _ _ => _ ∈ []) fun _ _ _ _ => False.elim

variable {hb} in
theorem world_inv_of_byzantine (hw : (world σ).Inv (d.faults byzantine hb) d.session d.cfg) {q : K}
    (hq : q ∈ byzantine) (es : List (DirectResolutionEffect K D)) :
    (world (Function.update σ q { σ q with resolverOut := (σ q).resolverOut ++ es })).Inv
      (d.faults byzantine hb) d.session d.cfg := by
  have hno : ¬(d.faults byzantine hb).Correct q := fun h => h.2 hq
  have h := hw.byzantine hno (fun _ => rfl) es
  rw [world_update]
  simpa only [world, Function.update_eq_self] using h

variable {hb} in
theorem Inv.of_byzantine (hI : d.Inv byzantine (d.faults byzantine hb) σ) {q : K}
    (hq : q ∈ byzantine) (es : List (DirectResolutionEffect K D)) :
    d.Inv byzantine (d.faults byzantine hb)
      (Function.update σ q { σ q with resolverOut := (σ q).resolverOut ++ es }) := by
  have hno : ¬(d.faults byzantine hb).Correct q := fun h => h.2 hq
  exact hI.agb_update (later_update (fun _ => id) fun _ => List.mem_append_left _)
    (fun h => absurd h hno) (fun h => absurd h hno) (world_inv_of_byzantine hI.resolver hq es)

theorem world_agb {input : NodeInput K D} (hr : input.isAgb = true) (lm : Lanes K D) (fuel : ℕ) :
    world (Function.update σ p ((σ p).handle lm fuel input)) = world σ := by
  have hres : ((σ p).handle lm fuel input).resolver = (σ p).resolver ∧
      ((σ p).handle lm fuel input).resolverOut = (σ p).resolverOut ∧
      ((σ p).handle lm fuel input).accepted = (σ p).accepted := by
    cases input with
    | propose sender q now => cases q <;> exact ⟨rfl, rfl, rfl⟩
    | agbTimer view kind => cases kind <;> exact ⟨rfl, rfl, rfl⟩
    | echo m => cases m <;> exact ⟨rfl, rfl, rfl⟩
    | ready m => cases m <;> exact ⟨rfl, rfl, rfl⟩
    | _ => first | exact ⟨rfl, rfl, rfl⟩ | cases hr
  rw [world_update, hres.1, hres.2.1, hres.2.2]
  simp only [world, Function.update_eq_self]

/-- The resolvers of the correct parties are honest in every reachable state, whatever the hash. -/
theorem Reachable.world_inv (h : d.Reachable byzantine σ) :
    (world σ).Inv (d.faults byzantine hb) d.session d.cfg := by
  induction h with
  | init => exact (inv_init hb).resolver
  | @handle σ _ p hp hpb lm fuel input hi ih =>
    have hc : (d.faults byzantine hb).Correct p := ⟨hp, hpb⟩
    by_cases hr : input.isAgb = true
    · rw [world_agb hr]
      exact ih
    · rcases resolver_changes lm fuel input hr hi with h | ⟨n, h₁, h₂⟩
      · exact world_inv_of_change ih hc h
      · have := world_inv_of_change (world_inv_of_change ih hc h₁) hc h₂
        rwa [Function.update_idem] at this
  | @byzantine σ _ q hq es ih => exact world_inv_of_byzantine ih hq es

include hS

/-- What the elementary changes and the Byzantine parties keep holds in every reachable
state. -/
theorem Reachable.induct {P : (∀ q, Node d q) → Prop} (hinit : P fun _ => {})
    (hchange : ∀ σ p n, d.Inv byzantine (d.faults byzantine hb) σ → P σ →
      (d.faults byzantine hb).Correct p → Change d byzantine σ p n → P (Function.update σ p n))
    (hbyz : ∀ σ q es, q ∈ byzantine → P σ →
      P (Function.update σ q { σ q with resolverOut := (σ q).resolverOut ++ es }))
    (h : d.Reachable byzantine σ) : d.Inv byzantine (d.faults byzantine hb) σ ∧ P σ := by
  induction h with
  | init => exact ⟨inv_init hb, hinit⟩
  | @handle σ _ p hp hpb lm fuel input hi ih =>
    obtain ⟨hI, hP⟩ := ih
    have hc : (d.faults byzantine hb).Correct p := ⟨hp, hpb⟩
    rcases handle_changes hS (hI.digests p hc) lm fuel input hi with h | ⟨n, h₁, h₂⟩
    · exact ⟨hI.of_change hc h, hchange σ p _ hI hP hc h⟩
    · have hI₁ := hI.of_change hc h₁
      have hP₁ := hchange σ p n hI hP hc h₁
      have hI₂ := hI₁.of_change hc h₂
      have hP₂ := hchange _ p _ hI₁ hP₁ hc h₂
      rw [Function.update_idem] at hI₂ hP₂
      exact ⟨hI₂, hP₂⟩
  | @byzantine σ _ q hq es ih => exact ⟨ih.1.of_byzantine hq es, hbyz σ q es hq ih.2⟩

theorem Reachable.inv (h : d.Reachable byzantine σ) :
    d.Inv byzantine (d.faults byzantine hb) σ :=
  (h.induct hS hb (P := fun _ => True) trivial (fun _ _ _ _ _ _ _ => trivial)
    fun _ _ _ _ _ => trivial).1

end Reachable

end Deployment

end Vantage
