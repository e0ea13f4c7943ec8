import Vantage.Agb.Invariant

/-!
# Runs of the engine

The calls that the node makes to the engine, and a party that takes them one after another.

* `AgbCall`, `AgbEngine.call`: the entry points as one type.
-/

namespace Vantage

/-- The calls of the engine. A call that consults the lanes comes with their answers at that
moment; `vote` is the validation of one vote of the target-local resolver. -/
inductive AgbCall (K D : Type)
  | enter (lm : Lanes K D) (view now : ℕ)
  | activate (lm : Lanes K D) (view : ℕ)
  | propose (lm : Lanes K D) (sender : K) (p : ProposalOut K D) (now : ℕ)
  | recheckAll (lm : Lanes K D)
  | echoFallbackTimer (lm : Lanes K D) (view : ℕ)
  | echoAbsoluteTimer (view : ℕ)
  | readyTimer (view : ℕ)
  | refuseUnproposedView (view : ℕ)
  | echo (m : EchoOut K D)
  | echoSkip (view : ℕ) (sender : K)
  | ready (m : ReadyOut K D)
  | noready (view : ℕ) (sender : K)
  | skipVote (view : ℕ) (sender : K)
  | submitResolution (view : ℕ) (outcome : Outcome K D)
  | vote (lm : Lanes K D) (entry : ResolutionEntry K D) (fresh : Bool)
  | gcBelow (floor : ℕ)

variable {K D : Type} [LinearOrder K] [LinearOrder D] {S : Session K D}

def AgbEngine.call (cfg : Config K) : AgbCall K D → Handler (AgbEngine S) (Effect K D)
  | .enter lm view now => enter cfg lm view now
  | .activate lm view => activate cfg lm view
  | .propose lm sender (.single p) now => onPropose cfg lm sender p now
  | .propose lm sender (.batch p) now => onProposeBatch cfg lm sender p now
  | .recheckAll lm => recheckAll cfg lm
  | .echoFallbackTimer lm view => onEchoFallbackTimer cfg lm view
  | .echoAbsoluteTimer view => onEchoAbsoluteTimer cfg view
  | .readyTimer view => onReadyTimer cfg view
  | .refuseUnproposedView view => refuseUnproposedView cfg view
  | .echo (.single m) => onEcho cfg m
  | .echo (.batch m) => onEchoBatch cfg m
  | .echoSkip view sender => onEchoSkip cfg view sender
  | .ready (.single m) => onReady cfg m
  | .ready (.batch m) => onReadyBatch cfg m
  | .noready view sender => onNoready cfg view sender
  | .skipVote view sender => onSkipVote cfg view sender
  | .submitResolution view outcome => submitResolution view outcome
  | .vote lm entry fresh => .modify fun e => (e.tryDirectResolutionVote cfg lm entry fresh).2
  | .gcBelow floor => .modify (gcBelow floor)

/-- What carries the name of the party, the party has sent before. -/
def AgbCall.Authentic (cfg : Config K) (out : List (Effect K D)) : AgbCall K D → Prop
  | .echo m => m.sender = cfg.name → ∃ m', .broadcastEcho m' ∈ out ∧
      m'.proposalOut = m.proposalOut ∧ m'.grade = m.grade
  | .echoSkip view q => q = cfg.name → .broadcastEchoSkip view ∈ out
  | .ready m => m.sender = cfg.name → ∃ m', .broadcastReady m' ∈ out ∧
      m'.proposalOut = m.proposalOut ∧ m'.grade = m.grade
  | .noready view q => q = cfg.name → .broadcastNoReady view ∈ out
  | .skipVote view q => q = cfg.name → .broadcastSkipVote view ∈ out
  | _ => True

/-- An engine with everything it has emitted. -/
structure AgbParty {K D : Type} (S : Session K D) where
  engine : AgbEngine S := {}
  out : List (Effect K D) := []

namespace AgbParty

def take (cfg : Config K) (c : AgbCall K D) (p : AgbParty S) : AgbParty S where
  engine := (p.engine.call cfg c).1
  out := p.out ++ (p.engine.call cfg c).2

def run (cfg : Config K) (cs : List (AgbCall K D)) (p : AgbParty S) : AgbParty S :=
  cs.foldl (fun p c => p.take cfg c) p

/-- Nobody else speaks in the name of the party, at any point of the run. -/
def Authentic (cfg : Config K) : List (AgbCall K D) → AgbParty S → Prop
  | [], _ => True
  | c :: cs, p => c.Authentic cfg p.out ∧ Authentic cfg cs (p.take cfg c)

variable {cfg : Config K}

theorem mem_out_run {x : Effect K D} (cs : List (AgbCall K D)) {p : AgbParty S}
    (h : x ∈ p.out) : x ∈ (p.run cfg cs).out := by
  induction cs generalizing p with
  | nil => exact h
  | cons c cs ih => exact ih (List.mem_append_left _ h)

end AgbParty

/-! ### A call as a run of atomic steps -/

/-- What may reach a party that has emitted `out`: anything under the names of the others, and
under its own name what it has sent. -/
def genuine (S : Session K D) (cfg : Config K) (out : List (Effect K D)) (view : ℕ) :
    Inputs S view where
  echo q st := q = cfg.name → SaidEcho out st
  ready q st := q = cfg.name → SaidReady out st
  skipVote q := q = cfg.name → .broadcastSkipVote view ∈ out
  resolved _ := True

omit [LinearOrder K] [LinearOrder D] in
theorem genuine_echoed (cfg : Config K) (out : List (Effect K D)) (view : ℕ) :
    (genuine S cfg out view).Echoed cfg out where
  echo _ h := h rfl
  ready _ h := h rfl
  skipVote h := h rfl

omit [LinearOrder K] [LinearOrder D] in
theorem genuine_le (cfg : Config K) (out es : List (Effect K D)) (view : ℕ) :
    (genuine S cfg out view).Le (genuine S cfg (out ++ es) view) where
  echo _ _ h hq := (h hq).append es
  ready _ _ h hq := (h hq).append es
  skipVote _ h hq := List.mem_append_left _ (h hq)
  resolved _ h := h

/-- The inputs contain what a call brings from outside. -/
def AgbCall.Allowed (I : ∀ view, Inputs S view) : AgbCall K D → Prop
  | .echo m => AgbEngine.AllowsEcho I m
  | .echoSkip view q => (I view).echo q .skip
  | .ready m => AgbEngine.AllowsReady I m
  | .noready view q => (I view).ready q .noReady
  | .skipVote view q => (I view).skipVote q
  | .submitResolution view outcome => (I view).resolved outcome
  | _ => True

omit [LinearOrder K] [LinearOrder D] in
theorem AgbCall.Authentic.allowed {cfg : Config K} {out : List (Effect K D)} {c : AgbCall K D}
    (h : c.Authentic cfg out) : c.Allowed (genuine S cfg out) := by
  cases c with
  | echo m =>
    intro b hb _ hq
    obtain ⟨m', hm', hp, hg⟩ := h hq
    exact ⟨m', hm', hp.trans hb.symm, hg⟩
  | ready m =>
    intro b hb hq
    obtain ⟨m', hm', hp, hg⟩ := h hq
    exact ⟨m', hm', hp.trans hb.symm, hg⟩
  | echoSkip view q => exact h
  | noready view q => exact h
  | skipVote view q => exact h
  | _ => trivial

theorem AgbEngine.call_follows_allowed {cfg : Config K} {I : ∀ view, Inputs S view}
    {c : AgbCall K D} (hc : c.Allowed I) (hgc : ∀ floor, c ≠ .gcBelow floor) :
    Handler.Follows (Step cfg I) (call cfg c) := by
  cases c with
  | enter lm view now => exact enter_follows lm view now
  | activate lm view => exact activate_follows lm view
  | propose lm sender p now =>
    cases p with
    | single p => exact onProposeAny_follows lm sender _ now
    | batch p => exact onProposeAny_follows lm sender _ now
  | recheckAll lm => exact recheckAll_follows lm
  | echoFallbackTimer lm view => exact onEchoFallbackTimer_follows lm view
  | echoAbsoluteTimer view => exact onEchoAbsoluteTimer_follows view
  | readyTimer view => exact onReadyTimer_follows view
  | refuseUnproposedView view => exact refuseUnproposedView_follows view
  | echo m =>
    cases m with
    | single m => exact onEcho_follows hc
    | batch m => exact onEchoBatch_follows hc
  | echoSkip view q => exact onEchoSkip_follows hc
  | ready m =>
    cases m with
    | single m => exact onReadyAny_follows hc
    | batch m => exact onReadyAny_follows hc
  | noready view q => exact onNoready_follows hc
  | skipVote view q => exact onSkipVote_follows hc
  | submitResolution view outcome => exact submitResolution_follows hc
  | vote lm entry fresh => exact fun e => steps_tryDirectResolutionVote e
  | gcBelow floor => exact absurd rfl (hgc floor)

theorem AgbEngine.call_follows {cfg : Config K} {out : List (Effect K D)} {c : AgbCall K D}
    (hc : c.Authentic cfg out) (hgc : ∀ floor, c ≠ .gcBelow floor) :
    Handler.Follows (Step cfg (genuine S cfg out)) (call cfg c) :=
  call_follows_allowed hc.allowed hgc

namespace AgbParty

variable {cfg : Config K} {P : AgbParty S → Prop}

def Own (cfg : Config K) (p : AgbParty S) : Prop :=
  p.engine.Own cfg (genuine S cfg p.out) p.out

theorem own_init (cfg : Config K) : Own cfg ({} : AgbParty S) := AgbEngine.own_default cfg _

/-- What every atomic step and every pruning keeps. -/
structure Kept (cfg : Config K) (P : AgbParty S → Prop) : Prop where
  step : ∀ p I es e', (∀ view, (I view).Echoed cfg p.out) → p.engine.Own cfg I p.out → P p →
    AgbEngine.Step cfg I p.engine es e' → P ⟨e', p.out ++ es⟩
  gc : ∀ p floor, P p → P ⟨p.engine.gcBelow floor, p.out⟩

theorem Kept.of_steps (hP : Kept cfg P) {I : ∀ view, Inputs S view} {e e' : AgbEngine S}
    {out es : List (Effect K D)} (hs : Steps (AgbEngine.Step cfg I) e es e')
    (hI : ∀ view, (I view).Echoed cfg out) (ho : e.Own cfg I out) (h : P ⟨e, out⟩) :
    P ⟨e', out ++ es⟩ := by
  induction hs generalizing out with
  | refl => rwa [List.append_nil]
  | @step e e₁ _ es₁ _ hr _ ih =>
    rw [← List.append_assoc]
    exact ih (fun view => (hI view).append es₁) (ho.of_step hI hr)
      (hP.step ⟨e, out⟩ I es₁ e₁ hI ho h hr)

theorem Kept.take (hP : Kept cfg P) {c : AgbCall K D} {p : AgbParty S} (hc : c.Authentic cfg p.out)
    (ho : p.Own cfg) (h : P p) :
    (p.take cfg c).Own cfg ∧ P (p.take cfg c) := by
  by_cases hgc : ∃ floor, c = .gcBelow floor
  · obtain ⟨floor, rfl⟩ := hgc
    have hout : (p.take cfg (.gcBelow floor)) = ⟨p.engine.gcBelow floor, p.out⟩ := by
      simp [AgbParty.take, AgbEngine.call]
    rw [hout]
    exact ⟨AgbEngine.Own.gcBelow ho floor, hP.gc p floor h⟩
  · have hs := AgbEngine.call_follows hc (fun floor h => hgc ⟨floor, h⟩) p.engine
    refine ⟨?_, hP.of_steps hs (genuine_echoed cfg p.out) ho h⟩
    exact (AgbEngine.Own.of_steps hs ho (genuine_echoed cfg p.out)).mono
      (genuine_le cfg p.out _)

/-- What every atomic step and every pruning keeps holds after every run. -/
theorem invariant (hP : Kept cfg P) {cs : List (AgbCall K D)} {p : AgbParty S}
    (hcs : p.Authentic cfg cs) (ho : p.Own cfg) (h : P p) :
    (p.run cfg cs).Own cfg ∧ P (p.run cfg cs) := by
  induction cs generalizing p with
  | nil => exact ⟨ho, h⟩
  | cons c cs ih =>
    obtain ⟨ho', h'⟩ := hP.take hcs.1 ho h
    exact ih hcs.2 ho' h'

theorem own_run {cs : List (AgbCall K D)} {p : AgbParty S} (hcs : p.Authentic cfg cs)
    (ho : p.Own cfg) : (p.run cfg cs).Own cfg :=
  (invariant (P := fun _ => True) ⟨fun _ _ _ _ _ _ _ _ => trivial, fun _ _ _ => trivial⟩ hcs ho
    trivial).1

end AgbParty

end Vantage
