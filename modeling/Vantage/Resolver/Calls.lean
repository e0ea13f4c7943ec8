import Vantage.Agb.Numbering
import Vantage.Resolver.Runs

/-!
# Runs of one resolver

* `ResolverParty.no_expectation_fails`: in every run every target stays filed and no expectation
  fails.
-/

namespace Vantage

variable {K D : Type} [LinearOrder K] [LinearOrder D] [Inhabited D] {S : Session K D}
  {es : List (DirectResolutionEffect K D)} {target : ℕ} {cfg : ResolverConfig K D}
  {s s' : TargetState S cfg.committee target}

/-- The calls of a resolver. -/
inductive ResolverCall (K D : Type)
  | updateCandidates (target : ℕ) (candidates : List (ResolutionEntry K D))
  | barFullSelection (target : ℕ)
  | activateWithLocalTerminal (target : ℕ)
  | wish (m : DirectResolutionWish K)
  | timer (target view : ℕ) (kind : DirectResolutionTimerKind)
  | suggest (m : DirectResolutionSuggest K D)
  | proof (m : DirectResolutionProof K D)
  | witness (m : DirectResolutionWitness K D)
  | proposal (m : DirectResolutionProposal K D)
  | vote (target view : ℕ) (value : D) (vote : DirectResolutionVote)
  | statement (m : DirectResolutionStatement K D)
  | done (m : DirectResolutionDone K D)
  | valueFetch (m : DirectResolutionValueFetch K D)
  | valueServe (m : DirectResolutionValueServe K D)
  | retryExternalValidity
  | admitTargetsThrough (through : ℕ)
  | gcBelow (floor : ℕ)

def ResolverCall.entries (t : ℕ) : ResolverCall K D → List (ResolutionEntry K D)
  | .updateCandidates target candidates => if target = t then candidates else []
  | .suggest m => if m.target = t then m.entry.toList else []
  | .witness m => if m.target = t then [m.entry] else []
  | .proposal m => if m.target = t then [m.entry] else []
  | .done m => if m.target = t then [m.entry] else []
  | .valueServe m => if m.target = t then [m.entry] else []
  | _ => []

def ResolverCall.inputs {cfg : ResolverConfig K D} (r : DirectResolver S cfg)
    (c : ResolverCall K D) (t : ℕ) : CallInputs K D where
  mayStart := r.retainedFloor ≤ t
  wish q v := c = .wish ⟨t, v, q⟩ ∧ 0 < v ∧ cfg.isMember q = true
  value e := e ∈ c.entries t
  fetch value q decided := c = .valueFetch ⟨t, value, q⟩ ∧ value ∈ (r.state t).values ∧
    decided = (r.state t).decision.isSome

/-! ### Effects belong to the target -/

theorem InnerStep.targetOf (h : InnerStep cfg s es s') :
    ∀ x ∈ es, x.targetOf = some target := by
  cases h with
  | plain h => exact fun x hx => (h x hx).2
  | _ => exact fun x hx => absurd hx List.not_mem_nil

theorem TargetStep.targetOf {J : CallInputs K D} (h : TargetStep cfg J s es s') :
    ∀ x ∈ es, x.targetOf = some target := by
  have single : ∀ y : DirectResolutionEffect K D, y.targetOf = some target →
      ∀ x ∈ [y], x.targetOf = some target := by
    intro y hy x hx
    rw [List.mem_singleton.mp hx, hy]
  cases h with
  | inner h => exact h.targetOf
  | raise _ _ _ => exact single _ rfl
  | rewish _ => exact single _ rfl
  | enter _ _ _ _ hs hp =>
    intro x hx
    rcases List.mem_cons.mp hx with rfl | hx
    · exact congrArg some hp.1
    · split at hx
      · rw [List.mem_singleton.mp hx]
        exact congrArg some hs.1
      · cases hx
  | serve _ _ _ => exact single _ rfl
  | replay _ _ hk _ =>
    intro x hx
    obtain ⟨y, hy, rfl⟩ := List.mem_map.mp hx
    exact (hk y hy).2.1
  | replayWish _ _ => exact single _ rfl
  | replayDone _ _ _ _ => exact single _ rfl
  | _ => exact fun x hx => absurd hx List.not_mem_nil

theorem TargetStep.targetOf_of_steps {J : CallInputs K D} (h : Steps (TargetStep cfg J) s es s') :
    ∀ x ∈ es, x.targetOf = some target := by
  induction h with
  | refl => exact fun x hx => absurd hx List.not_mem_nil
  | step hr _ ih =>
    intro x hx
    rcases List.mem_append.mp hx with hx | hx
    · exact hr.targetOf x hx
    · exact ih x hx

def effectsOf (t : ℕ) (es : List (DirectResolutionEffect K D)) :
    List (DirectResolutionEffect K D) :=
  es.filter fun x => decide (x.targetOf = some t)

section

omit [LinearOrder K] [LinearOrder D] [Inhabited D]

theorem effectsOf_append (t : ℕ) (es es' : List (DirectResolutionEffect K D)) :
    effectsOf t (es ++ es') = effectsOf t es ++ effectsOf t es' := List.filter_append _ _

theorem mem_effectsOf {t : ℕ} {x : DirectResolutionEffect K D} :
    x ∈ effectsOf t es ↔ x ∈ es ∧ x.targetOf = some t := by
  rw [effectsOf, List.mem_filter, decide_eq_true_eq]

end

namespace DirectResolver

variable {cfg : ResolverConfig K D}

def call (fuel : ℕ) : ResolverCall K D →
    Handler (DirectResolver S cfg) (DirectResolutionEffect K D)
  | .updateCandidates target candidates => updateCandidates fuel target candidates
  | .barFullSelection target => barFullSelection target
  | .activateWithLocalTerminal target => activateWithLocalTerminal fuel target
  | .wish m => onWish fuel m
  | .timer target view kind => onTimer fuel target view kind
  | .suggest m => onSuggest m
  | .proof m => onProof m
  | .witness m => onWitness fuel m
  | .proposal m => onProposal m
  | .vote target view value vote => onVote fuel target view value vote
  | .statement m => onStatement fuel m
  | .done m => onDone m
  | .valueFetch m => onValueFetch m
  | .valueServe m => onValueServe fuel m
  | .retryExternalValidity => retryExternalValidity
  | .admitTargetsThrough through => .modify (admitTargetsThrough through)
  | .gcBelow floor => .modify (gcBelow floor)

/-- Every target makes a run of steps, every effect belongs to a target, and the retention floor
stays. -/
structure Moves (J : ℕ → CallInputs K D) (r : DirectResolver S cfg)
    (es : List (DirectResolutionEffect K D)) (r' : DirectResolver S cfg) : Prop where
  steps : ∀ t, Steps (TargetStep cfg (J t)) (r.state t) (effectsOf t es) (r'.state t)
  owned : ∀ x ∈ es, ∃ t, x.targetOf = some t
  floor : r'.retainedFloor = r.retainedFloor

variable {J : ℕ → CallInputs K D} {r r' r'' : DirectResolver S cfg}
  {es es' : List (DirectResolutionEffect K D)}

def Filed (r : DirectResolver S cfg) : Prop := ∀ t, (r.state t).Filed

theorem Moves.filed (h : Moves J r es r') (hf : r.Filed) : r'.Filed := fun t =>
  TargetState.filed_of_steps (h.steps t) (hf t)

theorem Moves.of_state (h : ∀ t, r'.state t = r.state t) (hf : r'.retainedFloor = r.retainedFloor) :
    Moves J r [] r' where
  steps t := by
    rw [h t]
    exact .refl _
  owned x hx := absurd hx List.not_mem_nil
  floor := hf

theorem Moves.trans (h : Moves J r es r') (h' : Moves J r' es' r'') :
    Moves J r (es ++ es') r'' where
  steps t := by
    rw [effectsOf_append]
    exact (h.steps t).trans (h'.steps t)
  owned x hx := (List.mem_append.mp hx).elim (h.owned x) (h'.owned x)
  floor := h'.floor.trans h.floor

theorem onTarget_moves {h : TargetHandler S cfg target}
    (hh : Handler.FollowsAt (TargetStep cfg (J target)) h (r.state target)) :
    Moves J r (onTarget target h r).2 (onTarget target h r).1 where
  steps t := by
    unfold onTarget
    by_cases ht : t = target
    · subst ht
      have hall : effectsOf t (h (r.state t)).2 = (h (r.state t)).2 :=
        List.filter_eq_self.mpr fun x hx => decide_eq_true (TargetStep.targetOf_of_steps hh x hx)
      rw [state_setState_self, hall]
      exact hh
    · have hnone : effectsOf t (h (r.state target)).2 = [] := by
        refine List.filter_eq_nil_iff.mpr fun x hx => ?_
        rw [TargetStep.targetOf_of_steps hh x hx, decide_eq_true_eq, Option.some.injEq]
        exact fun h => ht h.symm
      rw [state_setState_ne r _ ht, hnone]
      exact .refl _
  owned x hx := ⟨target, TargetStep.targetOf_of_steps hh x hx⟩
  floor := rfl

theorem Runs.moves {h : TargetHandler S cfg target} (hh : TargetState.Runs (J target) h)
    (hf : r.Filed) :
    Moves J r (onTarget target h r).2 (onTarget target h r).1 :=
  onTarget_moves (hh _ (hf target)).1

theorem moves_admit {through : ℕ}
    (h : Moves J { r with admittedThrough := through } es r') : Moves J r es r' where
  steps := h.steps
  owned := h.owned
  floor := h.floor

theorem retryExternalValidity_moves (hf : r.Filed) :
    Moves J r (retryExternalValidity r).2 (retryExternalValidity r).1 := by
  have key : ∀ (l : List ℕ) (r : DirectResolver S cfg), r.Filed → Moves J r
      (Handler.forEach l (fun target => onTarget target
        (TargetState.retryExternalValidity cfg)) r).2
      (Handler.forEach l (fun target => onTarget target
        (TargetState.retryExternalValidity cfg)) r).1 := by
    intro l
    induction l with
    | nil => exact fun r _ => .of_state (fun _ => rfl) rfl
    | cons t l ih =>
      intro r hf
      have hretry : TargetState.InnerRuns (TargetState.retryExternalValidity cfg :
          TargetHandler S cfg t) := TargetState.retryExternalValidity_inner
      have hstep : Moves J r _ _ := Runs.moves hretry.runs hf
      exact hstep.trans (ih _ (hstep.filed hf))
  exact key _ r hf

/-- Every call other than pruning is a run of each target. -/
theorem call_moves {c : ResolverCall K D} (hc : ∀ floor, c ≠ .gcBelow floor) (fuel : ℕ)
    (hf : r.Filed) :
    Moves (c.inputs r) r (call fuel c r).2 (call fuel c r).1 := by
  have idle : Moves (c.inputs r) r [] r := .of_state (fun _ => rfl) rfl
  cases c with
  | updateCandidates target candidates =>
    unfold call updateCandidates
    dsimp only
    split
    · exact idle
    · next h =>
      obtain ⟨hfloor, hd⟩ := isClosed_eq_false h
      refine moves_admit (onTarget_moves (TargetState.updateCandidates_runs fuel (hf target) hd
        (fun _ => hfloor) fun e he => ?_))
      show e ∈ ResolverCall.entries target (.updateCandidates target candidates)
      rwa [ResolverCall.entries, if_pos rfl]
  | barFullSelection target =>
    unfold call barFullSelection
    dsimp only
    split
    · exact idle
    · exact onTarget_moves (h := fun s => ({ s with fullBarred := true }, [])) (.single .bar)
  | activateWithLocalTerminal target =>
    unfold call activateWithLocalTerminal
    dsimp only
    split
    · exact idle
    · next h =>
      rw [Bool.or_eq_true, not_or] at h
      obtain ⟨hfloor, hd⟩ := isClosed_eq_false h.1
      have hn : (r.state target).inst = none := by simpa using h.2
      exact moves_admit (onTarget_moves
        (TargetState.activateWithLocalTerminal_runs fuel (hf target) hd hn hfloor))
  | wish m =>
    unfold call onWish
    dsimp only
    split
    · exact idle
    next hguard =>
    split
    · exact idle
    · next h =>
      simp only [Bool.or_eq_true, decide_eq_true_eq, not_or] at hguard
      refine onTarget_moves (TargetState.onWish_runs fuel (hf m.target) (fun hn hd => ?_)
        ⟨rfl, Nat.pos_of_ne_zero hguard.2, by simpa using hguard.1.1⟩)
      rw [hn, hd] at h
      simp only [Option.isNone_none, Bool.and_self, Bool.true_and, Bool.or_eq_true,
        decide_eq_true_eq, not_or, not_lt] at h
      exact h.1
  | timer target view kind => exact Runs.moves (TargetState.onTimer_runs fuel view kind) hf
  | suggest m =>
    refine Runs.moves (TargetState.onSuggest_runs rfl fun e he => ?_) hf
    show e ∈ ResolverCall.entries m.target (.suggest m)
    rw [ResolverCall.entries, if_pos rfl, he]
    exact List.mem_singleton_self e
  | proof m => exact Runs.moves (TargetState.onProof_runs rfl).runs hf
  | witness m =>
    refine Runs.moves (TargetState.onWitness_runs fuel ?_) hf
    show m.entry ∈ ResolverCall.entries m.target (.witness m)
    rw [ResolverCall.entries, if_pos rfl]
    exact List.mem_singleton_self _
  | proposal m =>
    refine Runs.moves (TargetState.onProposal_runs rfl ?_) hf
    show m.entry ∈ ResolverCall.entries m.target (.proposal m)
    rw [ResolverCall.entries, if_pos rfl]
    exact List.mem_singleton_self _
  | vote target view value vote =>
    exact Runs.moves (TargetState.onVote_runs fuel view value vote).runs hf
  | statement m => exact Runs.moves (TargetState.onStatement_runs fuel m).runs hf
  | done m =>
    refine Runs.moves (TargetState.onDone_runs ?_) hf
    show m.entry ∈ ResolverCall.entries m.target (.done m)
    rw [ResolverCall.entries, if_pos rfl]
    exact List.mem_singleton_self _
  | valueFetch m => exact onTarget_moves (TargetState.onValueFetch_runs fun hm => ⟨rfl, hm, rfl⟩)
  | valueServe m =>
    refine Runs.moves (TargetState.onValueServe_runs fuel ?_) hf
    show m.entry ∈ ResolverCall.entries m.target (.valueServe m)
    rw [ResolverCall.entries, if_pos rfl]
    exact List.mem_singleton_self _
  | retryExternalValidity => exact retryExternalValidity_moves hf
  | admitTargetsThrough through => exact .of_state (fun _ => rfl) rfl
  | gcBelow floor => exact absurd rfl (hc floor)

end DirectResolver

/-! ### Runs -/

/-- The resolver of party `p` of `n` parties with unit stakes. -/
def ResolverConfig.numbered (n : ℕ) [NeZero n] (p : Fin n) : ResolverConfig (Fin n) ℕ where
  toConfig := .numbered n p
  scheduleSeed _ := 0
  serialize core tail := [Encodable.encode (core, tail)]

/-- A resolver, what it has emitted, and the values that were asked for while they were retained
and their target undecided. -/
structure ResolverParty (S : Session K D) (cfg : ResolverConfig K D) where
  resolver : DirectResolver S cfg := {}
  out : List (DirectResolutionEffect K D) := []
  asked : List (DirectResolutionValueFetch K D) := []

namespace ResolverParty

variable {cfg : ResolverConfig K D}

/-- The requests for a retained value of an undecided target. -/
def asks (p : ResolverParty S cfg) : ResolverCall K D → List (DirectResolutionValueFetch K D)
  | .valueFetch m =>
    if (p.resolver.state m.target).decision.isNone ∧ m.value ∈ (p.resolver.state m.target).values
    then [m] else []
  | _ => []

def take (fuel : ℕ) (c : ResolverCall K D) (p : ResolverParty S cfg) : ResolverParty S cfg where
  resolver := (p.resolver.call fuel c).1
  out := p.out ++ (p.resolver.call fuel c).2
  asked := p.asked ++ p.asks c

/-- The states of the runs whose calls all meet a condition on the state before them. -/
inductive Reachable (C : ResolverParty S cfg → ResolverCall K D → Prop) :
    ResolverParty S cfg → Prop
  | init : Reachable C {}
  | take {p : ResolverParty S cfg} {c : ResolverCall K D} (h : Reachable C p) (fuel : ℕ)
      (hc : C p c) : Reachable C (p.take fuel c)

variable {C : ResolverParty S cfg → ResolverCall K D → Prop} {p : ResolverParty S cfg}

theorem take_gcBelow (fuel floor : ℕ) : p.take fuel (.gcBelow floor) =
    { p with resolver := p.resolver.gcBelow floor } := by
  unfold take asks
  rw [List.append_nil]
  congr 1
  exact List.append_nil _

/-- Every call keeps the targets filed. -/
theorem filed_take (hf : p.resolver.Filed) (fuel : ℕ) (c : ResolverCall K D) :
    (p.take fuel c).resolver.Filed := by
  by_cases hc : ∃ floor, c = .gcBelow floor
  · obtain ⟨floor, rfl⟩ := hc
    intro t
    rw [take_gcBelow, DirectResolver.state_gcBelow]
    split
    · exact .empty
    · exact hf t
  · exact (DirectResolver.call_moves (fun floor h => hc ⟨floor, h⟩) fuel hf).filed hf

theorem Reachable.filed (h : Reachable C p) : p.resolver.Filed := by
  induction h with
  | init => exact fun t => .empty
  | take _ fuel _ ih => exact filed_take ih fuel _

theorem Reachable.owned (h : Reachable C p) : ∀ x ∈ p.out, ∃ t, x.targetOf = some t := by
  induction h with
  | init => exact fun x hx => absurd hx List.not_mem_nil
  | @take p c h fuel _ ih =>
    intro x hx
    rcases List.mem_append.mp hx with hx | hx
    · exact ih x hx
    by_cases hc : ∃ floor, c = .gcBelow floor
    · obtain ⟨floor, rfl⟩ := hc
      cases hx
    · exact (DirectResolver.call_moves (fun floor h => hc ⟨floor, h⟩) fuel h.filed).owned x hx

def run (cs : List (ℕ × ResolverCall K D)) : ResolverParty S cfg :=
  cs.foldl (fun p x => p.take x.1 x.2) {}

/-- Each call of a sequence meets a condition on the state before it. -/
def Meets (C : ResolverParty S cfg → ResolverCall K D → Prop) :
    List (ℕ × ResolverCall K D) → ResolverParty S cfg → Prop
  | [], _ => True
  | x :: cs, p => C p x.2 ∧ Meets C cs (p.take x.1 x.2)

instance decidableMeets [∀ p c, Decidable (C p c)] :
    ∀ (cs : List (ℕ × ResolverCall K D)) (p : ResolverParty S cfg), Decidable (Meets C cs p)
  | [], _ => inferInstanceAs (Decidable True)
  | x :: cs, p =>
    haveI := decidableMeets cs (p.take x.1 x.2)
    inferInstanceAs (Decidable (C p x.2 ∧ Meets C cs (p.take x.1 x.2)))

theorem reachable_run {cs : List (ℕ × ResolverCall K D)} (h : Meets C cs {}) :
    Reachable C (run cs : ResolverParty S cfg) := by
  have key : ∀ (cs : List (ℕ × ResolverCall K D)) (p : ResolverParty S cfg),
      Reachable C p → Meets C cs p → Reachable C (cs.foldl (fun p x => p.take x.1 x.2) p) := by
    intro cs
    induction cs with
    | nil => exact fun p h _ => h
    | cons x cs ih => exact fun p h hcs => ih _ (h.take x.1 hcs.1) hcs.2
  exact key cs {} .init h

theorem meets_true (cs : List (ℕ × ResolverCall K D)) (p : ResolverParty S cfg) :
    Meets (fun _ _ => True) cs p := by
  induction cs generalizing p with
  | nil => trivial
  | cons x cs ih => exact ⟨trivial, ih _⟩

/-- In every sequence of calls no expectation fails: what an instance has witnessed, what it has
sent or counted as DONE and what a DONE quorum names is retained, and a primary that has enough
suggestions has a last one. -/
theorem no_expectation_fails (cs : List (ℕ × ResolverCall K D)) :
    .abort ∉ (run cs : ResolverParty S cfg).out ∧
    ∀ t, let s := (run cs : ResolverParty S cfg).resolver.state t
      (∀ i, s.inst = some i →
        (∀ view st value, i.views.lookup view = some st → st.backingSent = some value →
          value ∈ s.values) ∧
        (∀ value, i.doneSent = some value → value ∈ s.values) ∧
        (∀ q value, i.done.lookup q = some value → value ∈ s.values)) ∧
      (∀ value, s.doneWinner cfg cfg.quorumParties = some value → value ∈ s.values) ∧
      ∀ view, cfg.quorumParties ≤ (s.acceptedSuggestions cfg view).length →
        s.acceptedSuggestions cfg view ≠ [] := by
  have hreach : Reachable (fun _ _ => True) (run cs : ResolverParty S cfg) :=
    reachable_run (meets_true cs {})
  refine ⟨fun habort => ?_, fun t => ?_⟩
  · obtain ⟨t, ht⟩ := hreach.owned _ habort
    cases ht
  · have hf := hreach.filed t
    refine ⟨fun i hi => ?_, fun value => ?_, fun view hlen hnil => ?_⟩
    · have hinst := hf.inst i hi
      exact ⟨fun view st value hl => (hinst.views view st hl).backing value, hinst.doneSent,
        hinst.done⟩
    · exact TargetState.doneWinner_retained (TargetState.quorumParties_pos cfg) hf
    · rw [hnil] at hlen
      exact absurd hlen (not_le.mpr (TargetState.quorumParties_pos cfg))

end ResolverParty

end Vantage
