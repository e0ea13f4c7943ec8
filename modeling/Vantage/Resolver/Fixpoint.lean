import Vantage.Lib.Recursion
import Vantage.Resolver.Entry

/-!
# The phase loop reaches a fixpoint

Every round of the loop that is followed by another sends a statement or the DONE of the view.  The
call that the witness recheck nests inside a round sends nothing by itself; it is made once, because
the value that got its quorum of witnesses is the one that was waiting for it.

* `InstCore.unsent`: what an instance can still send in a view; `CoreStep.unsent_subset`: no step
  adds to it;
* `TargetState.Stable`: whatever happens next, the value with a quorum of fresh ECHOs and the value
  with a quorum of witnesses of a view coincide;
* `phaseLoop_returnsWithin`: then the loop returns;
* `Returns`: a handler returns, whatever `advance_view` does beyond the bound; `returns_*`: so do
  the handlers that call it.
-/

namespace Vantage

variable {K D : Type} [LinearOrder K] [LinearOrder D] [Inhabited D] {S : Session K D}
  {target : ℕ}

/-! ### What is left to send -/

namespace InstCore

/-- The statements of a resolver view, and the DONE. -/
def ownSend (view : ℕ) (i : InstCore K D) : Option DirectResolutionPhase → Option D
  | none => i.doneSent
  | some phase => (i.ballots view).sent phase

/-- What the phase loop of a resolver view sends: four statements and the DONE. -/
def loopSends : Finset (Option DirectResolutionPhase) :=
  {some .key1, some .key2, some .key3, some .lock, none}

/-- What the phase loop of a resolver view can still send. -/
def unsent (view : ℕ) (i : InstCore K D) : Finset (Option DirectResolutionPhase) :=
  loopSends.filter fun x => (i.ownSend view x).isNone = true

variable {cfg : ResolverConfig K D} {i i' : InstCore K D} {view : ℕ}

section

omit [LinearOrder K] [LinearOrder D]

theorem mem_unsent {x : Option DirectResolutionPhase} :
    x ∈ i.unsent view ↔ x ∈ loopSends ∧ i.ownSend view x = none := by
  rw [unsent, Finset.mem_filter, Option.isNone_iff_eq_none]

theorem unsent_subset (h : ∀ x, i'.ownSend view x = none → i.ownSend view x = none) :
    i'.unsent view ⊆ i.unsent view := fun x hx =>
  mem_unsent.mpr ⟨(mem_unsent.mp hx).1, h x (mem_unsent.mp hx).2⟩

theorem card_unsent_le (i : InstCore K D) (view : ℕ) : (i.unsent view).card ≤ 5 :=
  Finset.card_filter_le _ _

theorem ownSend_setBallot {v : ℕ} {b : Ballot K D}
    (hb : ∀ phase, b.sent phase = none → (i.ballots v).sent phase = none)
    (x : Option DirectResolutionPhase) (h : (i.setBallot v b).ownSend view x = none) :
    i.ownSend view x = none := by
  cases x with
  | none => exact h
  | some phase =>
    unfold ownSend setBallot at h
    by_cases hv : view = v
    · subst hv
      dsimp only at h
      rw [Function.update_self] at h
      exact hb phase h
    · dsimp only at h
      rw [Function.update_of_ne hv] at h
      exact h

end

omit [LinearOrder D] in
theorem ownSend_say {phase : DirectResolutionPhase} {r : StatementRecord D}
    (x : Option DirectResolutionPhase) (h : (i.say cfg phase r).ownSend view x = none) :
    i.ownSend view x = none := by
  refine ownSend_setBallot (fun phase' h' => ?_) x h
  by_cases hp : phase' = phase
  · subst hp
    dsimp only at h'
    rw [Function.update_self] at h'
    cases h'
  · dsimp only at h'
    rwa [Function.update_of_ne hp] at h'

omit [LinearOrder D] in
theorem ownSend_say_self {phase : DirectResolutionPhase} {r : StatementRecord D} :
    (i.say cfg phase r).ownSend i.currentView (some phase) = some r.value := by
  unfold ownSend say setBallot
  dsimp only
  rw [Function.update_self]
  exact Function.update_self ..

omit [LinearOrder K] in
theorem ownSend_recordKey (phase : DirectResolutionPhase) (value : D) :
    (i.recordKey phase value).ownSend view = i.ownSend view := by
  cases phase <;> rfl

omit [LinearOrder K] in
theorem recordKey_currentView (phase : DirectResolutionPhase) (value : D) :
    (i.recordKey phase value).currentView = i.currentView := by
  cases phase <;> rfl

end InstCore

/-- What the phase loop of a resolver view can still send; nothing once the instance is gone. -/
def Core.unsent (view : ℕ) (c : Core K D) : Finset (Option DirectResolutionPhase) :=
  c.inst.elim ∅ (InstCore.unsent view)

section

omit [LinearOrder K] [LinearOrder D]

theorem Core.unsent_eq {c : Core K D} {i : InstCore K D} (hi : c.inst = some i) (view : ℕ) :
    c.unsent view = i.unsent view := by
  unfold Core.unsent
  rw [hi, Option.elim_some]

theorem Core.card_unsent_le (c : Core K D) (view : ℕ) : (c.unsent view).card ≤ 5 := by
  cases hi : c.inst with
  | none => simp [Core.unsent, hi]
  | some i =>
    rw [Core.unsent_eq hi]
    exact i.card_unsent_le view

theorem Core.card_unsent_lt {c c' : Core K D} {i i' : InstCore K D} {view : ℕ}
    {x : Option DirectResolutionPhase} (hi : c.inst = some i) (hi' : c'.inst = some i')
    (hle : ∀ x, i'.ownSend view x = none → i.ownSend view x = none) (hx : x ∈ InstCore.loopSends)
    (hn : i.ownSend view x = none) (hs : i'.ownSend view x ≠ none) :
    (c'.unsent view).card < (c.unsent view).card := by
  rw [Core.unsent_eq hi, Core.unsent_eq hi']
  refine Finset.card_lt_card (Finset.ssubset_iff_of_subset (InstCore.unsent_subset hle) |>.mpr ?_)
  exact ⟨x, InstCore.mem_unsent.mpr ⟨hx, hn⟩, fun h => hs (InstCore.mem_unsent.mp h).2⟩

end

/-- The same inputs for a call that starts no instance. -/
def ResolverInputs.withoutStart (I : ResolverInputs K D) : ResolverInputs K D :=
  { I with mayStart := False }

omit [LinearOrder K] [LinearOrder D] [Inhabited D] in
theorem ResolverInputs.withoutStart_le (I : ResolverInputs K D) : I.withoutStart.Le I :=
  { ResolverInputs.Le.refl I with mayStart := False.elim }

theorem CoreStep.unsent_subset {cfg : ResolverConfig K D} {I : ResolverInputs K D}
    {c c' : Core K D} {es : List (DirectResolutionEffect K D)}
    (h : CoreStep S cfg target I c es c') (hI : ¬I.mayStart) (view : ℕ) :
    c'.unsent view ⊆ c.unsent view := by
  have of_inst : ∀ i i' : InstCore K D, c.inst = some i →
      (∀ x, i'.ownSend view x = none → i.ownSend view x = none) →
      Core.unsent view { c with inst := some i' } ⊆ c.unsent view := by
    intro i i' hi hle
    rw [Core.unsent_eq hi]
    exact InstCore.unsent_subset hle
  cases h with
  | quiet _ => exact Finset.Subset.refl _
  | create _ _ hs => exact absurd hs hI
  | enter hi _ _ => exact of_inst _ _ hi (InstCore.ownSend_setBallot fun _ => id)
  | recvProof hi _ _ => exact of_inst _ _ hi (InstCore.ownSend_setBallot fun _ => id)
  | propose hi _ _ _ _ => exact of_inst _ _ hi (InstCore.ownSend_setBallot fun _ => id)
  | request hi _ => exact of_inst _ _ hi (InstCore.ownSend_setBallot fun _ => id)
  | setVote _ hi _ => exact of_inst _ _ hi (InstCore.ownSend_setBallot fun _ => id)
  | accept hi _ _ => exact of_inst _ _ hi (InstCore.ownSend_setBallot fun _ => id)
  | echo hi _ _ _ _ _ _ _ => exact of_inst _ _ hi InstCore.ownSend_say
  | recvStatement hi _ _ => exact of_inst _ _ hi (InstCore.ownSend_setBallot fun _ => id)
  | @phase i _ toPhase vote hi _ _ _ _ =>
    refine of_inst _ _ hi fun x hx => ?_
    rw [← InstCore.ownSend_recordKey toPhase vote.2]
    exact InstCore.ownSend_say x hx
  | witness hi _ _ _ => exact of_inst _ _ hi (InstCore.ownSend_setBallot fun _ => id)
  | recvWitness hi _ _ => exact of_inst _ _ hi (InstCore.ownSend_setBallot fun _ => id)
  | done hi _ _ _ =>
    refine of_inst _ _ hi fun x hx => ?_
    cases x with
    | none => cases hx
    | some phase => exact hx
  | recvDone hi _ _ => exact of_inst _ _ hi fun x hx => by cases x <;> exact hx
  | decide _ _ _ _ => exact Finset.empty_subset _
  | replay _ _ => exact Finset.Subset.refl _
  | replayDecision _ _ => exact Finset.Subset.refl _

/-- In every resolver view, a quorum of fresh ECHOs and a quorum of witnesses are for one value. -/
def Core.Coherent (cfg : ResolverConfig K D) (c : Core K D) : Prop :=
  ∀ i, c.inst = some i → ∀ view fresh witnessed,
    InstCore.FreshQuorum cfg (i.ballots view) fresh →
    cfg.quorumParties ≤ TargetState.witnessCount witnessed (i.ballots view) → witnessed = fresh

namespace TargetState

section Loop

variable {cfg : ResolverConfig K D} {I : ResolverInputs K D}
  {s s' : TargetState S cfg.committee target} {i : DirectInstance K D} {view : ℕ}
  {es : List (DirectResolutionEffect K D)}

theorem unsent_subset_of_steps (h : Steps (Step cfg I) s es s') (hI : ¬I.mayStart) (view : ℕ) :
    s'.core.unsent view ⊆ s.core.unsent view := by
  induction h with
  | refl => exact Finset.Subset.refl _
  | step hr _ ih => exact ih.trans (hr.unsent_subset hI view)

/-- Coherent now and after everything that may happen next. -/
def Stable (cfg : ResolverConfig K D) (I : ResolverInputs K D)
    (s : TargetState S cfg.committee target) : Prop :=
  ∀ es s', Steps (Step cfg I) s es s' → s'.core.Coherent cfg

theorem Stable.steps (h : s.Stable cfg I) (hs : Steps (Step cfg I) s es s') : s'.Stable cfg I :=
  fun _ _ hs' => h _ _ (hs.trans hs')

theorem Stable.coherent (h : s.Stable cfg I) : s.core.Coherent cfg := h _ _ (.refl s)

/-! ### Each move makes the rest smaller -/

variable {value : D} {fromPhase toPhase : DirectResolutionPhase}

theorem card_unsent_sendPhase (ht : (fromPhase, toPhase) ∈ transitions) (hv : AtView view s)
    (h : s.nextMove cfg view fromPhase toPhase = .send value) :
    ((sendPhase cfg view toPhase value s).1.core.unsent view).card <
      (s.core.unsent view).card := by
  obtain ⟨i, -, hi, -, -, hsent, -⟩ := nextMove_send h
  obtain rfl := hv i hi
  obtain ⟨-, hcore⟩ := sendPhase_spec ht hi h
  have hmem : some toPhase ∈ InstCore.loopSends := by
    simp only [transitions, List.mem_cons, Prod.mk.injEq, List.not_mem_nil, or_false] at ht
    rcases ht with ⟨-, rfl⟩ | ⟨-, rfl⟩ | ⟨-, rfl⟩ | ⟨-, rfl⟩ <;> decide
  refine Core.card_unsent_lt (x := some toPhase) (core_inst hi) (congrArg Core.inst hcore)
    (fun x hx => ?_) hmem hsent ?_
  · rw [← InstCore.ownSend_recordKey toPhase value]
    exact InstCore.ownSend_say x hx
  · have hcv : (i.core.recordKey toPhase value).currentView = i.currentView :=
      InstCore.recordKey_currentView toPhase value
    rw [← hcv, InstCore.ownSend_say_self]
    exact Option.some_ne_none _

theorem card_unsent_emitDone (view : ℕ) {e : ResolutionEntry K D} (hi : s.inst = some i)
    (hn : i.doneSent = none) (he : s.entry value = some e) :
    ((emitDone cfg value e s).1.core.unsent view).card < (s.core.unsent view).card := by
  obtain ⟨hdigest, hvalid⟩ := entry_spec he
  have hs : (emitDone cfg value e s).1.inst =
      some { i with doneSent := some value, done := i.done.insert cfg.name value } := by
    unfold emitDone
    rw [hvalid, hdigest, hi]
    simp [hn]
  refine Core.card_unsent_lt (x := none) (core_inst hi) (core_inst hs) (fun x hx => ?_) (by decide)
    hn (Option.some_ne_none value)
  cases x with
  | none => cases hx
  | some phase => exact hx

theorem nextMove_witness_echo (h : s.nextMove cfg view fromPhase toPhase = .witness value) :
    fromPhase = .echo := by
  unfold nextMove at h
  split at h
  · cases h
  split at h
  · cases h
  split at h
  · cases h
  split at h
  · assumption
  · cases h

/-! ### The nested call -/

/-- The current fresh proposal waits for its witnesses. -/
def waits (cfg : ResolverConfig K D) (view : ℕ) (s : TargetState S cfg.committee target) : Bool :=
  (s.viewState view).any fun st => st.proposal.any fun p =>
    decide (p.keyView = 0) && !s.isBacked cfg p.value

/-- A value has a quorum of fresh ECHOs. -/
def FreshAt (cfg : ResolverConfig K D) (view : ℕ) (value : D)
    (s : TargetState S cfg.committee target) : Prop :=
  ∃ i, s.inst = some i ∧ InstCore.FreshQuorum cfg (i.core.ballots view) value

theorem nextMove_witness_waits (h : s.nextMove cfg view fromPhase toPhase = .witness value) :
    FreshAt cfg view value s ∧ s.waits cfg view = true := by
  have h' := h
  unfold nextMove at h'
  split at h'
  · cases h'
  next vote hw =>
  obtain ⟨i, hi, -⟩ := phaseWinner_quorum hw
  have hfresh := nextMove_witness h hi
  refine ⟨⟨i, hi, hfresh⟩, ?_⟩
  split at h'
  · cases h'
  split at h'
  · cases h'
  split at h'
  swap
  · cases h'
  split at h'
  · cases h'
  split at h'
  swap
  · cases h'
  next hwait =>
  cases h'
  obtain ⟨p, hp, hvalue, hkey, -⟩ := hfresh
  simp only [Bool.and_eq_true] at hwait
  unfold waits
  rw [proposal_any hi, hp, Option.any_some, hkey, hvalue, hwait.2]
  rfl

theorem FreshAt.waits_eq_false (h : FreshAt cfg view value s) (hb : s.isBacked cfg value = true) :
    s.waits cfg view = false := by
  obtain ⟨i, hi, p, hp, rfl, -⟩ := h
  unfold waits
  rw [proposal_any hi, hp, Option.any_some, hb, Bool.not_true, Bool.and_false]

theorem FreshAt.emitBackingWitness (h : FreshAt cfg view value s) (value' : D) :
    FreshAt cfg view value (emitBackingWitness cfg view value' s).1 := by
  unfold TargetState.emitBackingWitness
  split
  · next e st _ hst =>
    split
    · exact h
    · obtain ⟨i, hi, hq⟩ := h
      obtain ⟨i', hi', hv⟩ := viewState_eq hst
      rw [hi] at hi'
      cases hi'
      rw [mapView_eq _ hi hv]
      refine ⟨_, rfl, ?_⟩
      rw [core_insert]
      unfold InstCore.setBallot
      dsimp only
      rw [Function.update_self]
      rw [ballots_core hv] at hq
      exact hq
  · exact h

/-- The witness that `f + 1` parties have sent is relayed before the view is advanced. -/
def relayWitness (cfg : ResolverConfig K D) (view : ℕ) : TargetHandler S cfg target := fun s =>
  match s.backingWinner cfg view cfg.fPlus1Parties with
  | some value => emitBackingWitness cfg view value s
  | none => (s, [])

theorem recheckBacking_apply (view : ℕ) (again : TargetHandler S cfg target)
    (s : TargetState S cfg.committee target) :
    recheckBacking cfg view again s =
      if ((relayWitness cfg view s).1.backingWinner cfg view cfg.quorumParties).isSome ∧
          (relayWitness cfg view s).1.inst.any fun i => decide (i.currentView = view) then
        again.after (relayWitness cfg view s)
      else relayWitness cfg view s := by
  have hseq : recheckBacking cfg view again = Handler.seq (relayWitness cfg view) fun s =>
      if (s.backingWinner cfg view cfg.quorumParties).isSome ∧
          s.inst.any fun i => decide (i.currentView = view) then again s
      else (s, []) := rfl
  rw [hseq, Handler.seq_apply]
  split_ifs
  · rfl
  · rw [List.append_nil]

theorem relayWitness_follows (view : ℕ) :
    Handler.Follows (Step cfg I) (relayWitness cfg view : TargetHandler S cfg target) :=
  recheckBacking_relay_follows view

theorem relayWitness_atView (hv : AtView view s) : AtView view (relayWitness cfg view s).1 := by
  unfold relayWitness
  split
  · exact emitBackingWitness_atView hv
  · exact hv

theorem FreshAt.relayWitness (h : FreshAt cfg view value s) :
    FreshAt cfg view value (relayWitness cfg view s).1 := by
  unfold TargetState.relayWitness
  split
  · exact h.emitBackingWitness _
  · exact h

theorem isBacked_of_backingWinner (hi : s.inst = some i)
    (h : s.backingWinner cfg view cfg.quorumParties = some value) :
    s.isBacked cfg value = true := by
  have hcount := backingWinner_count hi h
  obtain ⟨st, hst, -⟩ := Option.bind_eq_some_iff.mp h
  obtain ⟨i', hi', hv⟩ := viewState_eq hst
  rw [hi] at hi'
  cases hi'
  rw [ballots_core hv] at hcount
  unfold isBacked
  rw [hi, Option.any_some, List.any_eq_true]
  refine ⟨view, AList.lookup_isSome.mp (by rw [hv]; rfl), ?_⟩
  rw [hv, Option.any_some]
  exact decide_eq_true hcount

/-! ### The loop returns -/

/-- The sends that are left, counted twice, and the wait for witnesses. -/
def remaining (cfg : ResolverConfig K D) (view : ℕ) (s : TargetState S cfg.committee target) : ℕ :=
  2 * (s.core.unsent view).card + (s.waits cfg view).toNat

/-- One round of the phase loop of a view, where `again` runs the rounds that follow and the call
that the recheck of the witnesses nests. -/
def phaseLoop (cfg : ResolverConfig K D) (view : ℕ) (again : TargetHandler S cfg target) :
    TargetHandler S cfg target :=
  advanceRound cfg view (recheckBacking cfg view again) again transitions false

theorem advance_eq_iterate (view n : ℕ) :
    (advance cfg view n : TargetHandler S cfg target) = (phaseLoop cfg view)^[n] .skip := by
  induction n with
  | zero => rfl
  | succ n ih =>
    rw [Function.iterate_succ_apply', ← ih]
    rfl

theorem phaseLoop_followsIn {again : TargetHandler S cfg target}
    (h : Handler.FollowsIn (Step cfg I) (AtView view) again) :
    Handler.FollowsIn (Step cfg I) (AtView view) (phaseLoop cfg view again) :=
  advanceRound_followsIn (recheckBacking_followsIn h) h transitions (fun _ ht => ht) false

section Congr

variable {again again' backing backing' : TargetHandler S cfg target} {bound : ℕ}
  (hI : ¬I.mayStart)
  (hlow : ∀ t : TargetState S cfg.committee target, t.Stable cfg I → AtView view t →
    (t.core.unsent view).card < bound → again t = again' t)
include hlow

theorem finishRound_congr {progressed : Bool} (hs : s.Stable cfg I) (hv : AtView view s)
    (hle : (s.core.unsent view).card ≤ bound)
    (hp : progressed = true → (s.core.unsent view).card < bound) :
    finishRound cfg view progressed again s = finishRound cfg view progressed again' s := by
  unfold finishRound
  split
  · next vote hw hd =>
    split
    · rfl
    · next e he =>
      obtain ⟨i, hi, hq⟩ := phaseWinner_quorum hw
      rw [hi, Option.bind_some] at hd
      have hdone : Handler.FollowsAt (Step cfg I) (emitDone cfg vote.2 e) s :=
        emitDone_followsAt fun i' hi' => by
          rw [hi] at hi'
          cases hi'
          exact .inl ⟨view, vote, hq, rfl⟩
      have hcard := card_unsent_emitDone view hi hd he
      rw [Handler.seq_apply, Handler.seq_apply,
        hlow _ (hs.steps hdone) (emitDone_atView hv) (hcard.trans_le hle)]
  · split
    · next hpr => exact hlow s hs hv (hp hpr)
    · rfl

theorem advanceRound_congr (ts : List (DirectResolutionPhase × DirectResolutionPhase))
    (hts : ∀ t ∈ ts, t ∈ transitions ∧ t.1 ≠ .echo) (progressed : Bool) (hs : s.Stable cfg I)
    (hv : AtView view s) (hle : (s.core.unsent view).card ≤ bound)
    (hp : progressed = true → (s.core.unsent view).card < bound) :
    advanceRound cfg view backing again ts progressed s =
      advanceRound cfg view backing' again' ts progressed s := by
  induction ts generalizing progressed s with
  | nil => exact finishRound_congr hlow hs hv hle hp
  | cons t rest ih =>
    obtain ⟨fromPhase, toPhase⟩ := t
    have hrest : ∀ t ∈ rest, t ∈ transitions ∧ t.1 ≠ .echo := fun t ht =>
      hts t (List.mem_cons_of_mem _ ht)
    obtain ⟨ht, hecho⟩ := hts _ List.mem_cons_self
    unfold advanceRound
    cases hm : s.nextMove cfg view fromPhase toPhase with
    | wait => exact ih hrest progressed hs hv hle hp
    | fetch vote => rfl
    | witness value => exact absurd (nextMove_witness_echo hm) hecho
    | send value =>
      obtain ⟨i, -, hi, -⟩ := nextMove_send hm
      have hcard := card_unsent_sendPhase ht hv hm
      obtain rfl := hv i hi
      have hsend : Handler.FollowsAt (Step cfg I) (sendPhase cfg i.currentView toPhase value) s :=
        sendPhase_followsAt ht hi hm
      have hv₁ : AtView i.currentView (sendPhase cfg i.currentView toPhase value s).1 :=
        emitStatement_atView (hv.mapInst fun _ => recordKey_currentView _ _ _ _)
      dsimp only
      rw [Handler.seq_apply, Handler.seq_apply,
        ih hrest true (hs.steps hsend) hv₁ (hcard.trans_le hle).le fun _ => hcard.trans_le hle]

end Congr

theorem phaseLoop_congr {again again' : TargetHandler S cfg target} (hI : ¬I.mayStart)
    (hfollows : Handler.FollowsIn (Step cfg I) (AtView view) again') (hs : s.Stable cfg I)
    (hv : AtView view s)
    (h : ∀ t : TargetState S cfg.committee target, t.Stable cfg I → AtView view t →
      t.remaining cfg view < s.remaining cfg view → again t = again' t) :
    phaseLoop cfg view again s = phaseLoop cfg view again' s := by
  have hlow : ∀ t : TargetState S cfg.committee target, t.Stable cfg I → AtView view t →
      (t.core.unsent view).card < (s.core.unsent view).card → again t = again' t := by
    intro t ht hvt hlt
    refine h t ht hvt ?_
    have := Bool.toNat_le (t.waits cfg view)
    unfold remaining
    omega
  have hrest : ∀ t ∈ ([(.key1, .key2), (.key2, .key3), (.key3, .lock)] :
      List (DirectResolutionPhase × DirectResolutionPhase)), t ∈ transitions ∧ t.1 ≠ .echo := by
    decide
  unfold phaseLoop transitions advanceRound
  cases hm : s.nextMove cfg view .echo .key1 with
  | wait =>
    exact advanceRound_congr hlow _ hrest false hs hv le_rfl fun h => absurd h Bool.false_ne_true
  | fetch vote => rfl
  | send value =>
    obtain ⟨i, -, hi, -⟩ := nextMove_send hm
    have hcard := card_unsent_sendPhase (by decide) hv hm
    obtain rfl := hv i hi
    have hsend : Handler.FollowsAt (Step cfg I) (sendPhase cfg i.currentView .key1 value) s :=
      sendPhase_followsAt (by decide) hi hm
    have hv₁ : AtView i.currentView (sendPhase cfg i.currentView .key1 value s).1 :=
      emitStatement_atView (hv.mapInst fun _ => recordKey_currentView _ _ _ _)
    dsimp only
    rw [Handler.seq_apply, Handler.seq_apply,
      advanceRound_congr hlow _ hrest true (hs.steps hsend) hv₁ hcard.le fun _ => hcard]
  | witness value =>
    obtain ⟨hfresh, hwaits⟩ := nextMove_witness_waits hm
    have hemit : Handler.FollowsAt (Step cfg I) (emitBackingWitness cfg view value) s :=
      emitBackingWitness_followsAt fun i hi => .inl (nextMove_witness hm hi)
    have hs₁ := hs.steps hemit
    have hv₁ : AtView view (emitBackingWitness cfg view value s).1 := emitBackingWitness_atView hv
    have hrecheck : recheckBacking cfg view again (emitBackingWitness cfg view value s).1 =
        recheckBacking cfg view again' (emitBackingWitness cfg view value s).1 := by
      rw [recheckBacking_apply, recheckBacking_apply]
      have hsteps : Handler.FollowsAt (Step cfg I) (relayWitness cfg view)
          (emitBackingWitness cfg view value s).1 := relayWitness_follows view _
      have hs₂ := hs₁.steps hsteps
      have hcard := Finset.card_le_card (unsent_subset_of_steps (hemit.trans hsteps) hI view)
      have hv₂ := relayWitness_atView hv₁
      have hfresh₂ := (hfresh.emitBackingWitness value).relayWitness
      generalize relayWitness cfg view (emitBackingWitness cfg view value s).1 = r at *
      split
      · next hwin =>
        -- The quorum of witnesses is for the value that waits, which is therefore backed now.
        obtain ⟨witnessed, hw⟩ := Option.isSome_iff_exists.mp hwin.1
        obtain ⟨i, hi, hq⟩ := hfresh₂
        have hsame : witnessed = value :=
          hs₂.coherent i.core (core_inst hi) view value witnessed hq (backingWinner_count hi hw)
        have hnow : r.1.waits cfg view = false :=
          FreshAt.waits_eq_false ⟨i, hi, hq⟩ (isBacked_of_backingWinner hi (hsame ▸ hw))
        have hlt : r.1.remaining cfg view < s.remaining cfg view := by
          unfold remaining
          rw [hnow, hwaits]
          simp only [Bool.toNat_false, Bool.toNat_true]
          omega
        unfold Handler.after
        rw [h r.1 hs₂ hv₂ hlt]
      · rfl
    obtain ⟨hf₂, hv₂⟩ := recheckBacking_followsIn hfollows _ hv₁
    have hcard : ((recheckBacking cfg view again'
        (emitBackingWitness cfg view value s).1).1.core.unsent view).card ≤
          (s.core.unsent view).card :=
      Finset.card_le_card (unsent_subset_of_steps (hemit.trans hf₂) hI view)
    dsimp only
    rw [Handler.seq_apply, Handler.seq_apply, Handler.seq_apply, Handler.seq_apply, hrecheck,
      advanceRound_congr hlow _ hrest false (hs₁.steps hf₂) hv₂ hcard
        fun h => absurd h Bool.false_ne_true]

/-- Twelve rounds and nested calls are enough: five sends, each before and after the wait. -/
def loopBound : ℕ := 12

theorem phaseLoop_returnsWithin (hI : ¬I.mayStart) (hs : s.Stable cfg I) (hv : AtView view s) :
    ReturnsWithin (phaseLoop cfg view : TargetHandler S cfg target → _) loopBound s := by
  refine ReturnsWithin.of_measure (W := Handler.FollowsIn (Step cfg I) (AtView view))
    (P := fun t => t.Stable cfg I ∧ AtView view t) (μ := remaining cfg view)
    (fun _ => phaseLoop_followsIn) ?_ Handler.FollowsIn.skip ⟨hs, hv⟩ ?_
  · intro again again' t hfollows ht h
    exact phaseLoop_congr hI hfollows ht.1 ht.2 fun t' ht' hvt' => h t' ⟨ht', hvt'⟩
  · have hcard := s.core.card_unsent_le view
    have hwait := Bool.toNat_le (s.waits cfg view)
    unfold remaining loopBound
    omega

end Loop

/-! ### The handlers that advance a view -/

section Open

variable (cfg : ResolverConfig K D)

/-- Advance the current view with `n` rounds and nested calls; `deeper` stands for what lies beyond
them. -/
def advanceViewTo (n : ℕ) (deeper : ℕ → TargetHandler S cfg target) (view : ℕ) :
    TargetHandler S cfg target := fun s =>
  if s.inst.all fun i => decide (view ≠ i.currentView) then (s, [])
  else (phaseLoop cfg view)^[n] (deeper view) s

variable {cfg} in
theorem advanceView_eq (fuel : ℕ) :
    (advanceView cfg fuel : ℕ → TargetHandler S cfg target) =
      advanceViewTo cfg fuel fun _ => .skip := by
  funext view s
  unfold advanceView advanceViewTo
  rw [advance_eq_iterate]

/-- A handler returns: what `advance_view` would do beyond the bound does not show in its result.
Each call returns its effects to its caller, so no call gets that far. -/
def Returns (k : (ℕ → TargetHandler S cfg target) → TargetHandler S cfg target)
    (s : TargetState S cfg.committee target) : Prop :=
  ∀ n, loopBound ≤ n → ∀ deeper, k (advanceViewTo cfg n deeper) s = k (advanceView cfg loopBound) s

end Open

section Returns

variable {cfg : ResolverConfig K D} {I : ResolverInputs K D}
  {s : TargetState S cfg.committee target}
  {k k' : (ℕ → TargetHandler S cfg target) → TargetHandler S cfg target}

theorem Returns.seq (h : Returns cfg k s)
    (h' : Returns cfg k' (k (advanceView cfg loopBound) s).1) :
    Returns cfg (fun adv => (k adv).seq (k' adv)) s := by
  intro n hn deeper
  dsimp only
  rw [Handler.seq_apply, Handler.seq_apply, h n hn deeper, h' n hn deeper]

theorem Returns.const (h : TargetHandler S cfg target) (s : TargetState S cfg.committee target) :
    Returns cfg (fun _ => h) s := fun _ _ _ => rfl

variable (hI : ¬I.mayStart) (hs : s.Stable cfg I)
include hI hs

theorem returns_advanceView (view : ℕ) : Returns cfg (fun adv => adv view) s := by
  intro n hn deeper
  rw [advanceView_eq]
  unfold advanceViewTo
  dsimp only
  split
  · rfl
  · next h =>
    refine (phaseLoop_returnsWithin hI hs fun i hi => ?_).eq_of_le hn _ _
    rw [hi, Option.all_some, decide_eq_true_eq, not_ne_iff] at h
    exact h.symm

theorem returns_recheckBacking (view : ℕ) :
    Returns cfg (fun adv => recheckBacking cfg view (adv view)) s := by
  intro n hn deeper
  have hadv := returns_advanceView hI (hs.steps (relayWitness_follows view s)) view n hn deeper
  dsimp only at hadv ⊢
  rw [recheckBacking_apply, recheckBacking_apply]
  unfold Handler.after
  rw [hadv]

theorem returns_continue (view : ℕ) :
    Returns cfg (fun adv => ((tryPrimaryPropose cfg view).seq (tryEcho cfg view)).seq (adv view))
      s := by
  have hfirst : Handler.FollowsAt (Step cfg I) ((tryPrimaryPropose cfg view).seq (tryEcho cfg view))
      s := ((tryPrimaryPropose_follows view).seq (tryEcho_follows view)) s
  exact Returns.seq (.const _ s) (returns_advanceView hI (hs.steps hfirst) view)

theorem returns_retryTarget : Returns cfg (retryTargetWith cfg) s := by
  intro n hn deeper
  unfold retryTargetWith
  cases hi : s.inst with
  | none => rfl
  | some i =>
    exact Returns.seq (returns_continue hI hs i.currentView) (.const _ _) n hn deeper

theorem returns_onWitness {m : DirectResolutionWitness K D}
    (hm : I.witness m.sender m.view m.value) : Returns cfg (onWitnessWith cfg m) s := by
  intro n hn deeper
  unfold onWitnessWith
  split
  · rfl
  next hguard =>
  split
  · rfl
  split
  · rfl
  next hnew =>
  obtain ⟨i, hi⟩ := inst_of_guard hguard
  have hcore := rememberEntry_core m.entry s
  have hinst := rememberEntry_inst m.entry s
  split
  · rfl
  · next value s' heq =>
    rw [heq] at hcore hinst
    have hn' : m.sender ∉ (i.core.ballots m.view).backingWitnesses :=
      notMem_of_any Ballot.backingWitnesses hi (AList.notMem_empty _) hnew
    have hs' := hs.steps (steps_congr hcore (steps_recordWitness hm (hinst.trans hi) hn'))
    exact Returns.seq (returns_recheckBacking hI hs' m.view)
      (returns_retryTarget hI (hs'.steps
        (recheckBacking_follows (fun t _ => advanceView_follows _ m.view t) _))) n hn deeper

theorem returns_onVote {view : ℕ} {vote : DirectResolutionVote}
    (hv : ∀ origin, vote = .accept origin → I.vote view value origin) :
    Returns cfg (onVoteWith cfg view value vote) s := by
  intro n hn deeper
  unfold onVoteWith
  split
  · rfl
  next st hst =>
  split
  · rfl
  next hguard =>
  simp only [not_or, Bool.not_eq_true', Bool.not_eq_false] at hguard
  obtain ⟨p, hp, hvalue⟩ := (Option.any_eq_true _ _).mp hguard.2
  obtain rfl : p.value = value := of_decide_eq_true hvalue
  cases vote with
  | reject permanent => rfl
  | accept origin =>
    dsimp only
    split
    · rfl
    · have hs' := hs.steps (steps_acceptVote hst hp (hv origin rfl))
      exact Returns.seq (.const (tryEcho cfg view) _)
        (returns_advanceView hI (hs'.steps (tryEcho_follows view _)) view) n hn deeper

theorem returns_onStatement {m : DirectResolutionStatement K D} (hm : I.statement m) :
    Returns cfg (onStatementWith cfg m) s := by
  intro n hn deeper
  unfold onStatementWith
  split
  · rfl
  next hguard =>
  split
  · rfl
  split
  · rfl
  next hnew =>
  obtain ⟨i, hi⟩ := inst_of_guard hguard
  have hn' : m.sender ∉ (i.core.ballots m.view).statements m.phase :=
    notMem_of_any (fun b => b.statements m.phase) hi (AList.notMem_empty _) hnew
  have hs' := hs.steps (steps_recordStatement hm hi hn')
  dsimp only
  split
  · next hcur =>
    rw [← hcur]
    exact returns_continue hI hs' m.view n hn deeper
  · rfl

end Returns

end TargetState

end Vantage
