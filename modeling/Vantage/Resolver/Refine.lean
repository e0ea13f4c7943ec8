import Vantage.Resolver.Step

/-!
# Echo, proposals and DONE are runs of atomic steps

* `tryEcho_follows`, `tryPrimaryPropose_follows`, `recheckDone_follows`: the handlers.
-/

namespace Vantage

variable {K D : Type} [LinearOrder K] [LinearOrder D] [Inhabited D] {S : Session K D}
  {target : ℕ}

def ballotsOf (views : Table ℕ (DirectViewState K D)) (view : ℕ) : Ballot K D :=
  ((views.lookup view).map DirectViewState.toBallot).getD {}

omit [LinearOrder K] [LinearOrder D] [Inhabited D] in
theorem ballotsOf_insert (views : Table ℕ (DirectViewState K D)) (view : ℕ)
    (st : DirectViewState K D) :
    ballotsOf (views.insert view st) = Function.update (ballotsOf views) view st.toBallot := by
  funext v
  by_cases h : v = view
  · subst h
    simp [ballotsOf]
  · simp [ballotsOf, Function.update_of_ne h, AList.lookup_insert_ne h]

def DirectInstance.core (i : DirectInstance K D) : InstCore K D where
  toProgress := i.toProgress
  ballots := ballotsOf i.views

namespace TargetState

def core {committee : Committee K} (s : TargetState S committee target) : Core K D :=
  ⟨s.inst.map DirectInstance.core, s.decision⟩

variable {cfg : ResolverConfig K D} {I : ResolverInputs K D}
  {s s' : TargetState S cfg.committee target} {i : DirectInstance K D}
  {es : List (DirectResolutionEffect K D)} {st : DirectViewState K D} {value : D}
  {phase : DirectResolutionPhase} {view : ℕ} {committee : Committee K} {e : ResolutionEntry K D}
  {key origin : Option ℕ}

def Step (cfg : ResolverConfig K D) (I : ResolverInputs K D)
    (s : TargetState S cfg.committee target) (es : List (DirectResolutionEffect K D))
    (s' : TargetState S cfg.committee target) : Prop :=
  CoreStep S cfg target I s.core es s'.core

theorem inst_of_guard {b : Bool} (h : ¬(b || s.inst.isNone) = true) : ∃ i, s.inst = some i := by
  rw [Bool.or_eq_true, not_or, Option.isNone_iff_eq_none] at h
  exact Option.ne_none_iff_exists'.mp h.2

/-! ### Cores of changed states -/

theorem core_inst (hi : s.inst = some i) : s.core.inst = some i.core := by
  unfold core
  rw [hi]
  rfl

section

omit [LinearOrder K] [LinearOrder D]

theorem ballots_core (hv : i.views.lookup view = some st) :
    i.core.ballots view = st.toBallot := by
  simp [DirectInstance.core, ballotsOf, hv]

theorem ballots_getD (i : DirectInstance K D) (view : ℕ) :
    i.core.ballots view = ((i.views.lookup view).getD {}).toBallot := by
  cases hv : i.views.lookup view <;> simp [DirectInstance.core, ballotsOf, hv]

theorem core_insert (i : DirectInstance K D) (view : ℕ) (st : DirectViewState K D) :
    DirectInstance.core { i with views := i.views.insert view st } =
      i.core.setBallot view st.toBallot := by
  unfold DirectInstance.core InstCore.setBallot
  rw [ballotsOf_insert]

end

theorem step_quiet (h : s'.core = s.core) (hes : ∀ x ∈ es, x.isQuiet = true) :
    Step cfg I s es s' := by
  unfold Step
  rw [h]
  exact .quiet hes

theorem step_silent (h : s'.core = s.core) : Step cfg I s [] s' :=
  step_quiet h fun _ hx => absurd hx List.not_mem_nil

theorem steps_congr {t : TargetState S cfg.committee target} (h : t.core = s.core)
    (hr : Steps (Step cfg I) t es s') : Steps (Step cfg I) s es s' :=
  Steps.silent (step_silent h) hr

theorem step_setView
    (h : CoreStep S cfg target I s.core es
      { s.core with inst := some (i.core.setBallot view st.toBallot) }) :
    Step cfg I s es
      { s with inst := some { i with views := i.views.insert view st } } := by
  unfold Step
  rw [← core_insert] at h
  exact h

theorem mapView_eq (f : DirectViewState K D → DirectViewState K D) (hi : s.inst = some i)
    (hv : i.views.lookup view = some st) :
    s.mapView view f = { s with inst := some { i with views := i.views.insert view (f st) } }
    := by
  unfold mapView mapInst
  rw [hi, Option.map_some, hv]

theorem updateView_eq (view : ℕ) (f : DirectViewState K D → DirectViewState K D)
    (hi : s.inst = some i) :
    s.updateView view f =
      { s with
        inst := some
          { i with views := i.views.insert view (f ((i.views.lookup view).getD {})) } } := by
  unfold updateView mapInst
  rw [hi, Option.map_some]

theorem viewState_eq (hv : s.viewState view = some st) :
    ∃ i, s.inst = some i ∧ i.views.lookup view = some st :=
  Option.bind_eq_some_iff.mp hv

theorem rememberEntry_eq (e : ResolutionEntry K D) (s : TargetState S committee target) :
    ∃ values, (s.rememberEntry e).2 = { s with values := values } := by
  unfold rememberEntry
  split
  · dsimp only
    split
    · exact ⟨s.values, rfl⟩
    · exact ⟨_, rfl⟩
  · exact ⟨s.values, rfl⟩

theorem rememberEntry_core (e : ResolutionEntry K D) (s : TargetState S committee target) :
    (s.rememberEntry e).2.core = s.core := by
  obtain ⟨values, h⟩ := rememberEntry_eq e s
  rw [h]
  rfl

theorem rememberEntry_inst (e : ResolutionEntry K D) (s : TargetState S committee target) :
    (s.rememberEntry e).2.inst = s.inst := by
  obtain ⟨values, h⟩ := rememberEntry_eq e s
  rw [h]

theorem rememberEntry_some (h : (s.rememberEntry e).1 = some value) :
    value = valueDigest S e ∧ validEntry cfg.committee target e = true := by
  unfold rememberEntry at h
  split at h
  · next hv => exact ⟨(Option.some.inj h).symm, hv⟩
  · cases h

theorem entry_spec (h : s.entry value = some e) :
    valueDigest S e = value ∧ validEntry cfg.committee target e = true := by
  obtain ⟨x, -, rfl⟩ := Option.map_eq_some_iff.mp h
  exact x.2

theorem isBacked_core (hi : s.inst = some i) (h : s.isBacked cfg value = true) :
    i.core.Backed cfg value := by
  unfold isBacked at h
  rw [hi, Option.any_some, List.any_eq_true] at h
  obtain ⟨view, -, hv⟩ := h
  cases hl : i.views.lookup view with
  | none =>
    rw [hl] at hv
    cases hv
  | some st =>
    rw [hl, Option.any_some] at hv
    refine ⟨view, ?_⟩
    rw [ballots_core hl]
    exact of_decide_eq_true hv

/-! ### Statements and proposals -/

theorem emitStatement_spec (value : D) (hi : s.inst = some i)
    (hs : (i.core.ballots i.currentView).sent phase = none)
    (hb : bindingIsValid i.currentView phase key origin = true) :
    (emitStatement cfg i.currentView phase value key origin s).2 =
        [.broadcastStatement ⟨target, i.currentView, value, phase, key,
          if phase = .echo then origin else none, cfg.name⟩] ∧
      (emitStatement cfg i.currentView phase value key origin s).1.core =
        { s.core with
          inst := some (i.core.say cfg phase
            ⟨value, key, if phase = .echo then origin else none⟩) } := by
  rw [ballots_getD] at hs
  unfold emitStatement
  rw [hi, hb]
  dsimp only
  rw [hs]
  refine ⟨rfl, ?_⟩
  have hcore := core_insert i i.currentView
    { (i.views.lookup i.currentView).getD {} with
      sent := Function.update ((i.views.lookup i.currentView).getD {}).sent phase (some value)
      statements := Function.update ((i.views.lookup i.currentView).getD {}).statements phase
        ((((i.views.lookup i.currentView).getD {}).statements phase).insert cfg.name
          ⟨value, key, if phase = .echo then origin else none⟩) }
  have hsay : i.core.say cfg phase ⟨value, key, if phase = .echo then origin else none⟩ =
      i.core.setBallot i.currentView
        { ((i.views.lookup i.currentView).getD {}).toBallot with
          sent := Function.update ((i.views.lookup i.currentView).getD {}).sent phase (some value)
          statements := Function.update ((i.views.lookup i.currentView).getD {}).statements phase
            ((((i.views.lookup i.currentView).getD {}).statements phase).insert cfg.name
              ⟨value, key, if phase = .echo then origin else none⟩) } := by
    rw [← ballots_getD]
    rfl
  simp only [Bool.not_true, Bool.false_eq_true, if_false, Option.isSome_none]
  rw [updateView_eq _ _ hi, hsay, ← hcore]
  rfl

theorem emitStatement_idle (hi : s.inst = some i)
    (h : ¬((i.core.ballots view).sent phase = none ∧
      bindingIsValid view phase key origin = true)) :
    emitStatement cfg view phase value key origin s = (s, []) := by
  unfold emitStatement
  rw [hi]
  split
  · rfl
  · next hb =>
    dsimp only
    rw [if_pos]
    rw [ballots_getD] at h
    rw [Bool.not_eq_true', Bool.not_eq_false] at hb
    have hs : ¬((i.views.lookup view).getD {}).sent phase = none := fun hs => h ⟨hs, hb⟩
    exact Option.isSome_iff_ne_none.mpr hs

theorem emitStatement_steps (hi : s.inst = some i)
    (h : (i.core.ballots i.currentView).sent phase = none → bindingIsValid i.currentView phase key
        origin = true →
      CoreStep S cfg target I s.core
        [.broadcastStatement ⟨target, i.currentView, value, phase, key,
          if phase = .echo then origin else none, cfg.name⟩]
        { s.core with
          inst := some (i.core.say cfg phase
            ⟨value, key, if phase = .echo then origin else none⟩) }) :
    Handler.FollowsAt (Step cfg I) (emitStatement cfg i.currentView phase value key origin) s := by
  unfold Handler.FollowsAt
  by_cases hc : (i.core.ballots i.currentView).sent phase = none ∧
      bindingIsValid i.currentView phase key origin = true
  · obtain ⟨hes, hcore⟩ := emitStatement_spec value hi hc.1 hc.2
    refine .single ?_
    unfold Step
    rw [hes, hcore]
    exact h hc.1 hc.2
  · rw [emitStatement_idle hi hc]
    exact .refl s

theorem tryEcho_follows (view : ℕ) :
    Handler.Follows (Step cfg I)
      (tryEcho cfg view : TargetHandler S cfg target) := by
  intro s
  unfold Handler.FollowsAt tryEcho
  cases hi : s.inst with
  | none => exact .refl s
  | some i =>
    dsimp only
    split
    · exact .refl s
    next hview =>
    rw [not_ne_iff] at hview
    subst hview
    cases hv : i.views.lookup i.currentView with
    | none => exact .refl s
    | some st =>
      dsimp only
      split
      · exact .refl s
      next hsent =>
      cases hp : st.proposal with
      | none => exact .refl s
      | some p =>
        dsimp only
        have hb : i.core.ballots i.core.currentView = st.toBallot := ballots_core hv
        have hpc : (i.core.ballots i.core.currentView).proposal = some p := by rw [hb, hp]
        split
        · exact .refl s
        next hbacked =>
        split
        · exact .refl s
        next hlock =>
        rw [Bool.not_eq_true', Bool.not_eq_false] at hlock
        split
        · next hvote =>
          refine emitStatement_steps hi fun hs hbind => ?_
          simp only [bindingIsValid, Option.any_some, Bool.and_eq_true, decide_eq_true_eq,
            Bool.not_eq_true', Bool.and_eq_false_iff, decide_eq_false_iff_not] at hbind
          have hk : 0 < p.keyView → i.core.Backed cfg p.value := by
            intro hk
            simp only [Bool.and_eq_true, decide_eq_true_eq, Bool.not_eq_true', not_and,
              Bool.not_eq_false] at hbacked
            exact isBacked_core hi (hbacked hk)
          have ho : 0 < p.keyView → (i.core.ballots i.core.currentView).voteOrigin = none := by
            intro hk
            rw [hb]
            rcases hbind.2 with h0 | h0
            · exact absurd hk h0
            · simpa using h0
          have step : CoreStep S cfg target I s.core _ _ :=
            .echo (core_inst hi) hpc hs hk (by rw [hb]; exact hlock) (by rw [hb]; exact hvote)
              ho hbind.1
          rw [hb] at step
          exact step
        · rw [mapView_eq _ hi hv]
          refine .single (step_setView ?_)
          have step : CoreStep S cfg target I s.core _ _ := .request (core_inst hi) hpc
          rw [hb] at step
          exact step
        · exact .refl s

theorem onProposal_follows (m : DirectResolutionProposal K D) :
    Handler.Follows (Step cfg I) (onProposal cfg m : TargetHandler S cfg target) := by
  intro s
  unfold Handler.FollowsAt onProposal
  split
  · exact .refl s
  next hguard =>
  split
  · exact .refl s
  split
  · exact .refl s
  next hnone =>
  have hcore := rememberEntry_core m.entry s
  have hinst := rememberEntry_inst m.entry s
  split
  · next s' heq =>
    rw [heq] at hcore
    exact .single (step_silent hcore)
  · next value s' heq =>
    rw [heq] at hcore hinst
    obtain ⟨hvalue, hvalid⟩ := rememberEntry_some (congrArg Prod.fst heq)
    split
    · exact .single (step_silent hcore)
    · next hm =>
      rw [not_ne_iff] at hm
      simp only [Bool.or_eq_true, decide_eq_true_eq, not_or, Option.isNone_iff_eq_none, not_le]
        at hguard
      obtain ⟨i, hi⟩ := Option.ne_none_iff_exists'.mp hguard.2
      refine steps_congr hcore ?_
      have hi' : s'.inst = some i := hinst.trans hi
      rw [updateView_eq _ _ hi']
      refine Steps.silent (step_setView ?_) (tryEcho_follows m.view _)
      have hp : (i.core.ballots m.view).proposal = none := by
        unfold viewState at hnone
        rw [hi, Option.bind_some] at hnone
        rw [ballots_getD]
        cases hl : i.views.lookup m.view with
        | none => rfl
        | some st => simpa [hl] using hnone
      have step : CoreStep S cfg target I s'.core _ _ :=
        .propose (core_inst hi') hp (hm.symm.trans hvalue) hvalid hguard.1.1.1.2
      rw [ballots_getD] at step
      exact step

theorem takeNextCandidate_core (view : ℕ) (s : TargetState S cfg.committee target) :
    (s.takeNextCandidate cfg view).2.core = s.core := by
  unfold takeNextCandidate
  dsimp only
  split
  · rfl
  · unfold mapInst core
    cases s.inst <;> rfl

theorem propose_follows (view keyView : ℕ) (e : ResolutionEntry K D) :
    Handler.Follows (Step cfg I) (propose cfg view keyView e : TargetHandler S cfg target) := by
  intro s
  unfold Handler.FollowsAt propose
  refine Handler.FollowsAt.after (.single (step_quiet rfl fun x hx => ?_)) (onProposal_follows _ s)
  rw [List.mem_singleton.mp hx]
  rfl

theorem tryPrimaryPropose_follows (view : ℕ) :
    Handler.Follows (Step cfg I) (tryPrimaryPropose cfg view : TargetHandler S cfg target) := by
  intro s
  unfold Handler.FollowsAt tryPrimaryPropose
  split
  · exact .refl s
  split
  · exact .refl s
  dsimp only
  split
  · exact .refl s
  split
  · exact .refl s
  split
  · split
    · exact .refl s
    · exact propose_follows _ _ _ s
  · have hcore := takeNextCandidate_core view s
    split
    · next s' heq =>
      rw [heq] at hcore
      exact .single (step_silent hcore)
    · next e s' heq =>
      rw [heq] at hcore
      exact steps_congr hcore (propose_follows _ _ _ s')

theorem raiseOwnWish_follows (view : ℕ) :
    Handler.Follows (Step cfg I) (raiseOwnWish cfg view : TargetHandler S cfg target) := by
  intro s
  unfold Handler.FollowsAt raiseOwnWish
  cases hi : s.inst with
  | none => exact .refl s
  | some i =>
    dsimp only
    split
    · exact .refl s
    · refine .single (step_quiet ?_ fun x hx => ?_)
      · unfold core
        rw [hi]
        rfl
      · rcases List.mem_cons.mp hx with rfl | hx
        · rfl
        · split at hx
          · rw [List.mem_singleton.mp hx]
            rfl
          · cases hx

theorem ensureValueFetch_follows (value : D) (peers : List K) :
    Handler.Follows (Step cfg I)
      (ensureValueFetch cfg value peers : TargetHandler S cfg target) := by
  intro s
  unfold Handler.FollowsAt ensureValueFetch
  split
  · exact .refl s
  · refine .single (step_quiet rfl fun x hx => ?_)
    obtain ⟨q, -, rfl⟩ := List.mem_map.mp hx
    rfl

/-! ### DONE -/

theorem doneWinner_count {threshold : ℕ} (hi : s.inst = some i)
    (h : s.doneWinner cfg threshold = some value) :
    threshold ≤ Table.count (fun v => decide (v = value)) i.done := by
  unfold doneWinner at h
  rw [hi, Option.bind_some] at h
  simpa using Table.winner_count h

theorem emitDone_followsAt
    (h : ∀ i, s.inst = some i →
      (∃ view vote, InstCore.PhaseQuorum cfg (i.core.ballots view) .lock vote ∧ vote.2 = value) ∨
        cfg.fPlus1Parties ≤ Table.count (fun v => decide (v = value)) i.done) :
    Handler.FollowsAt (Step cfg I) (emitDone cfg value e) s := by
  unfold Handler.FollowsAt emitDone
  split
  · exact .refl s
  next hv =>
  simp only [Bool.or_eq_true, Bool.not_eq_true', decide_eq_true_eq, not_or, Bool.not_eq_false,
    not_ne_iff] at hv
  cases hi : s.inst with
  | none => exact .refl s
  | some i =>
    dsimp only
    split
    · exact .refl s
    · next hs =>
      have hn : i.doneSent = none := by simpa using hs
      exact .single (.done (core_inst hi) hn hv.2 (h i hi))

theorem recheckDone_follows :
    Handler.Follows (Step cfg I) (recheckDone cfg : TargetHandler S cfg target) := by
  have quiet : ∀ x ∈ [DirectResolutionEffect.abort (K := K) (D := D)], x.isQuiet = true := by
    intro x hx
    rw [List.mem_singleton.mp hx]
    rfl
  refine Handler.Follows.seq (fun s => ?_) fun s => ?_
  · unfold Handler.FollowsAt relayDone
    split
    · exact .refl s
    split
    · exact .refl s
    next value hw =>
    split
    · exact .single (step_quiet rfl quiet)
    · exact emitDone_followsAt fun i hi => .inr (doneWinner_count hi hw)
  · unfold Handler.FollowsAt decideDone
    split
    · exact .refl s
    next value hw =>
    split
    · exact .single (step_quiet rfl quiet)
    next e he =>
    obtain ⟨i, hi, -⟩ := Option.bind_eq_some_iff.mp hw
    obtain ⟨hd, hv⟩ := entry_spec he
    exact .single (.decide (core_inst hi) hd hv (doneWinner_count hi hw))

end TargetState

end Vantage
