import Vantage.Agb.OwnReady

/-!
# The invariant of an AGB party

Everything a party's effects commit it to, packaged for one view and for the engine.
-/

namespace Vantage

variable {K D : Type} [LinearOrder K] [LinearOrder D] {S : Session K D} {view : ℕ}

/-- Everything that may reach the party under `I` may also reach it under `J`. -/
structure Inputs.Le (I J : Inputs S view) : Prop where
  echo : ∀ q st, I.echo q st → J.echo q st
  ready : ∀ q st, I.ready q st → J.ready q st
  skipVote : ∀ q, I.skipVote q → J.skipVote q
  resolved : ∀ o, I.resolved o → J.resolved o

/-- Protocol statements and results about one view. -/
def Effect.isAbout (view : ℕ) (x : Effect K D) : Bool :=
  x.isEchoOf view || x.isReadyOf view || x.isVoteOf view || x.isResultOf view

namespace Statements

/-- The recorded statements of the other parties. -/
structure Heard (cfg : Config K) (J : Inputs S view) (s : Statements S view) : Prop where
  echo : ∀ q st, s.echoStatements.lookup q = some st → q ≠ cfg.name → J.echo q st
  ready : ∀ q st, s.readyStatements.lookup q = some st → q ≠ cfg.name → J.ready q st
  skipVote : ∀ q ∈ s.skipVoteStatements, q ≠ cfg.name → J.skipVote q

/-- A READY quorum of any grades for a body with this core and these tips. -/
def CompletionEvidence (cfg : Config K) (s : Statements S view) (c t : Manifest K D) : Prop :=
  ∃ d tally, s.readyTallies.lookup d = some tally ∧ cfg.quorum ≤ tally.any ∧
    tally.body.proposal.c = c ∧ tally.body.proposal.t = t

/-- What was emitted in a view has its evidence in the view. -/
structure Evidence (cfg : Config K) (J : Inputs S view) (s : Statements S view)
    (out : List (Effect K D)) : Prop where
  sealed : ∀ o route, Effect.sealed view o route ∈ out →
    SealEvidence cfg J.resolved s o route ∧ s.sealed = some o
  completed : ∀ c t, Effect.completed view c t ∈ out → s.CompletionEvidence cfg c t

/-- What a party's effects commit it to in one view. -/
structure Own (cfg : Config K) (J : Inputs S view) (s : Statements S view)
    (out : List (Effect K D)) : Prop where
  exact : s.Exact cfg
  heard : s.Heard cfg J
  echo : s.OwnEcho cfg out
  ready : s.OwnReady cfg out
  vote : s.OwnVote cfg out
  evidence : s.Evidence cfg J out

variable {cfg : Config K} {I J : Inputs S view} {s s' : Statements S view}
  {out es : List (Effect K D)}

/-! ### Evidence is stable -/

theorem matchingEchoCount_mono (hg : s.Grows s') (d : D) :
    s.matchingEchoCount d ≤ s'.matchingEchoCount d := by
  unfold matchingEchoCount
  cases ht : s.echoTallies.lookup d with
  | none => exact Nat.zero_le _
  | some t =>
    obtain ⟨t', ht', -, -, -, hle⟩ := hg.echoTally d t ht
    rw [ht']
    exact hle

theorem sealEvidence_mono {resolved resolved' : Outcome K D → Prop} {o : Outcome K D}
    {route : Route} (h : SealEvidence cfg resolved s o route) (hg : s.Grows s')
    (hr : ∀ o, resolved o → resolved' o) : SealEvidence cfg resolved' s' o route := by
  cases h with
  | directFull ht hq =>
    obtain ⟨t', ht', hb, -, hone, -⟩ := hg.readyTally _ _ ht
    rw [← hb]
    exact .directFull ht' (hq.trans hone)
  | directCore ht hq =>
    obtain ⟨t', ht', hb, -, -, hzero⟩ := hg.readyTally _ _ ht
    rw [← hb]
    exact .directCore ht' (hq.trans hzero)
  | fastFull hl hn =>
    obtain ⟨l', hl', hb, -⟩ := hg.lock _ hl
    rw [← hb] at hn ⊢
    exact .fastFull hl' (hn.trans (matchingEchoCount_mono hg _))
  | voteSkip hq => exact .voteSkip (hq.trans (Finset.card_le_card hg.skipVotes))
  | resolver hroute h => exact .resolver hroute (hr _ h)

theorem CompletionEvidence.mono {c t : Manifest K D} (h : s.CompletionEvidence cfg c t)
    (hg : s.Grows s') : s'.CompletionEvidence cfg c t := by
  obtain ⟨d, tally, ht, hq, hc, ht'⟩ := h
  obtain ⟨tally', htally', hb, hany, -⟩ := hg.readyTally d tally ht
  exact ⟨d, tally', htally', hq.trans hany, by rw [hb, hc], by rw [hb, ht']⟩

theorem Evidence.grows (h : s.Evidence cfg I out) (hg : s.Grows s') :
    s'.Evidence cfg I out where
  sealed o route hm :=
    ⟨sealEvidence_mono (h.sealed o route hm).1 hg fun _ h => h,
      hg.sealed o (h.sealed o route hm).2⟩
  completed c t hm := (h.completed c t hm).mono hg

omit [LinearOrder K] in
theorem Evidence.append (h : s.Evidence cfg I out) (hes : ∀ x ∈ es, x.isResultOf view = false) :
    s.Evidence cfg I (out ++ es) where
  sealed o route hm := by
    rcases List.mem_append.mp hm with hm | hm
    · exact h.sealed o route hm
    · have := hes _ hm
      simp [Effect.isResultOf] at this
  completed c t hm := by
    rcases List.mem_append.mp hm with hm | hm
    · exact h.completed c t hm
    · have := hes _ hm
      simp [Effect.isResultOf] at this

/-- The results of one step: none, one completion, or one seal. -/
theorem step_results (hs : StmtStep cfg I s es s') :
    (∀ x ∈ es, x.isResultOf view = false) ∨
    (∃ d tally, s.readyTallies.lookup d = some tally ∧ cfg.quorum ≤ tally.any ∧
      es = ViewState.completionEffects cfg tally) ∨
    ∃ o route, SealEvidence cfg I.resolved s o route ∧ s.sealed = none ∧ s'.sealed = some o ∧
      es = [.sealed view o route] := by
  cases hs with
  | quiet hq =>
    refine .inl fun x hx => ?_
    have := hq x hx
    cases x <;> first | rfl | cases this
  | ownEcho st _ => exact .inl (by cases st <;> simp [ownEchoEffect, Effect.isResultOf])
  | complete ht hq _ => exact .inr (.inl ⟨_, _, ht, hq, rfl⟩)
  | sealView hn he => exact .inr (.inr ⟨_, _, he, hn, rfl, rfl⟩)
  | _ => exact .inl (by simp [Effect.isResultOf])

theorem Evidence.of_step (h : s.Evidence cfg I out) (hs : StmtStep cfg I s es s') :
    s'.Evidence cfg I (out ++ es) := by
  have hg := hs.grows
  rcases step_results hs with hes | ⟨d, tally, ht, hq, rfl⟩ | ⟨o, route, he, hn, hs', rfl⟩
  · exact (h.grows hg).append hes
  · refine ⟨fun o route hm => ?_, fun c t hm => ?_⟩
    · rcases List.mem_append.mp hm with hm | hm
      · exact (h.grows hg).sealed o route hm
      · rcases ViewState.mem_completionEffects hm with hc | hc <;> cases hc
    · rcases List.mem_append.mp hm with hm | hm
      · exact (h.grows hg).completed c t hm
      · rcases ViewState.mem_completionEffects hm with hc | hc
        · cases hc
        · cases hc
          exact CompletionEvidence.mono ⟨d, tally, ht, hq, rfl, rfl⟩ hg
  · refine ⟨fun o' route' hm => ?_, fun c t hm => ?_⟩
    · rcases List.mem_append.mp hm with hm | hm
      · have := (h.sealed o' route' hm).2
        rw [hn] at this
        cases this
      · cases List.mem_singleton.mp hm
        exact ⟨sealEvidence_mono he hg fun _ h => h, hs'⟩
    · rcases List.mem_append.mp hm with hm | hm
      · exact (h.grows hg).completed c t hm
      · cases List.mem_singleton.mp hm

/-! ### What was heard -/

omit [LinearOrder D] in
theorem Heard.congr (h : s.Heard cfg I) (he : s'.echoPart = s.echoPart)
    (hr : s'.readyPart = s.readyPart) (hv : s'.votePart = s.votePart) : s'.Heard cfg I := by
  simp only [echoPart, readyPart, votePart, Prod.mk.injEq] at he hr hv
  refine ⟨?_, ?_, ?_⟩
  · rw [he.2.1]; exact h.echo
  · rw [hr.2]; exact h.ready
  · rw [hv.2]; exact h.skipVote

theorem Heard.enterEcho (h : s.Heard cfg I) {q : K} {st : EchoStatement S view}
    (hst : q ≠ cfg.name → I.echo q st) : (s.enterEcho cfg q st).Heard cfg I := by
  obtain ⟨hr, hv⟩ := enterEcho_parts cfg q st s
  refine ⟨fun k st' hl hk => ?_, ?_, ?_⟩
  · rw [enterEcho_echoStatements] at hl
    rcases Table.lookup_insert_cases hl with ⟨rfl, rfl⟩ | hl
    · exact hst hk
    · exact h.echo k st' hl hk
  · rw [show (s.enterEcho cfg q st).readyStatements = _ from congrArg Prod.snd hr]
    exact h.ready
  · rw [show (s.enterEcho cfg q st).skipVoteStatements = _ from congrArg Prod.snd hv]
    exact h.skipVote

theorem Heard.respondEcho (h : s.Heard cfg I) (st : EchoStatement S view) :
    (s.respondEcho cfg st).Heard cfg I := by
  have hl : ({ s.lockFor cfg st with echoSent := true } : Statements S view).Heard cfg I := by
    obtain ⟨he, hr, hv⟩ := lockFor_parts cfg st s
    refine ⟨?_, ?_, ?_⟩
    · dsimp only
      rw [he]
      exact h.echo
    · rw [show (s.lockFor cfg st).readyStatements = _ from congrArg Prod.snd hr]
      exact h.ready
    · rw [show (s.lockFor cfg st).skipVoteStatements = _ from congrArg Prod.snd hv]
      exact h.skipVote
  unfold Statements.respondEcho countOwnEcho countEchoStatement
  split
  · exact hl
  · exact hl.enterEcho fun hn => absurd rfl hn

theorem Heard.countReadyStatement (h : s.Heard cfg I) {q : K} {st : ReadyStatement S view}
    (hst : q ≠ cfg.name → I.ready q st) (hc : s.countReadyStatement cfg q st = some s') :
    s'.Heard cfg I := by
  obtain ⟨he, hv⟩ := countReadyStatement_parts hc
  have hr := countReadyStatement_readyPart hc
  simp only [echoPart, readyPart, votePart, Prod.mk.injEq] at he hr hv
  refine ⟨?_, fun k st' hl hk => ?_, ?_⟩
  · rw [he.2.1]; exact h.echo
  · rw [hr.2] at hl
    rcases Table.lookup_insert_cases hl with ⟨rfl, rfl⟩ | hl
    · exact hst hk
    · exact h.ready k st' hl hk
  · rw [hv.2]; exact h.skipVote

theorem Heard.respondReady (h : s.Heard cfg I) (st : ReadyStatement S view) :
    (s.respondReady cfg st).Heard cfg I := by
  have hl : ∀ mix, ({ s with readySent := true, readyMixOpen := mix } : Statements S view).Heard
      cfg I := fun mix => { h with }
  unfold Statements.respondReady countOwnReady
  generalize hc : Statements.countReadyStatement cfg cfg.name st _ = r
  cases r with
  | none => exact hl _
  | some s' => exact (hl _).countReadyStatement (fun hn => absurd rfl hn) hc

theorem Heard.of_step (h : s.Heard cfg I) (hs : StmtStep cfg I s es s') : s'.Heard cfg I := by
  cases hs with
  | recvEcho q st hst _ => exact h.enterEcho fun _ => hst
  | ownEcho st _ => exact h.respondEcho st
  | ownReady _ _ => exact h.respondReady _
  | refine _ hs => exact { h.countReadyStatement (fun hn => absurd rfl hn) hs with }
  | ownNoReady _ => exact h.respondReady _
  | recvReady q st hst hs => exact h.countReadyStatement (fun _ => hst) hs
  | releaseLock =>
    unfold recheckLockRelease
    split
    · split
      · exact { h with }
      · exact h
    · exact h
  | closeMix deadline =>
    obtain ⟨he, hr, hv⟩ := finalizeMixIfClosed_parts cfg deadline s
    exact h.congr he hr hv
  | skipVote _ =>
    refine { h with skipVote := fun q hq hn => ?_ }
    exact h.skipVote q ((Finset.mem_insert.mp hq).resolve_left hn) hn
  | recvSkipVote q hst =>
    refine { h with skipVote := fun k hk hn => ?_ }
    rcases Finset.mem_insert.mp hk with rfl | hk
    · exact hst
    · exact h.skipVote k hk hn
  | _ => exact { h with }

/-! ### The package -/

theorem Own.of_step (h : s.Own cfg I out) (hI : I.Echoed cfg out)
    (hs : StmtStep cfg I s es s') : s'.Own cfg I (out ++ es) where
  exact := exact_of_step h.exact hs
  heard := h.heard.of_step hs
  echo := h.echo.of_step hI hs
  ready := h.ready.of_step h.exact hI hs
  vote := h.vote.of_step hI hs
  evidence := h.evidence.of_step hs

theorem Own.append (h : s.Own cfg I out) (hes : ∀ x ∈ es, x.isAbout view = false) :
    s.Own cfg I (out ++ es) := by
  simp only [Effect.isAbout, Bool.or_eq_false_iff] at hes
  exact
    { h with
      echo := h.echo.append fun x hx => (hes x hx).1.1.1
      ready := h.ready.append fun x hx => (hes x hx).1.1.2
      vote := h.vote.append fun x hx => (hes x hx).1.2
      evidence := h.evidence.append fun x hx => (hes x hx).2 }

theorem Own.mono (h : s.Own cfg I out) (hIJ : I.Le J) : s.Own cfg J out :=
  { h with
    heard := ⟨fun q st hl hn => hIJ.echo q st (h.heard.echo q st hl hn),
      fun q st hl hn => hIJ.ready q st (h.heard.ready q st hl hn),
      fun q hq hn => hIJ.skipVote q (h.heard.skipVote q hq hn)⟩
    evidence := ⟨fun o route hm =>
      ⟨sealEvidence_mono (h.evidence.sealed o route hm).1 (.refl s) hIJ.resolved,
        (h.evidence.sealed o route hm).2⟩, h.evidence.completed⟩ }

theorem own_default (cfg : Config K) (I : Inputs S view) :
    ({} : Statements S view).Own cfg I [] where
  exact := exact_default cfg
  heard := ⟨nofun, nofun, nofun⟩
  echo := ⟨nofun, fun st h => (by cases st <;> simp [SaidEcho] at h), nofun, nofun, nofun, nofun⟩
  ready := ⟨⟨nofun, nofun⟩, fun st h => (by cases st <;> simp [SaidReady] at h), nofun, nofun⟩
  vote := ⟨nofun, nofun, nofun⟩
  evidence := ⟨nofun, nofun⟩

end Statements

/-! ### The engine -/

theorem StmtStep.isAbout_of_ne {cfg : Config K} {I : Inputs S view} {s s' : Statements S view}
    {es : List (Effect K D)} (h : StmtStep cfg I s es s') {u : ℕ} (hu : u ≠ view) :
    ∀ x ∈ es, x.isAbout u = false := by
  have quiet : ∀ x : Effect K D, x.isQuiet = true → x.isAbout u = false := by
    intro x hx
    cases x <;> first | rfl | cases hx
  have hne : ¬view = u := fun h => hu h.symm
  cases h with
  | quiet hq => exact fun x hx => quiet x (hq x hx)
  | ownEcho st _ =>
    cases st <;>
      simp [ownEchoEffect, Effect.isAbout, Effect.isEchoOf, Effect.isReadyOf, Effect.isVoteOf,
        Effect.isResultOf, Body.view_eq, hne]
  | complete _ _ _ =>
    intro x hx
    rcases ViewState.mem_completionEffects hx with hq | rfl
    · exact quiet x hq
    · simp [Effect.isAbout, Effect.isEchoOf, Effect.isReadyOf, Effect.isVoteOf,
        Effect.isResultOf, hne]
  | _ =>
    simp [Effect.isAbout, Effect.isEchoOf, Effect.isReadyOf, Effect.isVoteOf,
      Effect.isResultOf, Body.view_eq, hne]

namespace AgbEngine

variable {cfg : Config K} {I J : ∀ view, Inputs S view} {e e' : AgbEngine S}
  {out es : List (Effect K D)}

/-- The invariant of every unpruned view. -/
def Own (cfg : Config K) (J : ∀ view, Inputs S view) (e : AgbEngine S)
    (out : List (Effect K D)) : Prop :=
  ∀ view, e.isPruned view = false → (e.state view).toStatements.Own cfg (J view) out

theorem Own.mono (h : e.Own cfg I out) (hIJ : ∀ view, (I view).Le (J view)) :
    e.Own cfg J out :=
  fun view hv => (h view hv).mono (hIJ view)

theorem Own.of_step (h : e.Own cfg I out) (hI : ∀ view, (I view).Echoed cfg out)
    (hs : Step cfg I e es e') : e'.Own cfg I (out ++ es) := by
  obtain ⟨view, hp, hstep, hne, hmin⟩ := hs
  intro u hu
  have hu' : e.isPruned u = false := by
    unfold isPruned at hu ⊢
    rwa [hmin] at hu
  by_cases huv : u = view
  · subst huv
    exact (h u hu').of_step (hI u) hstep
  · rw [hne u huv]
    exact (h u hu').append (hstep.isAbout_of_ne huv)

theorem Own.of_steps (hs : Steps (Step cfg I) e es e') (h : e.Own cfg I out)
    (hI : ∀ view, (I view).Echoed cfg out) : e'.Own cfg I (out ++ es) := by
  induction hs generalizing out with
  | refl e => rwa [List.append_nil]
  | step hr _ ih =>
    rw [← List.append_assoc]
    exact ih (h.of_step hI hr) fun view => (hI view).append _

omit [LinearOrder K] [LinearOrder D] in
theorem state_gcBelow {floor u : ℕ} (hu : (gcBelow floor e).isPruned u = false) :
    (gcBelow floor e).state u = e.state u ∧ e.isPruned u = false := by
  unfold gcBelow at hu ⊢
  split
  · next h =>
    rw [if_pos h] at hu
    exact ⟨rfl, hu⟩
  · next h =>
    rw [if_neg h] at hu
    simp only [isPruned, decide_eq_false_iff_not, not_lt] at hu ⊢
    have keep : ∀ (vs : List ℕ) (m : AList fun view => ViewState S view), (∀ v ∈ vs, v < floor) →
        (vs.foldl (fun m v => m.erase v) m).lookup u = m.lookup u := by
      intro vs
      induction vs with
      | nil => exact fun _ _ => rfl
      | cons v vs ih =>
        intro m hvs
        rw [List.foldl_cons, ih _ fun w hw => hvs w (List.mem_cons_of_mem _ hw),
          AList.lookup_erase_ne]
        have := hvs v List.mem_cons_self
        omega
    refine ⟨?_, by omega⟩
    unfold state
    dsimp only
    rw [keep]
    intro v hv
    simpa using (List.mem_filter.mp hv).2

theorem Own.gcBelow (h : e.Own cfg I out) (floor : ℕ) : (e.gcBelow floor).Own cfg I out := by
  intro u hu
  obtain ⟨heq, hu'⟩ := state_gcBelow hu
  rw [heq]
  exact h u hu'

theorem own_default (cfg : Config K) (I : ∀ view, Inputs S view) :
    ({} : AgbEngine S).Own cfg I [] :=
  fun view _ => Statements.own_default cfg (I view)

end AgbEngine

end Vantage
