import Vantage.Agb.Calls
import Vantage.Agb.Numbering

/-!
# A party answers a view once

* `ReadyResponses`: the ready-stage responses that a party may give to a view;
* `NoEquivocation`: what the emitted effects may say about one view;
* `NoEquivocation.of_step`: an atomic step keeps it;
* `AgbParty.no_equivocation`: it holds after every run in which nobody else speaks in the name of
  the party; `AgbParty.forged_noready_votes`: a run in which somebody does.

A response can be triggered by a proposal, an echo, a timer, an early refusal, an activation or
a recheck; all of them end in one of the atomic steps.
-/

namespace Vantage

variable {K D : Type} [LinearOrder K] [LinearOrder D] {S : Session K D} {view : ℕ}

/-- The ready-stage responses to one view, in the order of their broadcasts: none, one NO-READY,
one READY, or a READY-mix and then one homogeneous READY for the same proposal. -/
inductive ReadyResponses (view : ℕ) : List (Effect K D) → Prop
  | silent : ReadyResponses view []
  | noReady : ReadyResponses view [.broadcastNoReady view]
  | ready (r : ReadyOut K D) : ReadyResponses view [.broadcastReady r]
  | refined (r r' : ReadyOut K D) (hmix : r.grade = .mix) (hp : r'.proposalOut = r.proposalOut)
      (hg : r'.grade = .zero ∨ r'.grade = .one) :
      ReadyResponses view [.broadcastReady r, .broadcastReady r']

/-- The effects contain at most one echo-stage response, one ready-stage response up to a
refinement, and one skip vote, which comes after the NO-READY. -/
structure NoEquivocation (view : ℕ) (out : List (Effect K D)) : Prop where
  echo : (out.filter (Effect.isEchoOf view)).length ≤ 1
  ready : ReadyResponses view (out.filter (Effect.isReadyOf view))
  vote : (out.filter (Effect.isVoteOf view)).length ≤ 1
  voteAfter : ∀ before after, out = before ++ .broadcastSkipVote view :: after →
    .broadcastNoReady view ∈ before

/-! ### What one step broadcasts -/

namespace Statements

variable {cfg : Config K} {I : Inputs S view} {s s' : Statements S view}
  {out es : List (Effect K D)}

theorem step_echoes (hs : StmtStep cfg I s es s') :
    (∀ x ∈ es, x.isEchoOf view = false) ∨
      s.echoSent = false ∧ ∃ st : EchoStatement S view, es = [ownEchoEffect cfg st] := by
  cases hs with
  | quiet hq => exact .inl fun x hx => quiet_not_echo (hq x hx)
  | ownEcho st hs => exact .inr ⟨hs, st, rfl⟩
  | complete _ _ _ =>
    refine .inl fun x hx => ?_
    rcases ViewState.mem_completionEffects hx with hq | rfl
    · exact quiet_not_echo hq
    · rfl
  | _ => exact .inl (by simp [Effect.isEchoOf])

theorem step_readies (hs : StmtStep cfg I s es s') :
    (∀ x ∈ es, x.isReadyOf view = false) ∨
      (s.readySent = false ∧ ∃ st : ReadyStatement S view, es = [ownReadyEffect cfg st]) ∨
      ∃ b grade, s.readyRefinementCandidate cfg = some (b, grade) ∧ s'.readyMixOpen = false ∧
        es = [.broadcastReady (ViewState.buildReadyOut cfg b.proposal grade)] := by
  cases hs with
  | quiet hq => exact .inl fun x hx => quiet_not_ready (hq x hx)
  | ownEcho st _ => exact .inl (by cases st <;> simp [ownEchoEffect, Effect.isReadyOf])
  | ownReady hs _ => exact .inr (.inl ⟨hs, .graded _ _, rfl⟩)
  | ownNoReady hs => exact .inr (.inl ⟨hs, .noReady, rfl⟩)
  | refine hc _ => exact .inr (.inr ⟨_, _, hc, rfl, rfl⟩)
  | complete _ _ _ =>
    refine .inl fun x hx => ?_
    rcases ViewState.mem_completionEffects hx with hq | rfl
    · exact quiet_not_ready hq
    · rfl
  | _ => exact .inl (by simp [Effect.isReadyOf])

theorem step_votes (hs : StmtStep cfg I s es s') :
    (∀ x ∈ es, x.isVoteOf view = false) ∨
      s.readyForSkipVote cfg = true ∧ es = [.broadcastSkipVote view] := by
  cases hs with
  | quiet hq => exact .inl fun x hx => quiet_not_vote (hq x hx)
  | ownEcho st _ => exact .inl (by cases st <;> simp [ownEchoEffect, Effect.isVoteOf])
  | skipVote h => exact .inr ⟨h, rfl⟩
  | complete _ _ _ =>
    refine .inl fun x hx => ?_
    rcases ViewState.mem_completionEffects hx with hq | rfl
    · exact quiet_not_vote hq
    · rfl
  | _ => exact .inl (by simp [Effect.isVoteOf])

/-! ### What has been broadcast before a response -/

theorem OwnEcho.filter_nil (h : s.OwnEcho cfg out) (hs : s.echoSent = false) :
    out.filter (Effect.isEchoOf view) = [] := by
  obtain ⟨-, -, hno⟩ := h.fresh hs
  rw [List.filter_eq_nil_iff]
  intro x hx hecho
  cases x with
  | broadcastEcho m =>
    have hv : m.proposalOut.view = view := of_decide_eq_true hecho
    exact hno (.graded (Body.of S m.proposalOut hv) m.grade []) ⟨m, hx, rfl, rfl⟩
  | broadcastEchoSkip v =>
    obtain rfl : v = view := of_decide_eq_true hecho
    exact hno .skip hx
  | _ => cases hecho

theorem OwnReady.filter_nil (h : s.OwnReady cfg out) (hs : s.readySent = false) :
    out.filter (Effect.isReadyOf view) = [] := by
  obtain ⟨-, hno⟩ := h.fresh hs
  rw [List.filter_eq_nil_iff]
  intro x hx hready
  cases x with
  | broadcastReady m =>
    have hv : m.proposalOut.view = view := of_decide_eq_true hready
    exact hno (.graded (Body.of S m.proposalOut hv) m.grade) ⟨m, hx, rfl, rfl⟩
  | broadcastNoReady v =>
    obtain rfl : v = view := of_decide_eq_true hready
    exact hno .noReady hx
  | _ => cases hready

omit [LinearOrder D] in
theorem OwnVote.filter_nil (h : s.OwnVote cfg out) (hs : s.stance = .free) :
    out.filter (Effect.isVoteOf view) = [] := by
  rw [List.filter_eq_nil_iff]
  intro x hx hvote
  cases x with
  | broadcastSkipVote v =>
    obtain rfl : v = view := of_decide_eq_true hvote
    rw [h.said hx] at hs
    cases hs
  | _ => cases hvote

/-- A READY-mix that is still open is the only ready-stage broadcast so far. -/
def MixAlone (s : Statements S view) (out : List (Effect K D)) : Prop :=
  s.readyMixOpen = true → (out.filter (Effect.isReadyOf view)).length ≤ 1

theorem readies_of_refinement (h : s.OwnReady cfg out) (hm : s.MixAlone out) {b : Body S view}
    {grade : ReadyGrade} (hc : s.readyRefinementCandidate cfg = some (b, grade)) :
    ∃ r : ReadyOut K D, out.filter (Effect.isReadyOf view) = [.broadcastReady r] ∧
      r.grade = .mix ∧ r.proposalOut = b.proposal := by
  obtain ⟨hopen, hown, -, -⟩ := readyRefinementCandidate_spec hc
  obtain ⟨r, hr, hb, hg⟩ := h.said _ hown
  have hmem : Effect.broadcastReady r ∈ out.filter (Effect.isReadyOf view) := by
    rw [List.mem_filter]
    exact ⟨hr, by simp [Effect.isReadyOf, hb, b.view_eq]⟩
  refine ⟨r, ?_, hg, hb⟩
  obtain ⟨x, hx⟩ := List.length_eq_one_iff.mp
    (le_antisymm (hm hopen) (List.length_pos_of_mem hmem))
  rw [hx] at hmem ⊢
  rw [List.mem_singleton.mp hmem]

end Statements

/-! ### The effects along a step -/

omit [LinearOrder K] [LinearOrder D] in
theorem mem_of_append_eq {x : Effect K D} {out es before after : List (Effect K D)} (hx : x ∉ es)
    (h : out ++ es = before ++ x :: after) : ∃ rest, out = before ++ x :: rest := by
  rcases List.append_eq_append_iff.mp h with ⟨a, -, ha⟩ | ⟨a, ha, hes⟩
  · exact absurd (ha ▸ List.mem_append_right a List.mem_cons_self) hx
  · cases a with
    | nil =>
      rw [List.nil_append] at hes
      exact absurd (hes ▸ List.mem_cons_self) hx
    | cons y a =>
      obtain rfl : x = y := (List.cons.inj hes).1
      exact ⟨a, ha⟩

omit [LinearOrder K] [LinearOrder D] in
theorem filter_append_of_not {P : Effect K D → Bool} {out es : List (Effect K D)}
    (hes : ∀ x ∈ es, P x = false) : (out ++ es).filter P = out.filter P := by
  have hnil : es.filter P = [] := List.filter_eq_nil_iff.mpr fun x hx => by simp [hes x hx]
  rw [List.filter_append, hnil, List.append_nil]

namespace NoEquivocation

variable {cfg : Config K} {I : Inputs S view} {s s' : Statements S view}
  {out es : List (Effect K D)}

omit [LinearOrder K] [LinearOrder D] in
theorem append (h : NoEquivocation view out) (hes : ∀ x ∈ es, x.isAbout view = false) :
    NoEquivocation view (out ++ es) := by
  simp only [Effect.isAbout, Bool.or_eq_false_iff] at hes
  refine ⟨?_, ?_, ?_, fun before after heq => ?_⟩
  · rw [filter_append_of_not fun x hx => (hes x hx).1.1.1]
    exact h.echo
  · rw [filter_append_of_not fun x hx => (hes x hx).1.1.2]
    exact h.ready
  · rw [filter_append_of_not fun x hx => (hes x hx).1.2]
    exact h.vote
  · have hx : Effect.broadcastSkipVote view ∉ es := fun hx => by
      have := (hes _ hx).1.2
      simp [Effect.isVoteOf] at this
    obtain ⟨rest, hout⟩ := mem_of_append_eq hx heq
    exact h.voteAfter before rest hout

theorem echo_of_step (h : NoEquivocation view out) (ho : s.Own cfg I out)
    (hs : StmtStep cfg I s es s') : ((out ++ es).filter (Effect.isEchoOf view)).length ≤ 1 := by
  rcases Statements.step_echoes hs with hes | ⟨hsent, st, rfl⟩
  · rw [filter_append_of_not hes]
    exact h.echo
  · rw [List.filter_append, ho.echo.filter_nil hsent, List.nil_append]
    exact List.length_filter_le _ _

theorem ready_of_step (h : NoEquivocation view out) (ho : s.Own cfg I out)
    (hm : s.MixAlone out) (hs : StmtStep cfg I s es s') :
    ReadyResponses view ((out ++ es).filter (Effect.isReadyOf view)) ∧ s'.MixAlone (out ++ es) := by
  rcases Statements.step_readies hs with hes | ⟨hsent, st, rfl⟩ | ⟨b, grade, hc, hclosed, rfl⟩
  · rw [Statements.MixAlone, filter_append_of_not hes]
    refine ⟨h.ready, fun hopen => ?_⟩
    cases hsent : s.readySent with
    | false => simp [ho.ready.filter_nil hsent]
    | true =>
      refine hm (Bool.eq_true_of_not_eq_false fun hfalse => ?_)
      rw [hs.grows.mixClosed hsent hfalse] at hopen
      cases hopen
  · rw [Statements.MixAlone, List.filter_append, ho.ready.filter_nil hsent, List.nil_append]
    refine ⟨?_, fun _ => List.length_filter_le _ _⟩
    cases st with
    | graded b grade =>
      simp only [Statements.ownReadyEffect, List.filter_cons, List.filter_nil, Effect.isReadyOf,
        Statements.buildReadyOut_proposalOut, b.view_eq, decide_true, if_true]
      exact .ready _
    | noReady => simpa [Statements.ownReadyEffect, Effect.isReadyOf] using ReadyResponses.noReady
  · obtain ⟨r, hr, hmix, hp⟩ := Statements.readies_of_refinement ho.ready hm hc
    obtain ⟨-, -, -, hg⟩ := Statements.readyRefinementCandidate_spec hc
    refine ⟨?_, fun hopen => ?_⟩
    · rw [List.filter_append, hr]
      simp only [List.filter_cons, List.filter_nil, Effect.isReadyOf,
        Statements.buildReadyOut_proposalOut, b.view_eq, decide_true, if_true]
      refine .refined r _ hmix (by rw [Statements.buildReadyOut_proposalOut, hp]) ?_
      rw [Statements.buildReadyOut_grade]
      cases grade with
      | zero => exact .inl rfl
      | one => exact .inr rfl
      | mix => exact absurd rfl hg
    · rw [hclosed] at hopen
      cases hopen

theorem vote_of_step (h : NoEquivocation view out) (ho : s.Own cfg I out)
    (hs : StmtStep cfg I s es s') :
    ((out ++ es).filter (Effect.isVoteOf view)).length ≤ 1 ∧
      ∀ before after, out ++ es = before ++ .broadcastSkipVote view :: after →
        .broadcastNoReady view ∈ before := by
  rcases Statements.step_votes hs with hes | ⟨hv, rfl⟩
  · rw [filter_append_of_not hes]
    refine ⟨h.vote, fun before after heq => ?_⟩
    have hx : Effect.broadcastSkipVote view ∉ es := fun hx => by
      have := hes _ hx
      simp [Effect.isVoteOf] at this
    obtain ⟨rest, hout⟩ := mem_of_append_eq hx heq
    exact h.voteAfter before rest hout
  · obtain ⟨hfree, hno, -⟩ := Statements.readyForSkipVote_spec hv
    have hnil := ho.vote.filter_nil hfree
    refine ⟨?_, fun before after heq => ?_⟩
    · rw [List.filter_append, hnil, List.nil_append]
      exact List.length_filter_le _ _
    · -- The vote is the last effect: everything before it was there.
      have hold : Effect.broadcastSkipVote view ∉ out := fun hx => by
        have : Effect.broadcastSkipVote view ∈ out.filter (Effect.isVoteOf view) :=
          List.mem_filter.mpr ⟨hx, by simp [Effect.isVoteOf]⟩
        rw [hnil] at this
        cases this
      rcases List.append_eq_append_iff.mp heq with ⟨a, rfl, -⟩ | ⟨a, rfl, ha⟩
      · exact List.mem_append_left _ (ho.ready.said _ hno)
      · cases a with
        | nil =>
          rw [List.append_nil] at ho
          exact ho.ready.said _ hno
        | cons y a =>
          obtain rfl : Effect.broadcastSkipVote view = y := (List.cons.inj ha).1
          exact absurd (List.mem_append_right _ List.mem_cons_self) hold

theorem of_step (h : NoEquivocation view out) (ho : s.Own cfg I out) (hm : s.MixAlone out)
    (hs : StmtStep cfg I s es s') : NoEquivocation view (out ++ es) where
  echo := h.echo_of_step ho hs
  ready := (h.ready_of_step ho hm hs).1
  vote := (h.vote_of_step ho hs).1
  voteAfter := (h.vote_of_step ho hs).2

end NoEquivocation

/-! ### Runs -/

namespace AgbParty

variable {cfg : Config K}

/-- No view is answered twice, and an open READY-mix is alone. -/
def Once (p : AgbParty S) : Prop :=
  ∀ view, NoEquivocation view p.out ∧
    (p.engine.isPruned view = false → (p.engine.state view).toStatements.MixAlone p.out)

/-- Every atomic step and every pruning keeps that no view is answered twice. -/
theorem once_kept (cfg : Config K) : Kept cfg (Once (S := S)) where
  step p I es e' hI ho h hs := by
    obtain ⟨view, hp, hstep, hne, hmin⟩ := hs
    intro u
    obtain ⟨hno, hmix⟩ := h u
    by_cases hu : u = view
    · subst hu
      exact ⟨hno.of_step (ho u hp) (hmix hp) hstep,
        fun _ => (hno.ready_of_step (ho u hp) (hmix hp) hstep).2⟩
    · have hes := hstep.isAbout_of_ne hu
      refine ⟨hno.append hes, fun hpr => ?_⟩
      have hpr' : p.engine.isPruned u = false := by
        unfold AgbEngine.isPruned at hpr ⊢
        rwa [hmin] at hpr
      rw [Statements.MixAlone, hne u hu, filter_append_of_not]
      · exact hmix hpr'
      · intro x hx
        have := hes x hx
        simp only [Effect.isAbout, Bool.or_eq_false_iff] at this
        exact this.1.1.2
  gc p floor h := by
    intro u
    refine ⟨(h u).1, fun hpr => ?_⟩
    obtain ⟨hstate, hpr'⟩ := AgbEngine.state_gcBelow hpr
    rw [hstate]
    exact (h u).2 hpr'

/-- A correct party in whose name nobody else speaks never equivocates: whatever else reaches it
and whichever timers fire, it broadcasts at most one echo-stage response to a view, at most one
initial ready-stage response, at most one READY refinement of its own READY-mix, and at most one
skip vote, after its own NO-READY. -/
theorem no_equivocation (cfg : Config K) {cs : List (AgbCall K D)}
    (hcs : ({} : AgbParty S).Authentic cfg cs) (view : ℕ) :
    NoEquivocation view (({} : AgbParty S).run cfg cs).out := by
  have hinit : Once ({} : AgbParty S) := fun view =>
    ⟨⟨Nat.zero_le _, .silent, Nat.zero_le _, fun before after h => by simp at h⟩, nofun⟩
  exact ((invariant (once_kept cfg) hcs (own_init cfg) hinit).2 view).1

/-- Party 0 of four answers view 1 with a positive echo and a READY-mix, which the last echo
refines, and view 2 with an echo-skip, a NO-READY and a skip vote. -/
def answerCalls : List (AgbCall (Fin 4) ℕ) :=
  let p : ViewProposal (Fin 4) ℕ := ⟨1, [], [], none⟩
  let echo (q : Fin 4) (grade : ℕ) : AgbCall (Fin 4) ℕ :=
    .echo (.single ⟨p, grade, q, none, none⟩)
  [.enter .complete 1 0, .propose .complete 0 (.single p) 0, echo 1 0, echo 2 1, echo 3 1,
    .enter .complete 2 0, .echoSkip 2 1, .echoSkip 2 2, .refuseUnproposedView 2, .readyTimer 2]

theorem no_equivocation_answerCalls :
    let out := (({} : AgbParty (.numbered 4)).run (.numbered 4 0) answerCalls).out
    ((out.filter (Effect.isReadyOf 1)).length = 2 ∧ .broadcastSkipVote 2 ∈ out) ∧
      NoEquivocation 1 out ∧ NoEquivocation 2 out := by
  have hcs : ({} : AgbParty (.numbered 4)).Authentic (.numbered 4 0) answerCalls := by
    simp [answerCalls, Authentic, AgbCall.Authentic, Config.numbered, EchoOut.sender]
  exact ⟨by decide +kernel, no_equivocation _ hcs 1, no_equivocation _ hcs 2⟩

/-- A NO-READY in the name of party 0, and three echo-skips. -/
def forgedNoReady : List (AgbCall (Fin 4) ℕ) := .noready 1 0 :: [1, 2, 3].map (.echoSkip 1)

/-- Where links are not authenticated, a NO-READY in the name of the party is counted as its own:
it votes to skip a view to which it has sent no NO-READY. -/
theorem forged_noready_votes :
    let out := (({} : AgbParty (.numbered 4)).run (.numbered 4 0) forgedNoReady).out
    .broadcastSkipVote 1 ∈ out ∧ .broadcastNoReady 1 ∉ out := by
  decide +kernel

end AgbParty

end Vantage
