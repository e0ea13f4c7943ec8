import Vantage.Agb.Own

/-!
# A party's own READY and skip vote

* `OwnReady`: one ready-stage response, up to one refinement of a READY-mix, and an echo
  quorum behind every graded READY;
* `OwnVote`: a skip vote rests on the own NO-READY and on `n - f` echo-skips;
* `OwnReady.of_step`, `OwnVote.of_step`: every atomic step keeps them;
* `own_ready_final`: a closed READY never changes again.
-/

namespace Vantage

variable {K D : Type} [LinearOrder K] [LinearOrder D] {S : Session K D} {view : ℕ}

namespace Statements

variable {cfg : Config K} {I : Inputs S view} {s s' : Statements S view}
  {out es : List (Effect K D)} {grade : ReadyGrade} {b : Body S view}

/-- An echo quorum for a body, homogeneous if the grade is. -/
def EchoQuorum (cfg : Config K) (s : Statements S view) (b : Body S view) (grade : ReadyGrade) :
    Prop :=
  ∃ t, s.echoTallies.lookup b.digest = some t ∧ cfg.quorum ≤ t.gradeOne + t.gradeZero ∧
    (grade = .one → cfg.quorum ≤ t.gradeOne) ∧ (grade = .zero → cfg.quorum ≤ t.gradeZero)

theorem EchoQuorum.mono (h : s.EchoQuorum cfg b grade) (hg : s.Grows s') :
    s'.EchoQuorum cfg b grade := by
  obtain ⟨t, ht, hq, h1, h0⟩ := h
  obtain ⟨t', ht', -, hone, hzero, -⟩ := hg.echoTally _ t ht
  exact ⟨t', ht', by omega, fun h => (h1 h).trans hone, fun h => (h0 h).trans hzero⟩

/-- The own READY is unique up to one refinement, recorded as sent, and backed by echoes. -/
structure OwnReady (cfg : Config K) (s : Statements S view) (out : List (Effect K D)) :
    Prop where
  sent : s.readySent = true ↔ cfg.name ∈ s.readyStatements
  recorded : ∀ st, SaidReady out st →
    ∃ st', s.readyStatements.lookup cfg.name = some st' ∧ ReadyUpTo st st'
  said : ∀ st, s.readyStatements.lookup cfg.name = some st → SaidReady out st
  quorum : ∀ b grade, s.readyStatements.lookup cfg.name = some (.graded b grade) →
    s.EchoQuorum cfg b grade

/-- A skip vote was cast after the own NO-READY and `n - f` echo-skips. -/
structure OwnVote (cfg : Config K) (s : Statements S view) (out : List (Effect K D)) :
    Prop where
  voted : s.stance = .skipVoted → s.readyStatements.lookup cfg.name = some .noReady ∧
    cfg.quorumParties ≤ s.echoSkipParties
  said : Effect.broadcastSkipVote view ∈ out → s.stance = .skipVoted
  counted : cfg.name ∈ s.skipVoteStatements → Effect.broadcastSkipVote view ∈ out

/-! ### What the own broadcast says -/

omit [LinearOrder K] [LinearOrder D] in
@[simp] theorem buildReadyOut_proposalOut (cfg : Config K) (p : ProposalOut K D)
    (grade : ReadyGrade) : (ViewState.buildReadyOut cfg p grade).proposalOut = p := by
  cases p <;> rfl

omit [LinearOrder K] [LinearOrder D] in
@[simp] theorem buildReadyOut_grade (cfg : Config K) (p : ProposalOut K D)
    (grade : ReadyGrade) : (ViewState.buildReadyOut cfg p grade).grade = grade := by
  cases p <;> rfl

def ownReadyEffect (cfg : Config K) (st : ReadyStatement S view) : Effect K D :=
  match st with
  | .graded b grade => .broadcastReady (ViewState.buildReadyOut cfg b.proposal grade)
  | .noReady => .broadcastNoReady view

section

omit [LinearOrder K] [LinearOrder D]

theorem saidReady_ownReadyEffect (cfg : Config K) {st st' : ReadyStatement S view}
    (h : SaidReady [ownReadyEffect cfg st] st') : st' = st := by
  cases st with
  | graded b grade =>
    cases st' with
    | graded b' grade' =>
      obtain ⟨e, he, hb, hg⟩ := h
      obtain rfl : e = _ := Effect.broadcastReady.inj (List.mem_singleton.mp he)
      rw [buildReadyOut_proposalOut] at hb
      rw [buildReadyOut_grade] at hg
      rw [Body.ext_proposal hb, hg]
    | noReady => exact absurd (List.mem_singleton.mp h) (by simp [ownReadyEffect])
  | noReady =>
    cases st' with
    | graded b' grade' =>
      obtain ⟨e, he, -⟩ := h
      exact absurd (List.mem_singleton.mp he) (by simp [ownReadyEffect])
    | noReady => rfl

theorem saidReady_self (cfg : Config K) (out : List (Effect K D)) (st : ReadyStatement S view) :
    SaidReady (out ++ [ownReadyEffect cfg st]) st := by
  cases st with
  | graded b grade =>
    exact ⟨_, List.mem_append_right _ (List.mem_singleton.mpr rfl), by simp, by simp⟩
  | noReady => exact List.mem_append_right _ (List.mem_singleton.mpr rfl)

theorem saidReady_split {st : ReadyStatement S view} (h : SaidReady (out ++ es) st) :
    SaidReady out st ∨ SaidReady es st := by
  cases st with
  | graded b grade =>
    obtain ⟨e, he, hb⟩ := h
    exact (List.mem_append.mp he).imp (fun he => ⟨e, he, hb⟩) fun he => ⟨e, he, hb⟩
  | noReady => exact List.mem_append.mp h

end

/-! ### Candidates rest on echo quorums -/

theorem readyCandidate_quorum (hx : s.Exact cfg) (h : s.readyCandidate cfg = some (b, grade)) :
    s.EchoQuorum cfg b grade := by
  obtain ⟨d, -, hd⟩ := List.exists_of_findSome?_eq_some h
  obtain ⟨t, ht, hc⟩ := Option.bind_eq_some_iff.mp hd
  split at hc
  · next hcand =>
    simp only [isReadyCandidate, Bool.and_eq_true, decide_eq_true_eq] at hcand
    obtain ⟨rfl, rfl⟩ := Prod.mk.inj (Option.some.inj hc)
    refine ⟨t, by rwa [hx.echoBody d t ht], hcand.1, fun hg => ?_, fun hg => ?_⟩
    all_goals
      unfold quorumGrade at hg
      split at hg
    · assumption
    · split at hg <;> cases hg
    · cases hg
    · split at hg
      · assumption
      · cases hg
  · cases hc

theorem readyRefinementCandidate_spec (h : s.readyRefinementCandidate cfg = some (b, grade)) :
    s.readyMixOpen = true ∧ s.readyStatements.lookup cfg.name = some (.graded b .mix) ∧
      s.EchoQuorum cfg b grade ∧ grade ≠ .mix := by
  unfold readyRefinementCandidate at h
  split at h
  · next hopen =>
    split at h
    · next b' hb =>
      obtain ⟨t, ht, hc⟩ := Option.bind_eq_some_iff.mp h
      split at hc
      · next hq =>
        obtain ⟨rfl, rfl⟩ := Prod.mk.inj (Option.some.inj hc)
        exact ⟨hopen, hb, ⟨t, ht, by omega, fun _ => hq, nofun⟩, nofun⟩
      · split at hc
        · next hq =>
          obtain ⟨rfl, rfl⟩ := Prod.mk.inj (Option.some.inj hc)
          exact ⟨hopen, hb, ⟨t, ht, by omega, nofun, fun _ => hq⟩, nofun⟩
        · cases hc
    · cases h
  · cases h

/-! ### The own READY along a step -/

theorem OwnReady.congr (h : s.OwnReady cfg out) (hr : s'.readyPart = s.readyPart)
    (hg : s.Grows s') : s'.OwnReady cfg out := by
  simp only [readyPart, Prod.mk.injEq] at hr
  obtain ⟨hsent, hstmts⟩ := hr
  refine ⟨?_, ?_, ?_, ?_⟩
  · rw [hstmts, hsent]; exact h.sent
  · rw [hstmts]; exact h.recorded
  · rw [hstmts]; exact h.said
  · rw [hstmts]
    exact fun b grade hb => (h.quorum b grade hb).mono hg

theorem OwnReady.append (h : s.OwnReady cfg out) (hes : ∀ x ∈ es, x.isReadyOf view = false) :
    s.OwnReady cfg (out ++ es) :=
  { h with
    recorded := fun st hst => h.recorded st (saidReady_of_append hes hst)
    said := fun st hst => (h.said st hst).append es }

theorem OwnReady.frame (h : s.OwnReady cfg out) (hr : s'.readyPart = s.readyPart)
    (hg : s.Grows s') (hes : ∀ x ∈ es, x.isReadyOf view = false) :
    s'.OwnReady cfg (out ++ es) :=
  (h.congr hr hg).append hes

theorem OwnReady.fresh (h : s.OwnReady cfg out) (hs : s.readySent = false) :
    s.readyStatements.lookup cfg.name = none ∧
      ∀ st : ReadyStatement S view, ¬SaidReady out st := by
  have hl : s.readyStatements.lookup cfg.name = none := by
    rw [AList.lookup_eq_none, ← h.sent, hs]
    exact Bool.false_ne_true
  refine ⟨hl, fun st hst => ?_⟩
  obtain ⟨_, ho, _⟩ := h.recorded st hst
  rw [hl] at ho
  cases ho

theorem countReadyStatement_readyPart {q : K} {st : ReadyStatement S view}
    (h : s.countReadyStatement cfg q st = some s') :
    s'.readyPart = (s.readySent, s.readyStatements.insert q st) := by
  rcases countReadyStatement_cases h with ⟨-, rfl⟩ | ⟨_, _, _, _, -, rfl, -, -, -, rfl⟩
  · cases st <;> rfl
  · rfl

/-- The own name is never counted from outside: what was sent is recorded, and what was
refined is not refined back. -/
theorem OwnReady.ne_name (h : s.OwnReady cfg out) (hI : I.Echoed cfg out) {q : K}
    {st : ReadyStatement S view} (hst : I.ready q st)
    (hc : s.countReadyStatement cfg q st = some s') : q ≠ cfg.name := by
  rintro rfl
  obtain ⟨st', ho, hup⟩ := h.recorded st (hI.ready st hst)
  rcases countReadyStatement_cases hc with ⟨hn, -⟩ | ⟨b₀, b, grade, -, hn, rfl, -, hg, -⟩
  · rw [hn] at ho
    cases ho
  · rw [hn] at ho
    cases ho
    rcases hup with heq | hr
    · cases heq
      exact hg rfl
    · obtain ⟨_, _, _, h1, -⟩ := isRefinement_iff.mp hr
      cases h1
      exact hg rfl

theorem OwnReady.countReadyStatement (h : s.OwnReady cfg out) {q : K} (hq : q ≠ cfg.name)
    {st : ReadyStatement S view} (hc : s.countReadyStatement cfg q st = some s') :
    s'.OwnReady cfg out := by
  have hp := countReadyStatement_readyPart hc
  simp only [readyPart, Prod.mk.injEq] at hp
  obtain ⟨hsent, hstmts⟩ := hp
  have hl : s'.readyStatements.lookup cfg.name = s.readyStatements.lookup cfg.name := by
    rw [hstmts, AList.lookup_insert_ne (Ne.symm hq)]
  refine ⟨?_, ?_, ?_, ?_⟩
  · rw [hsent, h.sent, hstmts, AList.mem_insert]
    exact ⟨.inr, fun hm => hm.resolve_left (Ne.symm hq)⟩
  · rw [hl]; exact h.recorded
  · rw [hl]; exact h.said
  · rw [hl]
    exact fun b grade hb => (h.quorum b grade hb).mono (countReadyStatement_grows hc)

theorem OwnReady.respondReady (h : s.OwnReady cfg out) (hs : s.readySent = false)
    {st : ReadyStatement S view}
    (hq : ∀ b grade, st = .graded b grade → s.EchoQuorum cfg b grade) :
    (s.respondReady cfg st).OwnReady cfg (out ++ [ownReadyEffect cfg st]) := by
  obtain ⟨hn, hno⟩ := h.fresh hs
  have hp : (s.respondReady cfg st).readyPart =
      (true, s.readyStatements.insert cfg.name st) := by
    unfold Statements.respondReady countOwnReady Statements.countReadyStatement
    dsimp only
    rw [hn]
    cases st <;> rfl
  simp only [readyPart, Prod.mk.injEq] at hp
  obtain ⟨hsent, hstmts⟩ := hp
  have hl : (s.respondReady cfg st).readyStatements.lookup cfg.name = some st := by
    rw [hstmts, AList.lookup_insert]
  refine ⟨?_, fun st' hst' => ?_, fun st' hst' => ?_, fun b grade hb => ?_⟩
  · rw [hsent, hstmts, AList.mem_insert]
    exact ⟨fun _ => .inl rfl, fun _ => rfl⟩
  · rcases saidReady_split hst' with h' | h'
    · exact absurd h' (hno st')
    · exact ⟨st, hl, .inl (saidReady_ownReadyEffect cfg h').symm⟩
  · rw [hl] at hst'
    cases hst'
    exact saidReady_self cfg out st
  · rw [hl] at hb
    exact (hq b grade (Option.some.inj hb)).mono (respondReady_grows hs)

theorem OwnReady.refine (h : s.OwnReady cfg out)
    (hc : s.readyRefinementCandidate cfg = some (b, grade))
    (hs : s.countReadyStatement cfg cfg.name (.graded b grade) = some s') :
    s'.OwnReady cfg (out ++ [ownReadyEffect cfg (.graded b grade)]) := by
  obtain ⟨-, hmix, hq, hg⟩ := readyRefinementCandidate_spec hc
  have hp := countReadyStatement_readyPart hs
  simp only [readyPart, Prod.mk.injEq] at hp
  obtain ⟨hsent, hstmts⟩ := hp
  have hl : s'.readyStatements.lookup cfg.name = some (.graded b grade) := by
    rw [hstmts, AList.lookup_insert]
  refine ⟨?_, fun st hst => ⟨_, hl, ?_⟩, fun st hst => ?_, fun b' grade' hb => ?_⟩
  · have hm : cfg.name ∈ s.readyStatements := AList.lookup_isSome.mp (by rw [hmix]; rfl)
    rw [hsent, h.sent, hstmts, AList.mem_insert]
    exact ⟨.inr, fun _ => hm⟩
  · rcases saidReady_split hst with h' | h'
    · obtain ⟨st', ho, hup⟩ := h.recorded st h'
      rw [hmix] at ho
      cases ho
      exact hup.trans (.inr (isRefinement_iff.mpr ⟨b, b, grade, rfl, rfl, rfl, hg⟩))
    · exact .inl (saidReady_ownReadyEffect cfg h').symm
  · rw [hl] at hst
    cases hst
    exact saidReady_self cfg out _
  · rw [hl] at hb
    cases hb
    exact hq.mono (countReadyStatement_grows hs)

omit [LinearOrder K] [LinearOrder D] in
theorem quiet_not_ready {x : Effect K D} (h : x.isQuiet = true) : x.isReadyOf view = false := by
  cases x <;> first | rfl | cases h

theorem OwnReady.of_step (h : s.OwnReady cfg out) (hx : s.Exact cfg) (hI : I.Echoed cfg out)
    (hs : StmtStep cfg I s es s') : s'.OwnReady cfg (out ++ es) := by
  have hg := hs.grows
  cases hs with
  | quiet hq => exact h.append fun x hx => quiet_not_ready (hq x hx)
  | recvEcho q st _ _ => exact h.frame (enterEcho_parts cfg q st s).1 hg (by simp)
  | ownEcho st _ =>
    exact h.frame (respondEcho_parts st s).1 hg
      (by cases st <;> simp [ownEchoEffect, Effect.isReadyOf])
  | releaseLock => exact h.frame (recheckLockRelease_parts s).1 hg (by simp)
  | ownReady hs hc =>
    refine h.respondReady hs fun b grade hb => ?_
    cases hb
    exact readyCandidate_quorum hx hc
  | refine hc hs =>
    exact (h.refine hc hs).congr rfl { Grows.refl _ with mixClosed := fun _ _ => rfl }
  | closeMix deadline => exact h.frame (finalizeMixIfClosed_parts cfg deadline s).2.1 hg (by simp)
  | ownNoReady hs =>
    refine h.respondReady hs fun b grade hb => ?_
    cases hb
  | recvReady q st hst hs =>
    rw [List.append_nil]
    exact h.countReadyStatement (h.ne_name hI hst hs) hs
  | complete _ _ _ =>
    refine h.frame rfl hg fun x hx => ?_
    rcases ViewState.mem_completionEffects hx with hq | rfl
    · exact quiet_not_ready hq
    · rfl
  | sealView _ _ => exact h.frame rfl hg (by simp [Effect.isReadyOf])
  | skipVote _ => exact h.frame rfl hg (by simp [Effect.isReadyOf])
  | recvSkipVote q _ => exact h.frame rfl hg (by simp)
  | claimNonSkip _ => exact h.frame rfl hg (by simp)

theorem own_ready_final (h : s.OwnReady cfg out) (hI : I.Echoed cfg out)
    (hs : StmtStep cfg I s es s') (hr : s.readySent = true) (hc : s.readyMixOpen = false) :
    s'.readyStatements.lookup cfg.name = s.readyStatements.lookup cfg.name := by
  have hpart : s'.readyPart = s.readyPart →
      s'.readyStatements.lookup cfg.name = s.readyStatements.lookup cfg.name := by
    intro hp
    rw [show s'.readyStatements = s.readyStatements from congrArg Prod.snd hp]
  cases hs with
  | quiet _ => rfl
  | recvEcho q st _ _ => exact hpart (enterEcho_parts cfg q st s).1
  | ownEcho st _ => exact hpart (respondEcho_parts st s).1
  | releaseLock => exact hpart (recheckLockRelease_parts s).1
  | ownReady hs _ =>
    rw [hr] at hs
    cases hs
  | refine hcand _ =>
    rw [(readyRefinementCandidate_spec hcand).1] at hc
    cases hc
  | closeMix deadline => exact hpart (finalizeMixIfClosed_parts cfg deadline s).2.1
  | ownNoReady hs =>
    rw [hr] at hs
    cases hs
  | recvReady q st hst hs =>
    rw [show s'.readyStatements = _ from congrArg Prod.snd (countReadyStatement_readyPart hs),
      AList.lookup_insert_ne (Ne.symm (h.ne_name hI hst hs))]
  | complete _ _ _ => rfl
  | sealView _ _ => rfl
  | skipVote _ => rfl
  | recvSkipVote q _ => rfl
  | claimNonSkip _ => rfl

/-! ### The skip vote along a step -/

theorem OwnVote.congr (h : s.OwnVote cfg out) (hv : s'.votePart = s.votePart)
    (hg : s.Grows s') : s'.OwnVote cfg out := by
  simp only [votePart, Prod.mk.injEq] at hv
  obtain ⟨hstance, hvotes⟩ := hv
  refine ⟨fun hs => ?_, ?_, ?_⟩
  · rw [hstance] at hs
    obtain ⟨hno, hq⟩ := h.voted hs
    obtain ⟨st', hst', hup⟩ := hg.ready _ _ hno
    refine ⟨?_, hq.trans hg.echoSkip⟩
    rcases hup with rfl | hr
    · exact hst'
    · cases hr
  · rw [hstance]; exact h.said
  · rw [hvotes]; exact h.counted

omit [LinearOrder D] in
theorem OwnVote.append (h : s.OwnVote cfg out) (hes : ∀ x ∈ es, x.isVoteOf view = false) :
    s.OwnVote cfg (out ++ es) :=
  { h with
    said := by
      intro hm
      rcases List.mem_append.mp hm with hm | hm
      · exact h.said hm
      · have := hes _ hm
        simp [Effect.isVoteOf] at this
    counted := fun hm => List.mem_append_left _ (h.counted hm) }

theorem OwnVote.frame (h : s.OwnVote cfg out) (hv : s'.votePart = s.votePart)
    (hg : s.Grows s') (hes : ∀ x ∈ es, x.isVoteOf view = false) : s'.OwnVote cfg (out ++ es) :=
  (h.congr hv hg).append hes

omit [LinearOrder K] [LinearOrder D] in
theorem quiet_not_vote {x : Effect K D} (h : x.isQuiet = true) : x.isVoteOf view = false := by
  cases x <;> first | rfl | cases h

omit [LinearOrder D] in
theorem readyForSkipVote_spec (h : s.readyForSkipVote cfg = true) :
    s.stance = .free ∧ s.readyStatements.lookup cfg.name = some .noReady ∧
      cfg.quorumParties ≤ s.echoSkipParties := by
  simp only [readyForSkipVote, Bool.and_eq_true, decide_eq_true_eq] at h
  obtain ⟨⟨⟨hstance, hno⟩, -⟩, hq⟩ := h
  refine ⟨hstance, ?_, hq⟩
  split at hno
  · assumption
  · cases hno

theorem OwnVote.of_step (h : s.OwnVote cfg out) (hI : I.Echoed cfg out)
    (hs : StmtStep cfg I s es s') : s'.OwnVote cfg (out ++ es) := by
  have hg := hs.grows
  cases hs with
  | quiet hq => exact h.append fun x hx => quiet_not_vote (hq x hx)
  | recvEcho q st _ _ => exact h.frame (enterEcho_parts cfg q st s).2 hg (by simp)
  | ownEcho st _ =>
    exact h.frame (respondEcho_parts st s).2 hg
      (by cases st <;> simp [ownEchoEffect, Effect.isVoteOf])
  | releaseLock => exact h.frame (recheckLockRelease_parts s).2 hg (by simp)
  | ownReady _ _ => exact h.frame (respondReady_parts _ s).2 hg (by simp [Effect.isVoteOf])
  | refine _ hs => exact h.frame (countReadyStatement_parts hs).2 hg (by simp [Effect.isVoteOf])
  | closeMix deadline => exact h.frame (finalizeMixIfClosed_parts cfg deadline s).2.2 hg (by simp)
  | ownNoReady _ => exact h.frame (respondReady_parts _ s).2 hg (by simp [Effect.isVoteOf])
  | recvReady q st _ hs => exact h.frame (countReadyStatement_parts hs).2 hg (by simp)
  | complete _ _ _ =>
    refine h.frame rfl hg fun x hx => ?_
    rcases ViewState.mem_completionEffects hx with hq | rfl
    · exact quiet_not_vote hq
    · rfl
  | sealView _ _ => exact h.frame rfl hg (by simp [Effect.isVoteOf])
  | skipVote hv =>
    have hm : Effect.broadcastSkipVote view ∈ out ++ [Effect.broadcastSkipVote view] :=
      List.mem_append_right _ (List.mem_singleton.mpr rfl)
    exact ⟨fun _ => (readyForSkipVote_spec hv).2, fun _ => rfl, fun _ => hm⟩
  | recvSkipVote q hq =>
    rw [List.append_nil]
    refine { h with counted := fun hm => ?_ }
    rcases Finset.mem_insert.mp hm with rfl | hm
    · exact hI.skipVote hq
    · exact h.counted hm
  | claimNonSkip hf =>
    rw [List.append_nil]
    refine { h with voted := fun hv => ?_, said := fun hm => ?_ }
    · cases hv
    · rw [h.said hm] at hf
      cases hf

end Statements

end Vantage
