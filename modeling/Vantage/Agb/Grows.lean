import Vantage.Agb.Refine

/-!
# Nothing that was counted is lost

`Statements.Grows s s'` says that everything counted in `s` is still counted in `s'`: echo
statements stay, ready statements stay or are refined once, tallies and votes only grow, a
lock is never replaced or reactivated, a claimed stance and a seal are final.  Every atomic
step, and so every run, satisfies it.
-/

namespace Vantage

variable {K D : Type} [LinearOrder K] [LinearOrder D] {S : Session K D} {view : ℕ}
  {s s' : Statements S view}

namespace Statements

/-- The same ready statement, or a homogeneous refinement of a READY-mix. -/
def ReadyUpTo (st st' : ReadyStatement S view) : Prop := st' = st ∨ isRefinement st st' = true

/-- Everything counted in `s` is still counted in `s'`. -/
structure Grows (s s' : Statements S view) : Prop where
  echo : ∀ q st, s.echoStatements.lookup q = some st → s'.echoStatements.lookup q = some st
  echoTally : ∀ d t, s.echoTallies.lookup d = some t → ∃ t', s'.echoTallies.lookup d = some t' ∧
    t'.body = t.body ∧ t.gradeOne ≤ t'.gradeOne ∧ t.gradeZero ≤ t'.gradeZero ∧
    t.gradeOneParties ≤ t'.gradeOneParties
  echoSkip : s.echoSkipParties ≤ s'.echoSkipParties
  nonmatching : ∀ d, s.nonmatchingEchoCount d ≤ s'.nonmatchingEchoCount d
  ready : ∀ q st, s.readyStatements.lookup q = some st →
    ∃ st', s'.readyStatements.lookup q = some st' ∧ ReadyUpTo st st'
  readyTally : ∀ d t, s.readyTallies.lookup d = some t →
    ∃ t', s'.readyTallies.lookup d = some t' ∧ t'.body = t.body ∧ t.any ≤ t'.any ∧
      t.gradeOne ≤ t'.gradeOne ∧ t.gradeZero ≤ t'.gradeZero
  skipVotes : s.skipVoteStatements ⊆ s'.skipVoteStatements
  lock : ∀ l, s.lock = some l → ∃ l', s'.lock = some l' ∧ l'.body = l.body ∧
    (l'.active = true → l.active = true)
  stance : s.stance ≠ .free → s'.stance = s.stance
  sealed : ∀ o, s.sealed = some o → s'.sealed = some o
  mixClosed : s.readySent = true → s.readyMixOpen = false → s'.readyMixOpen = false
  readySent : s.readySent = true → s'.readySent = true

omit [LinearOrder K] in
theorem isRefinement_iff {st st' : ReadyStatement S view} :
    isRefinement st st' = true ↔
      ∃ b b' grade, st = .graded b .mix ∧ st' = .graded b' grade ∧ b.digest = b'.digest ∧
        grade ≠ .mix := by
  constructor
  · intro h
    unfold isRefinement at h
    split at h
    · next b b' grade =>
      simp only [Bool.and_eq_true, decide_eq_true_eq] at h
      exact ⟨b, b', grade, rfl, rfl, h.1, h.2⟩
    · cases h
  · rintro ⟨b, b', grade, rfl, rfl, hd, hg⟩
    simp [isRefinement, hd, hg]

omit [LinearOrder K] in
/-- A refined statement is not a READY-mix, so it is refined at most once. -/
theorem ReadyUpTo.trans {a b c : ReadyStatement S view} (h : ReadyUpTo a b)
    (h' : ReadyUpTo b c) : ReadyUpTo a c := by
  rcases h with rfl | h
  · exact h'
  rcases h' with rfl | h'
  · exact .inr h
  · obtain ⟨-, b₁, grade, -, rfl, -, hg⟩ := isRefinement_iff.mp h
    obtain ⟨b₂, -, -, hb, -⟩ := isRefinement_iff.mp h'
    cases hb
    exact absurd rfl hg

theorem Grows.refl (s : Statements S view) : s.Grows s where
  echo _ _ h := h
  echoTally _ t h := ⟨t, h, rfl, le_rfl, le_rfl, le_rfl⟩
  echoSkip := le_rfl
  nonmatching _ := le_rfl
  ready _ st h := ⟨st, h, .inl rfl⟩
  readyTally _ t h := ⟨t, h, rfl, le_rfl, le_rfl, le_rfl⟩
  skipVotes := Finset.Subset.refl _
  lock l h := ⟨l, h, rfl, id⟩
  stance _ := rfl
  sealed _ h := h
  mixClosed _ h := h
  readySent h := h

theorem Grows.trans {s s' s'' : Statements S view} (h : s.Grows s') (h' : s'.Grows s'') :
    s.Grows s'' where
  echo q st hs := h'.echo q st (h.echo q st hs)
  echoTally d t ht := by
    obtain ⟨t1, h1, hb1, ho1, hz1, hp1⟩ := h.echoTally d t ht
    obtain ⟨t2, h2, hb2, ho2, hz2, hp2⟩ := h'.echoTally d t1 h1
    exact ⟨t2, h2, hb2.trans hb1, ho1.trans ho2, hz1.trans hz2, hp1.trans hp2⟩
  echoSkip := h.echoSkip.trans h'.echoSkip
  nonmatching d := (h.nonmatching d).trans (h'.nonmatching d)
  ready q st hs := by
    obtain ⟨st1, h1, hu1⟩ := h.ready q st hs
    obtain ⟨st2, h2, hu2⟩ := h'.ready q st1 h1
    exact ⟨st2, h2, hu1.trans hu2⟩
  readyTally d t ht := by
    obtain ⟨t1, h1, hb1, ha1, ho1, hz1⟩ := h.readyTally d t ht
    obtain ⟨t2, h2, hb2, ha2, ho2, hz2⟩ := h'.readyTally d t1 h1
    exact ⟨t2, h2, hb2.trans hb1, ha1.trans ha2, ho1.trans ho2, hz1.trans hz2⟩
  skipVotes := h.skipVotes.trans h'.skipVotes
  lock l hl := by
    obtain ⟨l1, h1, hb1, ha1⟩ := h.lock l hl
    obtain ⟨l2, h2, hb2, ha2⟩ := h'.lock l1 h1
    exact ⟨l2, h2, hb2.trans hb1, fun ha => ha1 (ha2 ha)⟩
  stance hs := by
    have h1 := h.stance hs
    rw [h'.stance (h1 ▸ hs), h1]
  sealed o ho := h'.sealed o (h.sealed o ho)
  mixClosed hr hm := h'.mixClosed (h.readySent hr) (h.mixClosed hr hm)
  readySent hr := h'.readySent (h.readySent hr)

/-! ### Echoes -/

section Echo

variable {cfg : Config K}

section

omit [LinearOrder K] [LinearOrder D]

theorem addEcho_body (stake : ℕ) (b : Body S view) (grade : ℕ) (origin : List (Option ℕ))
    (t : EchoTally S view) : (addEcho stake b grade origin (some t)).body = t.body := by
  unfold addEcho
  dsimp only
  split <;> rfl

theorem addEcho_body_none (stake : ℕ) (b : Body S view) (grade : ℕ)
    (origin : List (Option ℕ)) : (addEcho stake b grade origin none).body = b := by
  unfold addEcho
  dsimp only
  split <;> rfl

theorem addEcho_gradeOne (stake : ℕ) (b : Body S view) (grade : ℕ) (origin : List (Option ℕ))
    (t : Option (EchoTally S view)) :
    (addEcho stake b grade origin t).gradeOne =
      t.elim 0 EchoTally.gradeOne + if grade = 1 then stake else 0 := by
  unfold addEcho
  dsimp only
  cases t <;> split <;> rfl

theorem addEcho_gradeZero (stake : ℕ) (b : Body S view) (grade : ℕ) (origin : List (Option ℕ))
    (t : Option (EchoTally S view)) :
    (addEcho stake b grade origin t).gradeZero =
      t.elim 0 EchoTally.gradeZero + if grade = 1 then 0 else stake := by
  unfold addEcho
  dsimp only
  cases t <;> split <;> rfl

theorem addEcho_gradeOneParties (stake : ℕ) (b : Body S view) (grade : ℕ)
    (origin : List (Option ℕ)) (t : Option (EchoTally S view)) :
    (addEcho stake b grade origin t).gradeOneParties =
      t.elim 0 EchoTally.gradeOneParties + if grade = 1 then 1 else 0 := by
  unfold addEcho
  dsimp only
  cases t <;> split <;> rfl

theorem addEcho_gradeZeroParties (stake : ℕ) (b : Body S view) (grade : ℕ)
    (origin : List (Option ℕ)) (t : Option (EchoTally S view)) :
    (addEcho stake b grade origin t).gradeZeroParties =
      t.elim 0 EchoTally.gradeZeroParties + if grade = 1 then 0 else 1 := by
  unfold addEcho
  dsimp only
  cases t <;> split <;> rfl

end

theorem enterEcho_echoStatements (q : K) (st : EchoStatement S view) (s : Statements S view) :
    (s.enterEcho cfg q st).echoStatements = s.echoStatements.insert q st := by
  cases st <;> rfl

theorem matchingEchoCount_enterEcho_le (cfg : Config K) (q : K) (st : EchoStatement S view)
    (s : Statements S view) (d : D) :
    (s.enterEcho cfg q st).matchingEchoCount d ≤ s.matchingEchoCount d + 1 := by
  cases st with
  | skip => exact Nat.le_succ _
  | graded b grade origin =>
    unfold matchingEchoCount enterEcho
    dsimp only
    by_cases hd : d = b.digest
    · subst hd
      rw [AList.lookup_insert, Option.elim_some, addEcho_gradeOneParties]
      split <;> omega
    · rw [AList.lookup_insert_ne hd]
      exact Nat.le_succ _

variable {s : Statements S view}

theorem enterEcho_grows {q : K} {st : EchoStatement S view} (hq : q ∉ s.echoStatements) :
    s.Grows (s.enterEcho cfg q st) := by
  have hecho : ∀ k v, s.echoStatements.lookup k = some v →
      (s.enterEcho cfg q st).echoStatements.lookup k = some v := by
    intro k v hk
    rw [enterEcho_echoStatements, AList.lookup_insert_ne (Table.ne_of_lookup hk hq), hk]
  have hnon : ∀ d, s.nonmatchingEchoCount d ≤ (s.enterEcho cfg q st).nonmatchingEchoCount d := by
    intro d
    have h1 := matchingEchoCount_enterEcho_le cfg q st s d
    have h2 : (s.enterEcho cfg q st).echoStatements.size = s.echoStatements.size + 1 := by
      rw [enterEcho_echoStatements, Table.size_insert_of_notMem st hq]
    unfold nonmatchingEchoCount
    omega
  cases st with
  | skip =>
    exact { Grows.refl s with echo := hecho, nonmatching := hnon, echoSkip := Nat.le_succ _ }
  | graded b grade origin =>
    refine { Grows.refl s with echo := hecho, nonmatching := hnon, echoTally := ?_ }
    intro d t ht
    unfold enterEcho
    dsimp only
    by_cases hd : d = b.digest
    · subst hd
      refine ⟨_, AList.lookup_insert _, ?_⟩
      rw [ht, addEcho_body, addEcho_gradeOne, addEcho_gradeZero, addEcho_gradeOneParties]
      exact ⟨rfl, Nat.le_add_right _ _, Nat.le_add_right _ _, Nat.le_add_right _ _⟩
    · rw [AList.lookup_insert_ne hd]
      exact ⟨t, ht, rfl, le_rfl, le_rfl, le_rfl⟩

theorem lockFor_grows (st : EchoStatement S view) (s : Statements S view) :
    s.Grows (s.lockFor cfg st) := by
  unfold lockFor
  split
  · split
    · unfold recordLock
      split
      · exact .refl s
      · next hl =>
        refine { Grows.refl s with lock := fun l h => ?_ }
        rw [h] at hl
        exact absurd rfl hl
    · exact .refl s
  · exact .refl s

theorem respondEcho_grows (st : EchoStatement S view) (s : Statements S view) :
    s.Grows (s.respondEcho cfg st) := by
  have h1 : s.Grows { s.lockFor cfg st with echoSent := true } :=
    { lockFor_grows st s with }
  unfold respondEcho countOwnEcho countEchoStatement
  split
  · exact h1
  · next hq => exact h1.trans (enterEcho_grows hq)

end Echo

/-! ### Readies -/

section Ready

variable {cfg : Config K} {st : ReadyStatement S view}

section

omit [LinearOrder K] [LinearOrder D]

theorem addReady_body (stake : ℕ) (b : Body S view) (grade : ReadyGrade)
    (t : ReadyTally S view) : (addReady stake b grade (some t)).body = t.body := by
  cases grade <;> rfl

theorem addReady_any (stake : ℕ) (b : Body S view) (grade : ReadyGrade)
    (t : Option (ReadyTally S view)) :
    (addReady stake b grade t).any = t.elim 0 ReadyTally.any + stake := by
  cases t <;> cases grade <;> rfl

theorem addReady_gradeOne (stake : ℕ) (b : Body S view) (grade : ReadyGrade)
    (t : Option (ReadyTally S view)) :
    (addReady stake b grade t).gradeOne =
      t.elim 0 ReadyTally.gradeOne + if grade = .one then stake else 0 := by
  cases t <;> cases grade <;> rfl

theorem addReady_gradeZero (stake : ℕ) (b : Body S view) (grade : ReadyGrade)
    (t : Option (ReadyTally S view)) :
    (addReady stake b grade t).gradeZero =
      t.elim 0 ReadyTally.gradeZero + if grade = .zero then stake else 0 := by
  cases t <;> cases grade <;> rfl

theorem addRefinement_body (stake : ℕ) (grade : ReadyGrade) (t : ReadyTally S view) :
    (addRefinement stake grade t).body = t.body := by
  cases grade <;> rfl

theorem addRefinement_any (stake : ℕ) (grade : ReadyGrade) (t : ReadyTally S view) :
    (addRefinement stake grade t).any = t.any := by
  cases grade <;> rfl

theorem addRefinement_gradeOne (stake : ℕ) (grade : ReadyGrade) (t : ReadyTally S view) :
    (addRefinement stake grade t).gradeOne = t.gradeOne + if grade = .one then stake else 0 := by
  cases grade <;> rfl

theorem addRefinement_gradeZero (stake : ℕ) (grade : ReadyGrade) (t : ReadyTally S view) :
    (addRefinement stake grade t).gradeZero =
      t.gradeZero + if grade = .zero then stake else 0 := by
  cases grade <;> rfl

end

theorem countReadyStatement_cases {q : K} (h : s.countReadyStatement cfg q st = some s') :
    (s.readyStatements.lookup q = none ∧ s' = s.enterReady cfg q st) ∨
    ∃ b₀ b grade tally, s.readyStatements.lookup q = some (.graded b₀ .mix) ∧
      st = .graded b grade ∧ b₀.digest = b.digest ∧ grade ≠ .mix ∧
      s.readyTallies.lookup b.digest = some tally ∧
      s' = s.refineReady cfg q b grade tally := by
  unfold countReadyStatement at h
  split at h
  · next hl => exact .inl ⟨hl, (Option.some.inj h).symm⟩
  · next old hl =>
    split at h
    · next hr =>
      obtain ⟨b₀, b, grade, rfl, rfl, hd, hg⟩ := isRefinement_iff.mp hr
      obtain ⟨tally, ht, rfl⟩ := Option.map_eq_some_iff.mp h
      exact .inr ⟨b₀, b, grade, tally, hl, rfl, hd, hg, ht, rfl⟩
    · cases h

theorem enterReady_readyStatements (q : K) (st : ReadyStatement S view)
    (s : Statements S view) :
    (s.enterReady cfg q st).readyStatements = s.readyStatements.insert q st := by
  cases st <;> rfl

theorem enterReady_grows {q : K} (hq : s.readyStatements.lookup q = none) :
    s.Grows (s.enterReady cfg q st) := by
  have hready : ∀ k v, s.readyStatements.lookup k = some v →
      ∃ v', (s.enterReady cfg q st).readyStatements.lookup k = some v' ∧ ReadyUpTo v v' := by
    intro k v hk
    refine ⟨v, ?_, .inl rfl⟩
    rw [enterReady_readyStatements,
      AList.lookup_insert_ne (Table.ne_of_lookup hk (AList.lookup_eq_none.mp hq)), hk]
  cases st with
  | noReady => exact { Grows.refl s with ready := hready }
  | graded b grade =>
    refine { Grows.refl s with ready := hready, readyTally := ?_ }
    intro d t ht
    unfold enterReady
    dsimp only
    by_cases hd : d = b.digest
    · subst hd
      refine ⟨_, AList.lookup_insert _, ?_⟩
      rw [ht, addReady_body, addReady_any, addReady_gradeOne, addReady_gradeZero]
      exact ⟨rfl, Nat.le_add_right _ _, Nat.le_add_right _ _, Nat.le_add_right _ _⟩
    · rw [AList.lookup_insert_ne hd]
      exact ⟨t, ht, rfl, le_rfl, le_rfl, le_rfl⟩

theorem refineReady_grows {q : K} {b₀ b : Body S view} {grade : ReadyGrade}
    {tally : ReadyTally S view} (hq : s.readyStatements.lookup q = some (.graded b₀ .mix))
    (hd : b₀.digest = b.digest) (hg : grade ≠ .mix)
    (ht : s.readyTallies.lookup b.digest = some tally) :
    s.Grows (s.refineReady cfg q b grade tally) := by
  refine { Grows.refl s with ready := fun k v hk => ?_, readyTally := fun d t htd => ?_ }
  · unfold refineReady
    dsimp only
    by_cases hkq : k = q
    · subst hkq
      rw [hq] at hk
      cases hk
      exact ⟨_, AList.lookup_insert _, .inr (isRefinement_iff.mpr ⟨b₀, b, grade, rfl, rfl, hd, hg⟩)⟩
    · rw [AList.lookup_insert_ne hkq]
      exact ⟨v, hk, .inl rfl⟩
  · unfold refineReady
    dsimp only
    by_cases hdb : d = b.digest
    · subst hdb
      rw [ht] at htd
      cases htd
      refine ⟨_, AList.lookup_insert _, ?_⟩
      rw [addRefinement_body, addRefinement_any, addRefinement_gradeOne, addRefinement_gradeZero]
      exact ⟨rfl, le_rfl, Nat.le_add_right _ _, Nat.le_add_right _ _⟩
    · rw [AList.lookup_insert_ne hdb]
      exact ⟨t, htd, rfl, le_rfl, le_rfl, le_rfl⟩

theorem countReadyStatement_grows {q : K} (h : s.countReadyStatement cfg q st = some s') :
    s.Grows s' := by
  rcases countReadyStatement_cases h with
    ⟨hq, rfl⟩ | ⟨b₀, b, grade, tally, hq, rfl, hd, hg, ht, rfl⟩
  · exact enterReady_grows hq
  · exact refineReady_grows hq hd hg ht

theorem respondReady_grows (hs : s.readySent = false) :
    s.Grows (s.respondReady cfg st) := by
  have h1 : ∀ mix, s.Grows { s with readySent := true, readyMixOpen := mix } := by
    intro mix
    refine { Grows.refl s with readySent := fun _ => rfl, mixClosed := fun h => ?_ }
    rw [hs] at h
    cases h
  unfold respondReady countOwnReady
  generalize hc : countReadyStatement cfg cfg.name st _ = r
  cases r with
  | none => exact h1 _
  | some s' => exact (h1 _).trans (countReadyStatement_grows hc)

end Ready

/-! ### All steps -/

theorem finalizeMixIfClosed_grows (cfg : Config K) (deadline : Bool) (s : Statements S view) :
    s.Grows (s.finalizeMixIfClosed cfg deadline) := by
  unfold finalizeMixIfClosed
  split
  · exact { Grows.refl s with mixClosed := fun _ _ => rfl }
  · exact .refl s

theorem recheckLockRelease_grows (cfg : Config K) (s : Statements S view) :
    s.Grows (s.recheckLockRelease cfg) := by
  unfold recheckLockRelease
  split
  · next lock hl =>
    split
    · refine { Grows.refl s with lock := fun l h => ⟨_, rfl, ?_, fun ha => nomatch ha⟩ }
      rw [hl] at h
      cases h
      rfl
    · exact .refl s
  · exact .refl s

end Statements

theorem StmtStep.grows {cfg : Config K} {I : Inputs S view} {es : List (Effect K D)}
    (h : StmtStep cfg I s es s') : s.Grows s' := by
  cases h with
  | quiet _ => exact .refl s
  | recvEcho q st _ hq => exact Statements.enterEcho_grows hq
  | ownEcho st _ => exact Statements.respondEcho_grows st s
  | releaseLock => exact Statements.recheckLockRelease_grows cfg s
  | ownReady hs _ => exact Statements.respondReady_grows hs
  | refine _ hs =>
    exact { Statements.countReadyStatement_grows hs with mixClosed := fun _ _ => rfl }
  | closeMix deadline => exact Statements.finalizeMixIfClosed_grows cfg deadline s
  | ownNoReady hs => exact Statements.respondReady_grows hs
  | recvReady q st _ hs => exact Statements.countReadyStatement_grows hs
  | complete _ _ _ => exact { Statements.Grows.refl s with }
  | sealView hn _ =>
    refine { Statements.Grows.refl s with sealed := fun o ho => ?_ }
    rw [hn] at ho
    cases ho
  | skipVote hv =>
    refine { Statements.Grows.refl s with
      skipVotes := Finset.subset_insert _ _, stance := fun hs => ?_ }
    simp only [Statements.readyForSkipVote, Bool.and_eq_true, decide_eq_true_eq] at hv
    exact absurd hv.1.1.1 hs
  | recvSkipVote q _ =>
    exact { Statements.Grows.refl s with skipVotes := Finset.subset_insert _ _ }
  | claimNonSkip hf => exact { Statements.Grows.refl s with stance := fun hs => absurd hf hs }

theorem ViewState.steps_grows {cfg : Config K} {I : Inputs S view} {s s' : ViewState S view}
    {es : List (Effect K D)} (h : Steps (ViewState.Step cfg I) s es s') :
    s.toStatements.Grows s'.toStatements := by
  induction h with
  | refl s => exact .refl _
  | step hr _ ih => exact (StmtStep.grows hr).trans ih

theorem AgbEngine.steps_grows {cfg : Config K} {I : ∀ view, Inputs S view}
    {e e' : AgbEngine S} {es : List (Effect K D)} (h : Steps (AgbEngine.Step cfg I) e es e')
    (u : ℕ) : (e.state u).toStatements.Grows (e'.state u).toStatements := by
  induction h with
  | refl e => exact .refl _
  | step hr _ ih =>
    obtain ⟨w, -, hstep, hne, -⟩ := hr
    by_cases hu : u = w
    · subst hu
      exact hstep.grows.trans ih
    · rw [← hne u hu]
      exact ih

end Vantage
