import Vantage.Agb.Grows

/-!
# Tallies are exact

* `enterEcho_exact`, `enterReady_exact`, `refineReady_exact`: the three ways to count a statement.
-/

namespace Vantage

variable {K D : Type} [LinearOrder K] [LinearOrder D] {S : Session K D} {view : ℕ}

def EchoStatement.names (d : D) (one : Bool) : EchoStatement S view → Bool
  | .graded b grade _ => decide (b.digest = d) && (decide (grade = 1) == one)
  | .skip => false

def EchoStatement.isSkip : EchoStatement S view → Bool
  | .graded .. => false
  | .skip => true

def ReadyStatement.names (d : D) : ReadyStatement S view → Bool
  | .graded b _ => decide (b.digest = d)
  | .noReady => false

def ReadyStatement.hasGrade (d : D) (grade : ReadyGrade) : ReadyStatement S view → Bool
  | .graded b g => decide (b.digest = d) && decide (g = grade)
  | .noReady => false

def ReadyStatement.isNoReady : ReadyStatement S view → Bool
  | .graded .. => false
  | .noReady => true

namespace Statements

/-- Every tally equals what the counted statements say. -/
structure Exact (cfg : Config K) (s : Statements S view) : Prop where
  echoBody : ∀ d t, s.echoTallies.lookup d = some t → t.body.digest = d
  echoOne : ∀ d, (s.echoTallies.lookup d).elim 0 EchoTally.gradeOne =
    Table.weight cfg.committee.stake (EchoStatement.names d true) s.echoStatements
  echoZero : ∀ d, (s.echoTallies.lookup d).elim 0 EchoTally.gradeZero =
    Table.weight cfg.committee.stake (EchoStatement.names d false) s.echoStatements
  echoOneParties : ∀ d, (s.echoTallies.lookup d).elim 0 EchoTally.gradeOneParties =
    Table.weight (fun _ => 1) (EchoStatement.names d true) s.echoStatements
  echoZeroParties : ∀ d, (s.echoTallies.lookup d).elim 0 EchoTally.gradeZeroParties =
    Table.weight (fun _ => 1) (EchoStatement.names d false) s.echoStatements
  echoSkip : s.echoSkipParties = Table.count EchoStatement.isSkip s.echoStatements
  readyBody : ∀ d t, s.readyTallies.lookup d = some t → t.body.digest = d
  readyAny : ∀ d, (s.readyTallies.lookup d).elim 0 ReadyTally.any =
    Table.weight cfg.committee.stake (ReadyStatement.names d) s.readyStatements
  readyOne : ∀ d, (s.readyTallies.lookup d).elim 0 ReadyTally.gradeOne =
    Table.weight cfg.committee.stake (ReadyStatement.hasGrade d .one) s.readyStatements
  readyZero : ∀ d, (s.readyTallies.lookup d).elim 0 ReadyTally.gradeZero =
    Table.weight cfg.committee.stake (ReadyStatement.hasGrade d .zero) s.readyStatements
  noready : s.noreadyParties = Table.count ReadyStatement.isNoReady s.readyStatements

section Echo

variable {cfg : Config K} {s : Statements S view} {q : K}

theorem exact_enterEcho {f : EchoTally S view → ℕ} {P : D → EchoStatement S view → Bool}
    {w : K → ℕ} (st : EchoStatement S view) (hq : q ∉ s.echoStatements)
    (hadd : ∀ b grade origin t, f (addEcho (cfg.committee.stake q) b grade origin t) =
      t.elim 0 f + if P b.digest (.graded b grade origin) then w q else 0)
    (hne : ∀ d b grade origin, d ≠ b.digest → P d (.graded b grade origin) = false)
    (hskip : ∀ d, P d .skip = false)
    (h : ∀ d, (s.echoTallies.lookup d).elim 0 f = Table.weight w (P d) s.echoStatements)
    (d : D) :
    ((s.enterEcho cfg q st).echoTallies.lookup d).elim 0 f =
      Table.weight w (P d) (s.enterEcho cfg q st).echoStatements := by
  rw [enterEcho_echoStatements, Table.weight_insert_of_notMem w (P d) st hq, ← h d]
  cases st with
  | skip =>
    rw [hskip d]
    rfl
  | graded b grade origin =>
    unfold enterEcho
    dsimp only
    by_cases hd : d = b.digest
    · subst hd
      rw [AList.lookup_insert, Option.elim_some, hadd]
    · rw [AList.lookup_insert_ne hd, hne d b grade origin hd]
      rfl

omit [LinearOrder K] in
theorem names_of_ne {one : Bool} (d : D) (b : Body S view) (grade : ℕ)
    (origin : List (Option ℕ)) (h : d ≠ b.digest) :
    EchoStatement.names d one (.graded b grade origin) = false := by
  simp [EchoStatement.names, Ne.symm h]

omit [LinearOrder K] in
theorem names_true (b : Body S view) (grade : ℕ) (origin : List (Option ℕ)) :
    EchoStatement.names b.digest true (.graded b grade origin) = decide (grade = 1) := by
  by_cases h : grade = 1 <;> simp [EchoStatement.names, h]

omit [LinearOrder K] in
theorem names_false (b : Body S view) (grade : ℕ) (origin : List (Option ℕ)) :
    EchoStatement.names b.digest false (.graded b grade origin) = !decide (grade = 1) := by
  by_cases h : grade = 1 <;> simp [EchoStatement.names, h]

theorem enterEcho_exact (h : s.Exact cfg) (st : EchoStatement S view)
    (hq : q ∉ s.echoStatements) : (s.enterEcho cfg q st).Exact cfg where
  echoBody d t ht := by
    cases st with
    | skip => exact h.echoBody d t ht
    | graded b grade origin =>
      unfold enterEcho at ht
      dsimp only at ht
      by_cases hd : d = b.digest
      · subst hd
        rw [AList.lookup_insert] at ht
        cases ht
        cases hl : s.echoTallies.lookup b.digest with
        | none => rw [addEcho_body_none]
        | some t => rw [addEcho_body, h.echoBody b.digest t hl]
      · rw [AList.lookup_insert_ne hd] at ht
        exact h.echoBody d t ht
  echoOne := by
    refine exact_enterEcho st hq (fun b grade origin t => ?_) names_of_ne (fun _ => rfl) h.echoOne
    rw [addEcho_gradeOne, names_true]
    simp only [decide_eq_true_eq]
  echoZero := by
    refine exact_enterEcho st hq (fun b grade origin t => ?_) names_of_ne (fun _ => rfl) h.echoZero
    rw [addEcho_gradeZero, names_false]
    by_cases hg : grade = 1 <;> simp [hg]
  echoOneParties := by
    refine exact_enterEcho st hq (fun b grade origin t => ?_) names_of_ne (fun _ => rfl)
      h.echoOneParties
    rw [addEcho_gradeOneParties, names_true]
    simp only [decide_eq_true_eq]
  echoZeroParties := by
    refine exact_enterEcho st hq (fun b grade origin t => ?_) names_of_ne (fun _ => rfl)
      h.echoZeroParties
    rw [addEcho_gradeZeroParties, names_false]
    by_cases hg : grade = 1 <;> simp [hg]
  echoSkip := by
    rw [enterEcho_echoStatements, Table.count_insert_of_notMem _ st hq, ← h.echoSkip]
    cases st <;> rfl
  readyBody d t ht := h.readyBody d t (by cases st <;> exact ht)
  readyAny d := by cases st <;> exact h.readyAny d
  readyOne d := by cases st <;> exact h.readyOne d
  readyZero d := by cases st <;> exact h.readyZero d
  noready := by cases st <;> exact h.noready

end Echo

section Ready

variable {cfg : Config K} {s : Statements S view} {q : K}

theorem exact_enterReady {f : ReadyTally S view → ℕ} {P : D → ReadyStatement S view → Bool}
    {w : K → ℕ} (st : ReadyStatement S view) (hq : q ∉ s.readyStatements)
    (hadd : ∀ b grade t, f (addReady (cfg.committee.stake q) b grade t) =
      t.elim 0 f + if P b.digest (.graded b grade) then w q else 0)
    (hne : ∀ d b grade, d ≠ b.digest → P d (.graded b grade) = false)
    (hno : ∀ d, P d .noReady = false)
    (h : ∀ d, (s.readyTallies.lookup d).elim 0 f = Table.weight w (P d) s.readyStatements)
    (d : D) :
    ((s.enterReady cfg q st).readyTallies.lookup d).elim 0 f =
      Table.weight w (P d) (s.enterReady cfg q st).readyStatements := by
  rw [enterReady_readyStatements, Table.weight_insert_of_notMem w (P d) st hq, ← h d]
  cases st with
  | noReady =>
    rw [hno d]
    rfl
  | graded b grade =>
    unfold enterReady
    dsimp only
    by_cases hd : d = b.digest
    · subst hd
      rw [AList.lookup_insert, Option.elim_some, hadd]
    · rw [AList.lookup_insert_ne hd, hne d b grade hd]
      rfl

omit [LinearOrder K] in
theorem hasGrade_of_ne {g : ReadyGrade} (d : D) (b : Body S view) (grade : ReadyGrade)
    (h : d ≠ b.digest) : ReadyStatement.hasGrade d g (.graded b grade) = false := by
  simp [ReadyStatement.hasGrade, Ne.symm h]

theorem enterReady_exact (h : s.Exact cfg) (st : ReadyStatement S view)
    (hq : q ∉ s.readyStatements) : (s.enterReady cfg q st).Exact cfg where
  echoBody d t ht := h.echoBody d t (by cases st <;> exact ht)
  echoOne d := by cases st <;> exact h.echoOne d
  echoZero d := by cases st <;> exact h.echoZero d
  echoOneParties d := by cases st <;> exact h.echoOneParties d
  echoZeroParties d := by cases st <;> exact h.echoZeroParties d
  echoSkip := by cases st <;> exact h.echoSkip
  readyBody d t ht := by
    cases st with
    | noReady => exact h.readyBody d t ht
    | graded b grade =>
      unfold enterReady at ht
      dsimp only at ht
      by_cases hd : d = b.digest
      · subst hd
        rw [AList.lookup_insert] at ht
        cases ht
        cases hl : s.readyTallies.lookup b.digest with
        | none => cases grade <;> rfl
        | some t => rw [addReady_body, h.readyBody b.digest t hl]
      · rw [AList.lookup_insert_ne hd] at ht
        exact h.readyBody d t ht
  readyAny := by
    refine exact_enterReady st hq (fun b grade t => ?_) (fun d b grade hd => ?_) (fun _ => rfl)
      h.readyAny
    · rw [addReady_any]
      simp [ReadyStatement.names]
    · simp [ReadyStatement.names, Ne.symm hd]
  readyOne := by
    refine exact_enterReady st hq (fun b grade t => ?_) hasGrade_of_ne (fun _ => rfl) h.readyOne
    rw [addReady_gradeOne]
    simp [ReadyStatement.hasGrade]
  readyZero := by
    refine exact_enterReady st hq (fun b grade t => ?_) hasGrade_of_ne (fun _ => rfl) h.readyZero
    rw [addReady_gradeZero]
    simp [ReadyStatement.hasGrade]
  noready := by
    rw [enterReady_readyStatements, Table.count_insert_of_notMem _ st hq, ← h.noready]
    cases st <;> rfl

theorem exact_refineReady {f : ReadyTally S view → ℕ} {P : D → ReadyStatement S view → Bool}
    {b₀ b : Body S view} {grade : ReadyGrade} {tally : ReadyTally S view}
    (hq : s.readyStatements.lookup q = some (.graded b₀ .mix))
    (ht : s.readyTallies.lookup b.digest = some tally)
    (hadd : f (addRefinement (cfg.committee.stake q) grade tally) =
      f tally + if P b.digest (.graded b grade) then cfg.committee.stake q else 0)
    (hmix : ∀ d, P d (.graded b₀ .mix) = false)
    (hne : ∀ d, d ≠ b.digest → P d (.graded b grade) = false)
    (h : ∀ d, (s.readyTallies.lookup d).elim 0 f =
      Table.weight cfg.committee.stake (P d) s.readyStatements) (d : D) :
    ((s.refineReady cfg q b grade tally).readyTallies.lookup d).elim 0 f =
      Table.weight cfg.committee.stake (P d)
        (s.refineReady cfg q b grade tally).readyStatements := by
  unfold refineReady
  dsimp only
  rw [Table.weight_insert_of_lookup _ _ hq (hmix d), ← h d]
  by_cases hd : d = b.digest
  · subst hd
    rw [AList.lookup_insert, ht, Option.elim_some, Option.elim_some, hadd]
  · rw [AList.lookup_insert_ne hd, hne d hd]
    rfl

theorem refineReady_exact (h : s.Exact cfg) {b₀ b : Body S view} {grade : ReadyGrade}
    {tally : ReadyTally S view} (hq : s.readyStatements.lookup q = some (.graded b₀ .mix))
    (hd : b₀.digest = b.digest) (ht : s.readyTallies.lookup b.digest = some tally) :
    (s.refineReady cfg q b grade tally).Exact cfg where
  echoBody := h.echoBody
  echoOne := h.echoOne
  echoZero := h.echoZero
  echoOneParties := h.echoOneParties
  echoZeroParties := h.echoZeroParties
  echoSkip := h.echoSkip
  readyBody d t htd := by
    unfold refineReady at htd
    dsimp only at htd
    by_cases hdb : d = b.digest
    · subst hdb
      rw [AList.lookup_insert] at htd
      cases htd
      rw [addRefinement_body, h.readyBody b.digest tally ht]
    · rw [AList.lookup_insert_ne hdb] at htd
      exact h.readyBody d t htd
  readyAny d := by
    unfold refineReady
    dsimp only
    rw [Table.weight_insert_of_lookup_eq _ hq (by simp [ReadyStatement.names, hd]), ← h.readyAny d]
    by_cases hdb : d = b.digest
    · subst hdb
      rw [AList.lookup_insert, ht, Option.elim_some, Option.elim_some, addRefinement_any]
    · rw [AList.lookup_insert_ne hdb]
  readyOne := by
    refine exact_refineReady hq ht ?_ (fun d => ?_) (fun d => hasGrade_of_ne d b grade) h.readyOne
    · rw [addRefinement_gradeOne]
      simp [ReadyStatement.hasGrade]
    · simp [ReadyStatement.hasGrade]
  readyZero := by
    refine exact_refineReady hq ht ?_ (fun d => ?_) (fun d => hasGrade_of_ne d b grade) h.readyZero
    · rw [addRefinement_gradeZero]
      simp [ReadyStatement.hasGrade]
    · simp [ReadyStatement.hasGrade]
  noready := by
    unfold refineReady
    dsimp only
    rw [h.noready, Table.count_eq_weight, Table.count_eq_weight,
      Table.weight_insert_of_lookup_eq _ hq]
    rfl

theorem countReadyStatement_exact {s' : Statements S view} {st : ReadyStatement S view}
    (h : s.Exact cfg) (hs : s.countReadyStatement cfg q st = some s') : s'.Exact cfg := by
  rcases countReadyStatement_cases hs with
    ⟨hq, rfl⟩ | ⟨b₀, b, grade, tally, hq, rfl, hd, -, ht, rfl⟩
  · exact enterReady_exact h st (AList.lookup_eq_none.mp hq)
  · exact refineReady_exact h hq hd ht

end Ready

variable {s : Statements S view} {cfg : Config K}

theorem lockFor_exact (h : s.Exact cfg) (st : EchoStatement S view) :
    (s.lockFor cfg st).Exact cfg := by
  unfold lockFor
  split
  · split
    · unfold recordLock
      split
      · exact h
      · exact { h with }
    · exact h
  · exact h

theorem respondEcho_exact (h : s.Exact cfg) (st : EchoStatement S view) :
    (s.respondEcho cfg st).Exact cfg := by
  have h1 : ({ s.lockFor cfg st with echoSent := true } : Statements S view).Exact cfg :=
    { lockFor_exact h st with }
  unfold respondEcho countOwnEcho countEchoStatement
  split
  · exact h1
  · next hq => exact enterEcho_exact h1 st hq

theorem respondReady_exact (h : s.Exact cfg) (st : ReadyStatement S view) :
    (s.respondReady cfg st).Exact cfg := by
  have h1 : ∀ mix, ({ s with readySent := true, readyMixOpen := mix } : Statements S view).Exact
      cfg := fun _ => { h with }
  unfold respondReady countOwnReady
  generalize hc : countReadyStatement cfg cfg.name st _ = r
  cases r with
  | none => exact h1 _
  | some s' => exact countReadyStatement_exact (h1 _) hc

theorem finalizeMixIfClosed_exact (h : s.Exact cfg) (deadline : Bool) :
    (s.finalizeMixIfClosed cfg deadline).Exact cfg := by
  unfold finalizeMixIfClosed
  split
  · exact { h with }
  · exact h

theorem recheckLockRelease_exact (h : s.Exact cfg) :
    (s.recheckLockRelease cfg).Exact cfg := by
  unfold recheckLockRelease
  split
  · split
    · exact { h with }
    · exact h
  · exact h

theorem exact_default (cfg : Config K) : ({} : Statements S view).Exact cfg where
  echoBody _ _ h := nomatch h
  echoOne _ := rfl
  echoZero _ := rfl
  echoOneParties _ := rfl
  echoZeroParties _ := rfl
  echoSkip := rfl
  readyBody _ _ h := nomatch h
  readyAny _ := rfl
  readyOne _ := rfl
  readyZero _ := rfl
  noready := rfl

/-- Every atomic step keeps the tallies exact. -/
theorem exact_of_step {I : Inputs S view} {s s' : Statements S view} {es : List (Effect K D)}
    (h : s.Exact cfg) (hs : StmtStep cfg I s es s') : s'.Exact cfg := by
  cases hs with
  | quiet _ => exact h
  | recvEcho q st _ hq => exact enterEcho_exact h st hq
  | ownEcho st _ => exact respondEcho_exact h st
  | releaseLock => exact recheckLockRelease_exact h
  | ownReady _ _ => exact respondReady_exact h _
  | refine _ hs => exact { countReadyStatement_exact h hs with }
  | closeMix deadline => exact finalizeMixIfClosed_exact h deadline
  | ownNoReady _ => exact respondReady_exact h _
  | recvReady q st _ hs => exact countReadyStatement_exact h hs
  | complete _ _ _ => exact { h with }
  | sealView _ _ => exact { h with }
  | skipVote _ => exact { h with }
  | recvSkipVote q _ => exact { h with }
  | claimNonSkip _ => exact { h with }

end Statements

end Vantage
