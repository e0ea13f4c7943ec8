import Vantage.Agb.Tally

/-!
# A party's own echo

What a party has said about a view, as read off its emitted effects, and how its echo is tied
to the statements it has counted.
-/

namespace Vantage

variable {K D : Type} [LinearOrder K] [LinearOrder D] {S : Session K D} {view : ℕ}
  {st : ReadyStatement S view} {out : List (Effect K D)}

def SaidEcho (out : List (Effect K D)) : EchoStatement S view → Prop
  | .graded b grade _ =>
    ∃ e, Effect.broadcastEcho e ∈ out ∧ e.proposalOut = b.proposal ∧ e.grade = grade
  | .skip => Effect.broadcastEchoSkip view ∈ out

def SaidReady (out : List (Effect K D)) : ReadyStatement S view → Prop
  | .graded b grade =>
    ∃ r, Effect.broadcastReady r ∈ out ∧ r.proposalOut = b.proposal ∧ r.grade = grade
  | .noReady => Effect.broadcastNoReady view ∈ out

omit [LinearOrder K] [LinearOrder D] in
theorem SaidEcho.append {st : EchoStatement S view} (h : SaidEcho out st) (es : List (Effect K D)) :
    SaidEcho (out ++ es) st := by
  cases st with
  | graded b grade origin =>
    obtain ⟨e, he, hb⟩ := h
    exact ⟨e, List.mem_append_left _ he, hb⟩
  | skip => exact List.mem_append_left _ h

omit [LinearOrder K] [LinearOrder D] in
theorem SaidReady.append (h : SaidReady out st) (es : List (Effect K D)) :
    SaidReady (out ++ es) st := by
  cases st with
  | graded b grade =>
    obtain ⟨e, he, hb⟩ := h
    exact ⟨e, List.mem_append_left _ he, hb⟩
  | noReady => exact List.mem_append_left _ h

/-- Two echo-stage statements that agree up to origin bits. -/
def EchoStatement.Same : EchoStatement S view → EchoStatement S view → Prop
  | .graded b grade _, .graded b' grade' _ => b = b' ∧ grade = grade'
  | .skip, .skip => True
  | _, _ => False

def Effect.isEchoOf (view : ℕ) : Effect K D → Bool
  | .broadcastEcho e => decide (e.proposalOut.view = view)
  | .broadcastEchoSkip v => decide (v = view)
  | _ => false

def Effect.isReadyOf (view : ℕ) : Effect K D → Bool
  | .broadcastReady r => decide (r.proposalOut.view = view)
  | .broadcastNoReady v => decide (v = view)
  | _ => false

def Effect.isVoteOf (view : ℕ) : Effect K D → Bool
  | .broadcastSkipVote v => decide (v = view)
  | _ => false

def Effect.isResultOf (view : ℕ) : Effect K D → Bool
  | .completed v _ _ => decide (v = view)
  | .sealed v _ _ => decide (v = view)
  | _ => false

omit [LinearOrder K] [LinearOrder D] in
theorem saidEcho_of_append {out es : List (Effect K D)} {st : EchoStatement S view}
    (hes : ∀ x ∈ es, x.isEchoOf view = false) (h : SaidEcho (out ++ es) st) :
    SaidEcho out st := by
  cases st with
  | graded b grade origin =>
    obtain ⟨e, he, hb, hg⟩ := h
    rcases List.mem_append.mp he with he | he
    · exact ⟨e, he, hb, hg⟩
    · have := hes _ he
      simp [Effect.isEchoOf, hb, b.view_eq] at this
  | skip =>
    rcases List.mem_append.mp h with h | h
    · exact h
    · have := hes _ h
      simp [Effect.isEchoOf] at this

omit [LinearOrder K] [LinearOrder D] in
theorem saidReady_of_append {out es : List (Effect K D)} (hes : ∀ x ∈ es, x.isReadyOf view = false)
    (h : SaidReady (out ++ es) st) :
    SaidReady out st := by
  cases st with
  | graded b grade =>
    obtain ⟨e, he, hb, hg⟩ := h
    rcases List.mem_append.mp he with he | he
    · exact ⟨e, he, hb, hg⟩
    · have := hes _ he
      simp [Effect.isReadyOf, hb, b.view_eq] at this
  | noReady =>
    rcases List.mem_append.mp h with h | h
    · exact h
    · have := hes _ h
      simp [Effect.isReadyOf] at this

/-- What reaches a party under its own name it has sent before. -/
structure Inputs.Echoed (cfg : Config K) (I : Inputs S view) (out : List (Effect K D)) :
    Prop where
  echo : ∀ st, I.echo cfg.name st → SaidEcho out st
  ready : ∀ st, I.ready cfg.name st → SaidReady out st
  skipVote : I.skipVote cfg.name → Effect.broadcastSkipVote view ∈ out

omit [LinearOrder K] [LinearOrder D] in
theorem Inputs.Echoed.append {cfg : Config K} {I : Inputs S view} (h : I.Echoed cfg out)
    (es : List (Effect K D)) : I.Echoed cfg (out ++ es) where
  echo st hI := (h.echo st hI).append es
  ready st hI := (h.ready st hI).append es
  skipVote hI := List.mem_append_left _ (h.skipVote hI)

omit [LinearOrder K] [LinearOrder D] in
theorem ViewState.mem_completionEffects {cfg : Config K} {tally : ReadyTally S view}
    {x : Effect K D} (h : x ∈ ViewState.completionEffects cfg tally) :
    x.isQuiet = true ∨
      x = .completed view tally.body.proposal.c tally.body.proposal.t := by
  simp only [ViewState.completionEffects, List.mem_append, List.mem_map, List.mem_singleton] at h
  rcases h with (⟨_, -, rfl⟩ | h) | rfl
  · exact .inl rfl
  · split at h
    · rw [List.mem_singleton.mp h]
      exact .inl rfl
    · cases h
  · exact .inr rfl

namespace Statements

/-! ### The own echo -/

/-- The own echo is unique, recorded as sent, and tied to the lock. -/
structure OwnEcho (cfg : Config K) (s : Statements S view) (out : List (Effect K D)) :
    Prop where
  sent : cfg.name ∈ s.echoStatements → s.echoSent = true
  recorded : ∀ st, SaidEcho out st →
    ∃ st', s.echoStatements.lookup cfg.name = some st' ∧ st'.Same st
  said : ∀ st, s.echoStatements.lookup cfg.name = some st → SaidEcho out st
  lockOf : ∀ l, s.lock = some l →
    ∃ origin, s.echoStatements.lookup cfg.name = some (.graded l.body 1 origin)
  locked : ∀ b origin, s.echoStatements.lookup cfg.name = some (.graded b 1 origin) →
    ∃ l, s.lock = some l ∧ l.body = b
  released : ∀ l, s.lock = some l → l.active = false →
    cfg.fPlus1Parties ≤ s.nonmatchingEchoCount l.body.digest

variable {cfg : Config K} {I : Inputs S view} {s s' : Statements S view}
  {out es : List (Effect K D)}

theorem OwnEcho.append (h : s.OwnEcho cfg out) (hes : ∀ x ∈ es, x.isEchoOf view = false) :
    s.OwnEcho cfg (out ++ es) :=
  { h with
    recorded := fun st hst => h.recorded st (saidEcho_of_append hes hst)
    said := fun st hst => (h.said st hst).append es }

theorem OwnEcho.silent (h : s.OwnEcho cfg out) : s.OwnEcho cfg (out ++ []) := by
  rwa [List.append_nil]

theorem OwnEcho.fresh (h : s.OwnEcho cfg out) (hs : s.echoSent = false) :
    cfg.name ∉ s.echoStatements ∧ s.lock = none ∧
      ∀ st : EchoStatement S view, ¬SaidEcho out st := by
  have hn : cfg.name ∉ s.echoStatements := fun hn => by
    rw [h.sent hn] at hs
    cases hs
  have hl : s.echoStatements.lookup cfg.name = none := AList.lookup_eq_none.mpr hn
  refine ⟨hn, ?_, fun st hst => ?_⟩
  · cases hlock : s.lock with
    | none => rfl
    | some l =>
      obtain ⟨_, ho⟩ := h.lockOf l hlock
      rw [hl] at ho
      cases ho
  · obtain ⟨_, ho, _⟩ := h.recorded st hst
    rw [hl] at ho
    cases ho

theorem OwnEcho.ne_name (h : s.OwnEcho cfg out) (hI : I.Echoed cfg out) {q : K}
    {st : EchoStatement S view} (hst : I.echo q st) (hq : q ∉ s.echoStatements) :
    q ≠ cfg.name := by
  rintro rfl
  obtain ⟨_, ho, _⟩ := h.recorded st (hI.echo st hst)
  rw [AList.lookup_eq_none.mpr hq] at ho
  cases ho

theorem enterEcho_lock (cfg : Config K) (q : K) (st : EchoStatement S view)
    (s : Statements S view) :
    (s.enterEcho cfg q st).lock = s.lock ∧ (s.enterEcho cfg q st).echoSent = s.echoSent := by
  cases st <;> exact ⟨rfl, rfl⟩

theorem OwnEcho.enterEcho (h : s.OwnEcho cfg out) {q : K} (hq : q ≠ cfg.name)
    (hn : q ∉ s.echoStatements) (st : EchoStatement S view) :
    (s.enterEcho cfg q st).OwnEcho cfg out := by
  have hl : (s.enterEcho cfg q st).echoStatements.lookup cfg.name =
      s.echoStatements.lookup cfg.name := by
    rw [enterEcho_echoStatements, AList.lookup_insert_ne (Ne.symm hq)]
  obtain ⟨hlock, hsent⟩ := enterEcho_lock cfg q st s
  refine ⟨fun hm => ?_, ?_, ?_, ?_, ?_, ?_⟩
  · rw [enterEcho_echoStatements, AList.mem_insert] at hm
    rw [hsent]
    exact h.sent (hm.resolve_left (Ne.symm hq))
  · rw [hl]; exact h.recorded
  · rw [hl]; exact h.said
  · rw [hl, hlock]; exact h.lockOf
  · rw [hl, hlock]; exact h.locked
  · intro l hl' ha
    rw [hlock] at hl'
    exact (h.released l hl' ha).trans ((enterEcho_grows hn).nonmatching _)

section

omit [LinearOrder K] [LinearOrder D]

@[simp] theorem buildEchoOut_proposalOut (cfg : Config K) (p : ProposalOut K D) (grade : ℕ)
    (origin : List (Option ℕ)) :
    (ViewState.buildEchoOut cfg p grade origin).proposalOut = p := by
  cases p <;> rfl

@[simp] theorem buildEchoOut_grade (cfg : Config K) (p : ProposalOut K D) (grade : ℕ)
    (origin : List (Option ℕ)) : (ViewState.buildEchoOut cfg p grade origin).grade = grade := by
  cases p <;> rfl

theorem saidEcho_ownEchoEffect (cfg : Config K) {st st' : EchoStatement S view}
    (h : SaidEcho [ownEchoEffect cfg st] st') : st.Same st' := by
  cases st with
  | graded b grade origin =>
    cases st' with
    | graded b' grade' origin' =>
      obtain ⟨e, he, hb, hg⟩ := h
      obtain rfl : e = _ := Effect.broadcastEcho.inj (List.mem_singleton.mp he)
      rw [buildEchoOut_proposalOut] at hb
      rw [buildEchoOut_grade] at hg
      exact ⟨Body.ext_proposal hb, hg⟩
    | skip => exact absurd (List.mem_singleton.mp h) (by simp [ownEchoEffect])
  | skip =>
    cases st' with
    | graded b' grade' origin' =>
      obtain ⟨e, he, -⟩ := h
      exact absurd (List.mem_singleton.mp he) (by simp [ownEchoEffect])
    | skip => trivial

theorem saidEcho_self (cfg : Config K) (out : List (Effect K D)) (st : EchoStatement S view) :
    SaidEcho (out ++ [ownEchoEffect cfg st]) st := by
  cases st with
  | graded b grade origin =>
    exact ⟨_, List.mem_append_right _ (List.mem_singleton.mpr rfl), by simp, by simp⟩
  | skip => exact List.mem_append_right _ (List.mem_singleton.mpr rfl)

theorem saidEcho_split {es : List (Effect K D)} {st : EchoStatement S view}
    (h : SaidEcho (out ++ es) st) : SaidEcho out st ∨ SaidEcho es st := by
  cases st with
  | graded b grade origin =>
    obtain ⟨e, he, hb⟩ := h
    exact (List.mem_append.mp he).imp (fun he => ⟨e, he, hb⟩) fun he => ⟨e, he, hb⟩
  | skip => exact List.mem_append.mp h

end

/-! ### What the parts of a view's statements depend on -/

def echoPart (s : Statements S view) :
    Bool × Table K (EchoStatement S view) × Table D (EchoTally S view) × ℕ ×
      Option (Lock S view) :=
  (s.echoSent, s.echoStatements, s.echoTallies, s.echoSkipParties, s.lock)

def readyPart (s : Statements S view) : Bool × Table K (ReadyStatement S view) :=
  (s.readySent, s.readyStatements)

def votePart (s : Statements S view) : Stance × Finset K := (s.stance, s.skipVoteStatements)

theorem enterEcho_parts (cfg : Config K) (q : K) (st : EchoStatement S view)
    (s : Statements S view) :
    (s.enterEcho cfg q st).readyPart = s.readyPart ∧
      (s.enterEcho cfg q st).votePart = s.votePart := by
  cases st <;> exact ⟨rfl, rfl⟩

omit [LinearOrder K] in
theorem lockFor_parts (cfg : Config K) (st : EchoStatement S view) (s : Statements S view) :
    (s.lockFor cfg st).echoStatements = s.echoStatements ∧
      (s.lockFor cfg st).readyPart = s.readyPart ∧ (s.lockFor cfg st).votePart = s.votePart := by
  unfold lockFor recordLock
  split
  · split
    · split <;> exact ⟨rfl, rfl, rfl⟩
    · exact ⟨rfl, rfl, rfl⟩
  · exact ⟨rfl, rfl, rfl⟩

theorem respondEcho_parts (st : EchoStatement S view) (s : Statements S view) :
    (s.respondEcho cfg st).readyPart = s.readyPart ∧
      (s.respondEcho cfg st).votePart = s.votePart := by
  unfold respondEcho countOwnEcho countEchoStatement
  split
  · exact (lockFor_parts cfg st s).2
  · obtain ⟨hr, hv⟩ := enterEcho_parts cfg cfg.name st
      { s.lockFor cfg st with echoSent := true }
    exact ⟨hr.trans (lockFor_parts cfg st s).2.1, hv.trans (lockFor_parts cfg st s).2.2⟩

omit [LinearOrder K] in
theorem recheckLockRelease_parts (s : Statements S view) :
    (s.recheckLockRelease cfg).readyPart = s.readyPart ∧
      (s.recheckLockRelease cfg).votePart = s.votePart := by
  unfold Statements.recheckLockRelease
  split
  · split <;> exact ⟨rfl, rfl⟩
  · exact ⟨rfl, rfl⟩

theorem countReadyStatement_parts {q : K} (h : s.countReadyStatement cfg q st = some s') :
    s'.echoPart = s.echoPart ∧ s'.votePart = s.votePart := by
  rcases countReadyStatement_cases h with ⟨-, rfl⟩ | ⟨_, _, _, _, -, -, -, -, -, rfl⟩
  · cases st <;> exact ⟨rfl, rfl⟩
  · exact ⟨rfl, rfl⟩

theorem respondReady_parts (st : ReadyStatement S view) (s : Statements S view) :
    (s.respondReady cfg st).echoPart = s.echoPart ∧
      (s.respondReady cfg st).votePart = s.votePart := by
  unfold respondReady countOwnReady
  generalize hc : countReadyStatement cfg cfg.name st _ = r
  cases r with
  | none => exact ⟨rfl, rfl⟩
  | some s' =>
    have h := countReadyStatement_parts hc
    exact h

omit [LinearOrder K] [LinearOrder D] in
theorem finalizeMixIfClosed_parts (cfg : Config K) (deadline : Bool) (s : Statements S view) :
    (s.finalizeMixIfClosed cfg deadline).echoPart = s.echoPart ∧
      (s.finalizeMixIfClosed cfg deadline).readyPart = s.readyPart ∧
      (s.finalizeMixIfClosed cfg deadline).votePart = s.votePart := by
  unfold finalizeMixIfClosed
  split <;> exact ⟨rfl, rfl, rfl⟩

/-! ### The own echo along a step -/

theorem OwnEcho.congr (h : s.OwnEcho cfg out) (he : s'.echoPart = s.echoPart) :
    s'.OwnEcho cfg out := by
  simp only [echoPart, Prod.mk.injEq] at he
  obtain ⟨hsent, hstmts, htallies, -, hlock⟩ := he
  have hn : ∀ d, s'.nonmatchingEchoCount d = s.nonmatchingEchoCount d := by
    intro d
    unfold nonmatchingEchoCount matchingEchoCount
    rw [hstmts, htallies]
  refine ⟨?_, ?_, ?_, ?_, ?_, ?_⟩
  · rw [hstmts, hsent]; exact h.sent
  · rw [hstmts]; exact h.recorded
  · rw [hstmts]; exact h.said
  · rw [hstmts, hlock]; exact h.lockOf
  · rw [hstmts, hlock]; exact h.locked
  · rw [hlock]
    intro l hl ha
    rw [hn]
    exact h.released l hl ha

omit [LinearOrder K] in
/-- Exactly the own grade-1 echo records a lock, with the activity its count permits. -/
theorem lockFor_lock {st : EchoStatement S view} (hl : s.lock = none)
    (l : Lock S view) : (s.lockFor cfg st).lock = some l ↔
      ∃ b origin, st = .graded b 1 origin ∧
        l = ⟨b, decide (s.nonmatchingEchoCount b.digest < cfg.fPlus1Parties)⟩ := by
  cases st with
  | skip => simp [lockFor, hl]
  | graded b grade origin =>
    by_cases hg : grade = 1
    · subst hg
      simp [lockFor, recordLock, hl, eq_comm]
    · simp [lockFor, hl, hg]

theorem OwnEcho.respondEcho (h : s.OwnEcho cfg out) (hs : s.echoSent = false)
    (st : EchoStatement S view) :
    (s.respondEcho cfg st).OwnEcho cfg (out ++ [ownEchoEffect cfg st]) := by
  obtain ⟨hn, hlock, hno⟩ := h.fresh hs
  have heq : s.respondEcho cfg st =
      ({ s.lockFor cfg st with echoSent := true } : Statements S view).enterEcho cfg cfg.name
        st := by
    unfold Statements.respondEcho countOwnEcho countEchoStatement
    rw [if_neg]
    · rfl
    · dsimp only
      rwa [(lockFor_parts cfg st s).1]
  have hl : (s.respondEcho cfg st).echoStatements.lookup cfg.name = some st := by
    rw [heq, enterEcho_echoStatements, AList.lookup_insert]
  have hlk : (s.respondEcho cfg st).lock = (s.lockFor cfg st).lock := by
    rw [heq, (enterEcho_lock cfg cfg.name st _).1]
  refine ⟨fun _ => ?_, fun st' hst' => ?_, fun st' hst' => ?_, fun l hl' => ?_,
    fun b origin hb => ?_, fun l hl' ha => ?_⟩
  · rw [heq, (enterEcho_lock cfg cfg.name st _).2]
  · rcases saidEcho_split hst' with h' | h'
    · exact absurd h' (hno st')
    · exact ⟨st, hl, saidEcho_ownEchoEffect cfg h'⟩
  · rw [hl] at hst'
    cases hst'
    exact saidEcho_self cfg out st
  · rw [hlk, lockFor_lock hlock] at hl'
    obtain ⟨b, origin, rfl, rfl⟩ := hl'
    exact ⟨origin, hl⟩
  · rw [hl] at hb
    cases hb
    exact ⟨_, by rw [hlk, lockFor_lock hlock]; exact ⟨b, origin, rfl, rfl⟩, rfl⟩
  · rw [hlk, lockFor_lock hlock] at hl'
    obtain ⟨b, origin, rfl, rfl⟩ := hl'
    simp only [decide_eq_false_iff_not, not_lt] at ha
    exact ha.trans ((respondEcho_grows _ s).nonmatching _)

theorem OwnEcho.recheckLockRelease (h : s.OwnEcho cfg out) :
    (s.recheckLockRelease cfg).OwnEcho cfg out := by
  unfold Statements.recheckLockRelease
  split
  · next lock hlock =>
    split
    · next hr =>
      simp only [Bool.and_eq_true, decide_eq_true_eq] at hr
      exact
        { h with
          lockOf := by
            intro l hl
            cases hl
            exact h.lockOf lock hlock
          locked := by
            intro b origin hb
            obtain ⟨l, hl, rfl⟩ := h.locked b origin hb
            rw [hlock] at hl
            cases hl
            exact ⟨_, rfl, rfl⟩
          released := by
            intro l hl _
            cases hl
            exact hr.2 }
    · exact h
  · exact h

omit [LinearOrder K] [LinearOrder D] in
theorem quiet_not_echo {x : Effect K D} (h : x.isQuiet = true) : x.isEchoOf view = false := by
  cases x <;> first | rfl | cases h

theorem OwnEcho.frame (h : s.OwnEcho cfg out) (he : s'.echoPart = s.echoPart)
    (hes : ∀ x ∈ es, x.isEchoOf view = false) : s'.OwnEcho cfg (out ++ es) :=
  (h.congr he).append hes

theorem OwnEcho.of_step (h : s.OwnEcho cfg out) (hI : I.Echoed cfg out)
    (hs : StmtStep cfg I s es s') : s'.OwnEcho cfg (out ++ es) := by
  cases hs with
  | quiet hq => exact h.append fun x hx => quiet_not_echo (hq x hx)
  | recvEcho q st hst hq => exact (h.enterEcho (h.ne_name hI hst hq) hq st).silent
  | ownEcho st hs => exact h.respondEcho hs st
  | releaseLock => exact h.recheckLockRelease.silent
  | ownReady _ _ => exact h.frame (respondReady_parts _ s).1 (by simp [Effect.isEchoOf])
  | refine _ hs => exact h.frame (countReadyStatement_parts hs).1 (by simp [Effect.isEchoOf])
  | closeMix deadline => exact (h.congr (finalizeMixIfClosed_parts cfg deadline s).1).silent
  | ownNoReady _ => exact h.frame (respondReady_parts _ s).1 (by simp [Effect.isEchoOf])
  | recvReady q st _ hs => exact (h.congr (countReadyStatement_parts hs).1).silent
  | complete _ _ _ =>
    refine h.frame rfl fun x hx => ?_
    rcases ViewState.mem_completionEffects hx with hq | rfl
    · exact quiet_not_echo hq
    · rfl
  | sealView _ _ => exact h.frame rfl (by simp [Effect.isEchoOf])
  | skipVote _ => exact h.frame rfl (by simp [Effect.isEchoOf])
  | recvSkipVote q _ => exact h.frame rfl (by simp)
  | claimNonSkip _ => exact h.frame rfl (by simp)

end Statements

end Vantage
