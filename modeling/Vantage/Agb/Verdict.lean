import Vantage.Agb.Commit
import Vantage.Agb.Once

/-!
# Verdicts on resolver votes are final

The verdict `never` on a fresh value is given for a reason that no later call removes, and skip
votes and accepted non-skip values exclude each other.

* `Refuses.of_step`, `Refuses.gcBelow`: the reasons are stable;
* `AgbParty.verdict_final`: the verdicts along every run in which nobody else speaks in the name of
  the party; `AgbParty.forged_answers_reopen`: a run in which somebody does.
-/

namespace Vantage

variable {K D : Type} [LinearOrder K] [LinearOrder D] {S : Session K D} {view : ℕ}

namespace Statements

/-- The own answers are closed, no active lock delays the check, and the own READY speaks against
the entry. -/
structure Contradicts (cfg : Config K) (s : Statements S view) (entry : ResolutionEntry K D) :
    Prop where
  echoed : ∃ st, s.echoStatements.lookup cfg.name = some st
  ready : ∃ r, s.readyStatements.lookup cfg.name = some r ∧ ¬r.Fits entry
  closed : s.readyMixOpen = false
  lock : ∀ l, s.lock = some l → l.active = true →
    ∃ u, entry = .full u l.body.proposal.c l.body.proposal.t

variable {cfg : Config K} {I : Inputs S view} {s s' : Statements S view}
  {out es : List (Effect K D)} {entry : ResolutionEntry K D}

theorem Contradicts.of_step (h : s.Contradicts cfg entry) (ho : s.Own cfg I out)
    (hI : I.Echoed cfg out) (hs : StmtStep cfg I s es s') : s'.Contradicts cfg entry := by
  obtain ⟨hechoed, hready, hclosed, hlock⟩ := closed_of_step ho hI hs h.echoed h.ready h.closed
  refine ⟨hechoed, hready, hclosed, fun l' hl' hactive => ?_⟩
  obtain ⟨l, hl, hbody, hact⟩ := hlock l' hl' hactive
  rw [← hbody]
  exact h.lock l hl hact

end Statements

namespace AgbEngine

variable {cfg : Config K} {I : ∀ view, Inputs S view} {e e' : AgbEngine S}
  {out es : List (Effect K D)} {entry : ResolutionEntry K D}

/-! ### The reasons of a refusal -/

theorem lockExcludes_eq_false {s : Statements S view} :
    (s.lock.any fun lock =>
      lock.active &&
        match entry with
        | .full _ c t => !decide (lock.body.proposal.c = c ∧ lock.body.proposal.t = t)
        | _ => true) = false ↔
      ∀ l, s.lock = some l → l.active = true →
        ∃ u, entry = .full u l.body.proposal.c l.body.proposal.t := by
  cases hl : s.lock with
  | none => simp
  | some l =>
    cases hact : l.active with
    | false => simp [hact]
    | true =>
      cases entry with
      | full u c t =>
        simp only [Option.any_some, hact, Bool.true_and, Bool.not_eq_false', decide_eq_true_eq]
        refine ⟨?_, fun h => ?_⟩
        · rintro ⟨rfl, rfl⟩ l' hl' -
          cases hl'
          exact ⟨u, rfl⟩
        · obtain ⟨_, h⟩ := h l rfl hact
          cases h
          exact ⟨rfl, rfl⟩
      | core => simp [hact]
      | skip => simp [hact]

/-- The metadata gate refuses for good exactly if closed answers contradict the entry. -/
theorem metaEntryStatus_never_iff {lm : Lanes K D} (hp : e.isPruned entry.targetView = false) :
    e.metaEntryStatus cfg lm entry = .never ↔
      (e.state entry.targetView).toStatements.Contradicts cfg entry := by
  unfold metaEntryStatus
  rw [if_neg (by simp [hp])]
  dsimp only
  split
  · next st r hst hr =>
    have hready : (∃ r', (e.state entry.targetView).readyStatements.lookup cfg.name = some r' ∧
        ¬r'.Fits entry) ↔ ¬r.Fits entry := by
      rw [hr]
      simp
    by_cases hmix : (e.state entry.targetView).readyMixOpen = true
    · rw [if_pos hmix]
      refine ⟨nofun, fun h => ?_⟩
      rw [h.closed] at hmix
      cases hmix
    rw [if_neg hmix, ite_eq_iff, or_iff_right fun h => nomatch h.2]
    refine Iff.trans (and_congr_right fun _ => (?_ : _ ↔ ¬r.Fits entry)) ?_
    · cases entry with
      | full u c t =>
        cases r with
        | noReady =>
          simp only [ReadyStatement.Fits, Bool.false_eq_true, if_false]
          split <;> simp
        | graded b grade =>
          by_cases hzero : grade = .zero <;>
            by_cases hc : b.proposal.c = c ∧ b.proposal.t = t <;>
            simp [ReadyStatement.Fits, hzero, hc]
          split <;> simp
      | core u c t =>
        cases r with
        | noReady =>
          simp only [ReadyStatement.Fits, Bool.false_eq_true, if_false]
          split <;> simp
        | graded b grade =>
          by_cases hone : grade = .one <;>
            by_cases hc : b.proposal.c = c ∧ b.proposal.t = t <;>
            simp [ReadyStatement.Fits, hone, hc]
          split <;> simp
      | skip u => cases r <;> simp [ReadyStatement.Fits]
    · rw [Bool.not_eq_true]
      exact ⟨fun ⟨hlock, hno⟩ => ⟨⟨st, hst⟩, hready.mpr hno, by simpa using hmix,
          lockExcludes_eq_false.mp hlock⟩,
        fun h => ⟨lockExcludes_eq_false.mpr h.lock, hready.mp h.ready⟩⟩
  · next hno =>
    refine ⟨nofun, fun h => ?_⟩
    obtain ⟨st, hst⟩ := h.echoed
    obtain ⟨r, hr, -⟩ := h.ready
    exact absurd hr (hno st r hst)

/-- Why a fresh value is refused for good: its target is pruned, sealed with another outcome, or
voted to be skipped, or the closed answers contradict it. -/
inductive Refuses (cfg : Config K) (e : AgbEngine S) (entry : ResolutionEntry K D) : Prop
  | pruned (h : e.isPruned entry.targetView = true)
  | sealed {o : Outcome K D} (h : (e.state entry.targetView).sealed = some o)
      (ho : sealCompatible o entry = false)
  | voted (hn : entry.isNonSkip = true) (h : (e.state entry.targetView).stance = .skipVoted)
  | contradicted (h : (e.state entry.targetView).toStatements.Contradicts cfg entry)

/-- Unless the target is sealed with another outcome, only a skip vote excludes an entry. -/
theorem stanceExcludes_iff (hp : e.isPruned entry.targetView = false)
    (hs : ∀ o, (e.state entry.targetView).sealed = some o → sealCompatible o entry = true) :
    e.stanceExcludes entry = true ↔
      entry.isNonSkip = true ∧ (e.state entry.targetView).stance = .skipVoted := by
  simp only [stanceExcludes, hp, Bool.not_false, Bool.and_true, Bool.and_eq_true, Bool.or_eq_true,
    decide_eq_true_eq]
  refine and_congr_right fun hn => or_iff_left fun hskip => ?_
  split at hskip
  · next hsealed =>
    cases entry with
    | full => exact Bool.false_ne_true (hs _ hsealed)
    | core => exact Bool.false_ne_true (hs _ hsealed)
    | skip => cases hn
  · cases hskip

/-- The verdict `never` on a fresh value does not depend on the lanes. -/
theorem verdict_never_iff {lm : Lanes K D} :
    (e.tryDirectResolutionVote cfg lm entry true).1 = .never ↔ e.Refuses cfg entry := by
  unfold tryDirectResolutionVote
  by_cases hp : e.isPruned entry.targetView = true
  · rw [if_pos hp]
    exact iff_of_true rfl (.pruned hp)
  have hp' : e.isPruned entry.targetView = false := by simpa using hp
  rw [if_neg hp, if_neg (by decide)]
  by_cases hseal : (e.state entry.targetView).sealed.any (fun o => !sealCompatible o entry) = true
  · rw [if_pos hseal]
    cases hs : (e.state entry.targetView).sealed with
    | none =>
      rw [hs] at hseal
      cases hseal
    | some o =>
      rw [hs] at hseal
      exact iff_of_true rfl (.sealed hs (by simpa using hseal))
  rw [if_neg hseal]
  have hcompat : ∀ o, (e.state entry.targetView).sealed = some o →
      sealCompatible o entry = true := by
    intro o ho
    rw [ho] at hseal
    simpa using hseal
  by_cases hstance : e.stanceExcludes entry = true
  · rw [if_pos hstance]
    obtain ⟨hn, hv⟩ := (stanceExcludes_iff hp' hcompat).mp hstance
    exact iff_of_true rfl (.voted hn hv)
  rw [if_neg hstance]
  have hmeta : e.Refuses cfg entry ↔ e.metaEntryStatus cfg lm entry = .never := by
    rw [metaEntryStatus_never_iff hp']
    refine ⟨fun h => ?_, .contradicted⟩
    cases h with
    | pruned h => exact absurd h hp
    | sealed h ho =>
      rw [hcompat _ h] at ho
      cases ho
    | voted hn h => exact absurd ((stanceExcludes_iff hp' hcompat).mpr ⟨hn, h⟩) hstance
    | contradicted h => exact h
  rw [hmeta]
  cases e.metaEntryStatus cfg lm entry <;> simp

/-! ### The reasons are stable -/

theorem Refuses.of_step (h : e.Refuses cfg entry) (ho : e.Own cfg I out)
    (hI : ∀ view, (I view).Echoed cfg out) (hs : Step cfg I e es e') : e'.Refuses cfg entry := by
  have hgrows := steps_grows (.single hs) entry.targetView
  obtain ⟨view, hp, hstep, hne, hmin⟩ := hs
  cases h with
  | pruned h =>
    refine .pruned ?_
    unfold isPruned at h ⊢
    rwa [hmin]
  | sealed h ho => exact .sealed (hgrows.sealed _ h) ho
  | voted hn h => exact .voted hn (by rw [hgrows.stance (by rw [h]; decide), h])
  | contradicted h =>
    refine .contradicted ?_
    by_cases hv : entry.targetView = view
    · subst hv
      exact h.of_step (ho _ hp) (hI _) hstep
    · rw [hne _ hv]
      exact h

theorem Refuses.gcBelow (h : e.Refuses cfg entry) (floor : ℕ) :
    (e.gcBelow floor).Refuses cfg entry := by
  cases hp : (e.gcBelow floor).isPruned entry.targetView with
  | true => exact .pruned hp
  | false =>
    obtain ⟨hstate, hp'⟩ := state_gcBelow hp
    cases h with
    | pruned h =>
      rw [hp'] at h
      cases h
    | sealed h ho => exact .sealed (by rw [hstate, h]) ho
    | voted hn h => exact .voted hn (by rw [hstate, h])
    | contradicted h => exact .contradicted (by rw [hstate]; exact h)

end AgbEngine

/-! ### Runs -/

namespace AgbParty

variable {cfg : Config K} {entry : ResolutionEntry K D}

def verdict (cfg : Config K) (lm : Lanes K D) (entry : ResolutionEntry K D) (p : AgbParty S) :
    DirectVoteDecision :=
  (p.engine.tryDirectResolutionVote cfg lm entry true).1

theorem refuses_kept (cfg : Config K) (entry : ResolutionEntry K D) :
    Kept cfg fun p : AgbParty S => p.engine.Refuses cfg entry where
  step _ _ _ _ hI ho h hs := h.of_step ho hI hs
  gc _ floor h := h.gcBelow floor

theorem verdict_of_voted {lm : Lanes K D} {p : AgbParty S} (ho : p.Own cfg)
    (hn : entry.isNonSkip = true) (hv : .broadcastSkipVote entry.targetView ∈ p.out)
    (origin : Option ℕ) : p.verdict cfg lm entry ≠ .accept origin := by
  intro h
  obtain ⟨hp, hstance, -⟩ := AgbEngine.accept_fresh h
  have hvoted := (ho _ hp).vote.said hv
  simp [AgbEngine.stanceExcludes, hn, hp, hvoted] at hstance

/-- A party that is committed to a full or core value and has not voted to skip its view. -/
def NonSkip (cfg : Config K) (entry : ResolutionEntry K D) (p : AgbParty S) : Prop :=
  p.engine.Committed cfg entry ∧ .broadcastSkipVote entry.targetView ∉ p.out

theorem nonSkip_kept (cfg : Config K) (hn : entry.isNonSkip = true) :
    Kept cfg (NonSkip (S := S) cfg entry) where
  step p I es e' hI ho h hs := by
    refine ⟨h.1.of_steps (.single hs) ho hI, fun hmem => ?_⟩
    rcases List.mem_append.mp hmem with hmem | hmem
    · exact h.2 hmem
    obtain ⟨view, hp, hstep, -, -⟩ := hs
    by_cases hv : entry.targetView = view
    · subst hv
      rcases Statements.step_votes hstep with hes | ⟨hready, -⟩
      · have := hes _ hmem
        simp [Effect.isVoteOf] at this
      · have hstance := (h.1 hp).stance hn
        rw [(Statements.readyForSkipVote_spec hready).1] at hstance
        cases hstance
    · have := hstep.isAbout_of_ne hv _ hmem
      simp [Effect.isAbout, Effect.isVoteOf] at this
  gc _ floor h := ⟨h.1.gcBelow floor, h.2⟩

theorem take_vote (lm : Lanes K D) (entry : ResolutionEntry K D) (fresh : Bool)
    (p : AgbParty S) : p.take cfg (.vote lm entry fresh) =
      ⟨(p.engine.tryDirectResolutionVote cfg lm entry fresh).2, p.out⟩ := by
  simp [take, AgbEngine.call]

/-- Verdicts are final where nobody else speaks in the name of the party. Once the verdict on a
fresh value is `never`, it is `never` after every continuation, whatever the lanes answer. A party
that has voted to skip a view never afterwards accepts a fresh full or core value for it, and a
party that has accepted one never afterwards votes to skip the view. -/
theorem verdict_final (cfg : Config K) {cs : List (AgbCall K D)}
    (hcs : ({} : AgbParty S).Authentic cfg cs) (entry : ResolutionEntry K D) (lm : Lanes K D) :
    let p := ({} : AgbParty S).run cfg cs
    (p.verdict cfg lm entry = .never → ∀ cs', p.Authentic cfg cs' → ∀ lm',
      (p.run cfg cs').verdict cfg lm' entry = .never) ∧
    (entry.isNonSkip = true → .broadcastSkipVote entry.targetView ∈ p.out →
      ∀ cs', p.Authentic cfg cs' → ∀ lm' origin,
        (p.run cfg cs').verdict cfg lm' entry ≠ .accept origin) ∧
    (entry.isNonSkip = true → ∀ origin, p.verdict cfg lm entry = .accept origin →
      ∀ cs', (p.take cfg (.vote lm entry true)).Authentic cfg cs' →
        .broadcastSkipVote entry.targetView ∉
          ((p.take cfg (.vote lm entry true)).run cfg cs').out) := by
  intro p
  have ho : p.Own cfg := own_run hcs (own_init cfg)
  refine ⟨fun hnever cs' hcs' lm' => ?_, fun hn hv cs' hcs' lm' => ?_,
    fun hn origin hacc cs' hcs' => ?_⟩
  · have h := (invariant (refuses_kept cfg entry) hcs' ho
      (AgbEngine.verdict_never_iff.mp hnever)).2
    exact AgbEngine.verdict_never_iff.mpr h
  · exact verdict_of_voted (own_run hcs' ho) hn (mem_out_run cs' hv)
  · have hone : p.Authentic cfg [.vote lm entry true] := ⟨trivial, trivial⟩
    have ho' : (p.take cfg (.vote lm entry true)).Own cfg := own_run hone ho
    refine (invariant (nonSkip_kept cfg hn) hcs' ho' ?_).2.2
    rw [take_vote]
    exact ⟨AgbEngine.committed_of_accept hacc,
      fun hv => verdict_of_voted ho hn hv origin hacc⟩

theorem verdict_final_answerCalls :
    let p := ({} : AgbParty (.numbered 4)).run (.numbered 4 0) answerCalls
    (p.run (.numbered 4 0) [.gcBelow 2]).verdict (.numbered 4 0) .complete (.full 2 [] []) =
        .never ∧
      .broadcastSkipVote 1 ∉ ((p.take (.numbered 4 0) (.vote .complete (.full 1 [] []) true)).run
        (.numbered 4 0) [.readyTimer 1]).out := by
  have hcs : ({} : AgbParty (.numbered 4)).Authentic (.numbered 4 0) answerCalls := by
    simp [answerCalls, Authentic, AgbCall.Authentic, Config.numbered, EchoOut.sender]
  exact ⟨(verdict_final _ hcs (.full 2 [] []) .complete).1 (by decide +kernel) [.gcBelow 2]
      ⟨trivial, trivial⟩ .complete,
    (verdict_final _ hcs (.full 1 [] []) .complete).2.2 rfl (some 1) (by decide +kernel)
      [.readyTimer 1] ⟨trivial, trivial⟩⟩

/-- An echo and a READY of a proposal for view 1 in the name of party 0. -/
def forgedAnswers : List (AgbCall (Fin 4) ℕ) :=
  let p : ViewProposal (Fin 4) ℕ := ⟨1, [⟨1, 1, 7⟩], [], none⟩
  [.echo (.single ⟨p, 0, 0, none, none⟩), .ready (.single ⟨p, .zero, 0⟩)]

/-- Where links are not authenticated, answers in the name of the party are counted as its own, and
a value that contradicts them is refused for good.  When the party then echoes the proposal it
receives, its lock delays the check of that value, so the verdict becomes `notYet`. -/
theorem forged_answers_reopen :
    let p := ({} : AgbParty (.numbered 4)).run (.numbered 4 0) forgedAnswers
    let q := p.run (.numbered 4 0)
      [.enter .complete 1 0, .propose .complete 0 (.single ⟨1, [], [], none⟩) 0]
    p.verdict (.numbered 4 0) .complete (.core 1 [⟨0, 1, 3⟩] []) = .never ∧
      q.verdict (.numbered 4 0) .complete (.core 1 [⟨0, 1, 3⟩] []) = .notYet := by
  decide +kernel

end AgbParty

end Vantage
