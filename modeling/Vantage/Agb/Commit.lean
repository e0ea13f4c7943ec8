import Vantage.Agb.Invariant

/-!
# What accepting a fresh resolver value commits a party to

A party that accepts a fresh value for a view has answered the view for good, and its answers,
its lock and its stance fit the value ever after.
-/

namespace Vantage

variable {K D : Type} [LinearOrder K] [LinearOrder D] {S : Session K D} {view : ℕ}

/-- A READY that does not speak against an entry. -/
def ReadyStatement.Fits (r : ReadyStatement S view) : ResolutionEntry K D → Prop
  | .full _ c t => ∀ b grade, r = .graded b grade →
    grade ≠ .zero ∧ b.proposal.c = c ∧ b.proposal.t = t
  | .core _ c t => ∀ b grade, r = .graded b grade →
    grade ≠ .one ∧ b.proposal.c = c ∧ b.proposal.t = t
  | .skip _ => r = .noReady

namespace Statements

/-- The own answers, the lock and the stance fit an entry for good. -/
structure Committed (cfg : Config K) (s : Statements S view) (entry : ResolutionEntry K D) :
    Prop where
  echoed : ∃ st, s.echoStatements.lookup cfg.name = some st
  ready : ∃ r, s.readyStatements.lookup cfg.name = some r ∧ r.Fits entry
  closed : s.readyMixOpen = false
  lock : ∀ l, s.lock = some l → l.active = true →
    ∃ u, entry = .full u l.body.proposal.c l.body.proposal.t
  stance : entry.isNonSkip = true → s.stance = .nonSkip

variable {cfg : Config K} {I J : Inputs S view} {s s' : Statements S view}
  {out es : List (Effect K D)} {entry : ResolutionEntry K D}

/-- Own answers that are closed stay as they are, with their lock: it belongs to the own echo, so
no lock appears and none becomes active again. -/
theorem closed_of_step {P : ReadyStatement S view → Prop} (ho : s.Own cfg I out)
    (hI : I.Echoed cfg out) (hs : StmtStep cfg I s es s')
    (hechoed : ∃ st, s.echoStatements.lookup cfg.name = some st)
    (hready : ∃ r, s.readyStatements.lookup cfg.name = some r ∧ P r)
    (hclosed : s.readyMixOpen = false) :
    (∃ st, s'.echoStatements.lookup cfg.name = some st) ∧
      (∃ r, s'.readyStatements.lookup cfg.name = some r ∧ P r) ∧ s'.readyMixOpen = false ∧
      ∀ l', s'.lock = some l' → l'.active = true →
        ∃ l, s.lock = some l ∧ l.body = l'.body ∧ l.active = true := by
  have hg := hs.grows
  obtain ⟨st, hst⟩ := hechoed
  obtain ⟨r, hr, hP⟩ := hready
  have hsent : s.readySent = true :=
    ho.ready.sent.mpr (AList.lookup_isSome.mp (by rw [hr]; rfl))
  refine ⟨⟨st, hg.echo _ st hst⟩, ⟨r, ?_, hP⟩, hg.mixClosed hsent hclosed, fun l' hl' hactive => ?_⟩
  · rw [own_ready_final ho.ready hI hs hsent hclosed, hr]
  · obtain ⟨origin, hecho⟩ := (ho.of_step hI hs).echo.lockOf l' hl'
    rw [hg.echo _ st hst] at hecho
    cases hecho
    obtain ⟨l, hl, hbody⟩ := ho.echo.locked l'.body origin hst
    obtain ⟨l'', hl'', -, hact⟩ := hg.lock l hl
    obtain rfl : l'' = l' := Option.some.inj (hl''.symm.trans hl')
    exact ⟨l, hl, hbody, hact hactive⟩

theorem Committed.of_step (h : s.Committed cfg entry) (ho : s.Own cfg I out)
    (hI : I.Echoed cfg out) (hs : StmtStep cfg I s es s') : s'.Committed cfg entry := by
  obtain ⟨hechoed, hready, hclosed, hlock⟩ := closed_of_step ho hI hs h.echoed h.ready h.closed
  refine ⟨hechoed, hready, hclosed, fun l' hl' hactive => ?_, fun hn => ?_⟩
  · obtain ⟨l, hl, hbody, hact⟩ := hlock l' hl' hactive
    rw [← hbody]
    exact h.lock l hl hact
  · have hstance := h.stance hn
    rw [hs.grows.stance (by rw [hstance]; decide), hstance]

end Statements

namespace AgbEngine

variable {cfg : Config K} {I : ∀ view, Inputs S view} {e e' : AgbEngine S}
  {out es : List (Effect K D)} {entry : ResolutionEntry K D}

/-- The party is committed to an entry, unless it has pruned the view. -/
def Committed (cfg : Config K) (e : AgbEngine S) (entry : ResolutionEntry K D) : Prop :=
  e.isPruned entry.targetView = false →
    (e.state entry.targetView).toStatements.Committed cfg entry

theorem Committed.of_steps (hs : Steps (Step cfg I) e es e') (h : e.Committed cfg entry)
    (ho : e.Own cfg I out) (hI : ∀ view, (I view).Echoed cfg out) : e'.Committed cfg entry := by
  induction hs generalizing out with
  | refl => exact h
  | @step e e₁ _ es₁ _ hstep _ ih =>
    refine ih ?_ (ho.of_step hI hstep) fun view => (hI view).append es₁
    obtain ⟨view, hp, hstep, hne, hmin⟩ := hstep
    intro hp'
    have hp₀ : e.isPruned entry.targetView = false := by
      unfold isPruned at hp' ⊢
      rwa [hmin] at hp'
    by_cases hv : entry.targetView = view
    · subst hv
      exact (h hp₀).of_step (ho _ hp₀) (hI _) hstep
    · rw [hne _ hv]
      exact h hp₀

omit [LinearOrder D] in
theorem Committed.gcBelow (h : e.Committed cfg entry) (floor : ℕ) :
    (e.gcBelow floor).Committed cfg entry := by
  intro hp
  obtain ⟨heq, hp'⟩ := state_gcBelow hp
  rw [heq]
  exact h hp'

/-- The gate passes only values that the own answers fit. -/
theorem metaEntryStatus_ok {lm : Lanes K D} (h : e.metaEntryStatus cfg lm entry = .ok) :
    let s := e.state entry.targetView
    (∃ st, s.echoStatements.lookup cfg.name = some st) ∧
    (∃ r, s.readyStatements.lookup cfg.name = some r ∧ r.Fits entry) ∧
    s.readyMixOpen = false ∧
    ∀ l, s.lock = some l → l.active = true →
      ∃ u, entry = .full u l.body.proposal.c l.body.proposal.t := by
  unfold metaEntryStatus at h
  split at h
  · cases h
  dsimp only at h ⊢
  split at h
  · next st r hst hr =>
    split at h
    · cases h
    next hmix =>
    rw [ite_eq_iff] at h
    obtain ⟨-, h⟩ | ⟨hlock, h⟩ := h
    · cases h
    refine ⟨⟨st, hst⟩, ⟨r, hr, ?_⟩, by simpa using hmix, fun l hl hactive => ?_⟩
    · cases entry with
      | full u c t =>
        rintro b grade rfl
        obtain ⟨-, h⟩ | ⟨hno, -⟩ := ite_eq_iff.mp h
        · cases h
        · simpa using hno
      | core u c t =>
        rintro b grade rfl
        obtain ⟨-, h⟩ | ⟨hno, -⟩ := ite_eq_iff.mp h
        · cases h
        · simpa using hno
      | skip u =>
        cases r with
        | noReady => rfl
        | graded => cases h
    · rw [hl, Option.any_some, hactive, Bool.true_and] at hlock
      cases entry with
      | full u c t =>
        obtain ⟨hc, ht⟩ : l.body.proposal.c = c ∧ l.body.proposal.t = t := by simpa using hlock
        exact ⟨u, by rw [hc, ht]⟩
      | core u c t => exact absurd rfl hlock
      | skip u => exact absurd rfl hlock
  · cases h

omit [LinearOrder K] [LinearOrder D] in
theorem state_claimNonSkip (e : AgbEngine S) (entry : ResolutionEntry K D) :
    (e.claimNonSkip entry).state entry.targetView =
      if entry.isNonSkip ∧ (e.state entry.targetView).stance = .free then
        { e.state entry.targetView with stance := .nonSkip }
      else e.state entry.targetView := by
  unfold claimNonSkip
  by_cases hn : entry.isNonSkip = true
  · rw [if_pos hn, state_setState_self]
    by_cases hf : (e.state entry.targetView).stance = .free
    · rw [if_pos hf, if_pos ⟨hn, hf⟩]
    · rw [if_neg hf, if_neg fun h => hf h.2]
  · rw [if_neg hn, if_neg fun h => hn h.1]

/-- An accepted fresh value has passed every check, and the non-skip stance is claimed for
it. -/
theorem accept_fresh {lm : Lanes K D} {origin : Option ℕ}
    (h : (e.tryDirectResolutionVote cfg lm entry true).1 = .accept origin) :
    e.isPruned entry.targetView = false ∧ e.stanceExcludes entry = false ∧
      e.metaEntryStatus cfg lm entry = .ok ∧
      (e.tryDirectResolutionVote cfg lm entry true).2 = e.claimNonSkip entry ∧
      origin = (e.claimNonSkip entry).computeOriginEntry cfg entry := by
  unfold tryDirectResolutionVote at h ⊢
  by_cases hp : e.isPruned entry.targetView = true
  · rw [if_pos hp] at h
    cases h
  rw [if_neg hp, if_neg (by decide)] at h ⊢
  by_cases hseal : (e.state entry.targetView).sealed.any (fun o => !sealCompatible o entry) = true
  · rw [if_pos hseal] at h
    cases h
  rw [if_neg hseal] at h ⊢
  by_cases hstance : e.stanceExcludes entry = true
  · rw [if_pos hstance] at h
    cases h
  rw [if_neg hstance] at h ⊢
  cases hm : e.metaEntryStatus cfg lm entry with
  | never =>
    rw [hm] at h
    cases h
  | notYet =>
    rw [hm] at h
    cases h
  | ok =>
    rw [hm] at h
    exact ⟨by simpa using hp, by simpa using hstance, rfl, rfl,
      (DirectVoteDecision.accept.inj h).symm⟩

theorem committed_of_accept {lm : Lanes K D} {origin : Option ℕ}
    (h : (e.tryDirectResolutionVote cfg lm entry true).1 = .accept origin) :
    (e.tryDirectResolutionVote cfg lm entry true).2.Committed cfg entry := by
  obtain ⟨hp, hstance, hok, he', -⟩ := accept_fresh h
  obtain ⟨hecho, hready, hmix, hlock⟩ := metaEntryStatus_ok hok
  rw [he']
  intro _
  rw [state_claimNonSkip]
  split
  · exact ⟨hecho, hready, hmix, hlock, fun _ => rfl⟩
  · next hno =>
    refine ⟨hecho, hready, hmix, hlock, fun hn => ?_⟩
    simp only [stanceExcludes, hn, hp, Bool.not_false, Bool.true_and, Bool.or_eq_false_iff,
      decide_eq_false_iff_not] at hstance
    cases hs : (e.state entry.targetView).stance with
    | free => exact absurd ⟨hn, hs⟩ hno
    | nonSkip => rfl
    | skipVoted => exact absurd hs hstance.1

/-- The payload of an own echo that gives an entry the origin bit one. -/
def OriginEcho (out : List (Effect K D)) (entry : ResolutionEntry K D) : Prop :=
  ∃ m, .broadcastEcho m ∈ out ∧ m.proposalOut.view = entry.targetView ∧
    match entry with
    | .full _ c t => m.proposalOut.c = c ∧ m.proposalOut.t = t ∧ m.grade = 1
    | .core _ c t => m.proposalOut.c = c ∧ m.proposalOut.t = t
    | .skip _ => False

omit [LinearOrder K] [LinearOrder D] in
theorem OriginEcho.append (h : OriginEcho out entry) (es : List (Effect K D)) :
    OriginEcho (out ++ es) entry := by
  obtain ⟨m, hm, h⟩ := h
  exact ⟨m, List.mem_append_left _ hm, h⟩

/-- The origin bit is one only for the payload of the own echo. -/
theorem originEcho_of_one (ho : e.Own cfg I out) (hp : e.isPruned entry.targetView = false)
    (h : e.computeOriginEntry cfg entry = some 1) : OriginEcho out entry := by
  have said := (ho _ hp).echo.said
  have graded : ∀ b grade origin,
      (e.state entry.targetView).echoStatements.lookup cfg.name =
        some (EchoStatement.graded b grade origin) →
      ∃ m, Effect.broadcastEcho m ∈ out ∧ m.proposalOut.view = entry.targetView ∧
        m.proposalOut = b.proposal ∧ m.grade = grade := by
    intro b grade origin hlookup
    obtain ⟨m, hm, hb, hg⟩ := said _ hlookup
    exact ⟨m, hm, by rw [hb, b.view_eq], hb, hg⟩
  unfold computeOriginEntry at h
  cases entry with
  | full u c t =>
    simp only at h
    split at h
    · next b grade origin hlookup =>
      obtain ⟨m, hm, hv, hb, hg⟩ := graded b grade origin hlookup
      split at h
      · next hc => exact ⟨m, hm, hv, by rw [hb]; exact hc.2.1, by rw [hb]; exact hc.2.2,
                 hg.trans hc.1⟩
      · cases h
    · cases h
  | core u c t =>
    simp only at h
    split at h
    · next b grade origin hlookup =>
      obtain ⟨m, hm, hv, hb, hg⟩ := graded b grade origin hlookup
      split at h
      · next hc => exact ⟨m, hm, hv, by rw [hb]; exact hc.1, by rw [hb]; exact hc.2⟩
      · cases h
    · cases h
  | skip u => cases h

end AgbEngine

end Vantage
