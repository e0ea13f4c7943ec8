import Vantage.System.Responses
import Vantage.System.Script

/-!
# Seals of one view agree

* `DirectSeal`: what a seal by READYs, by echoes or by skip votes says about the own responses
  of the correct parties;
* `Responses.directSeal`: every seal that is not the resolver's has this evidence;
* `Responses.lock_active`: after a fast seal every correct party keeps its lock;
* `DirectSeal.unique`, `sealed_agree`: two such outcomes are equal.
-/

namespace Vantage

variable {K D : Type} [LinearOrder K] [LinearOrder D] [Inhabited D]

namespace Deployment

variable {d : Deployment K D}

/-- The evidence for an outcome in terms of own responses. -/
inductive DirectSeal (F : FaultModel K) (σ : ∀ q, Node d q) (view : ℕ) : Outcome K D → Prop
  | full (b : Body d.session view)
      (h : AtLeast F.members F.quorum fun q =>
        F.Correct q → ownReady σ view q = some (.graded b .one)) :
      DirectSeal F σ view (.full b.proposal.c b.proposal.t)
  | core (b : Body d.session view)
      (h : AtLeast F.members F.quorum fun q =>
        F.Correct q → ownReady σ view q = some (.graded b .zero)) :
      DirectSeal F σ view (.core b.proposal.c)
  | fast (b : Body d.session view)
      (h : ∀ q, F.Correct q → ∃ origin, ownEcho σ view q = some (.graded b 1 origin)) :
      DirectSeal F σ view (.full b.proposal.c b.proposal.t)
  | skip (h : AtLeast F.members F.quorum fun q =>
        F.Correct q → ((σ q).agb.state view).stance = .skipVoted) :
      DirectSeal F σ view .skip

variable {byzantine : Finset K} {F : FaultModel K} {σ : ∀ q, Node d q} {view : ℕ}
  {b : Body d.session view}

namespace Responses

variable (R : d.Responses byzantine F σ view) {p q : K}
include R

theorem fastQuorum (hp : F.Correct p)
    (hn : (d.cfg p).toConfig.n ≤ ((σ p).agb.state view).matchingEchoCount b.digest)
    (hq : F.Correct q) : ∃ origin, ownEcho σ view q = some (.graded b 1 origin) := by
  have hcount := (R.own p hp).exact.echoOneParties b.digest
  rw [R.size p] at hn
  unfold Statements.matchingEchoCount at hn
  rw [hcount, ← Table.count_eq_weight] at hn
  have hall : AtLeast F.members F.members.card fun k =>
      ∃ st, ((σ p).agb.state view).echoStatements.lookup k = some st ∧
        EchoStatement.names b.digest true st = true := by
    refine Table.atLeast_of_count hn fun k st hst hP => ⟨?_, st, hst, hP⟩
    by_cases hkp : k = p
    · exact hkp ▸ hp.1
    · exact (R.fits p).members ▸ ((R.own p hp).heard.echo k st hst hkp).1
  obtain ⟨st, hst, hP⟩ := hall.all hq.1
  obtain ⟨g, origin, hown, hg⟩ := R.heard_names hp hq hst hP
  obtain rfl := of_decide_eq_true hg
  exact ⟨origin, hown⟩

theorem skipQuorum (hp : F.Correct p)
    (hn : (d.cfg p).toConfig.quorumParties ≤ ((σ p).agb.state view).skipVoteStatements.card) :
    AtLeast F.members F.quorum fun q =>
      F.Correct q → ((σ q).agb.state view).stance = .skipVoted := by
  rw [(R.fits p).quorumParties] at hn
  refine ⟨_, fun k hk => ?_, hn, fun k hk hc => R.heard_vote hp hc hk⟩
  by_cases hkp : k = p
  · exact hkp ▸ hp.1
  · exact (R.fits p).members ▸ ((R.own p hp).heard.skipVote k hk hkp).1

theorem directSeal (hp : F.Correct p) {o : Outcome K D} {route : Route}
    (h : .sealed view o route ∈ (σ p).out) (hr : route.isResolver = false) :
    DirectSeal F σ view o := by
  have hex := (R.own p hp).exact
  cases ((R.own p hp).evidence.sealed o route h).1 with
  | @directFull dig tally ht hq =>
    have hone := hex.readyOne dig
    rw [ht] at hone
    rw [R.quorum p, show tally.gradeOne = _ from hone] at hq
    exact .full tally.body (R.readyQuorum hp (by decide) ht hq)
  | @directCore dig tally ht hq =>
    have hzero := hex.readyZero dig
    rw [ht] at hzero
    rw [R.quorum p, show tally.gradeZero = _ from hzero] at hq
    exact .core tally.body (R.readyQuorum hp (by decide) ht hq)
  | fastFull hl hn => exact .fast _ fun q hq => R.fastQuorum hp hn hq
  | voteSkip hq => exact .skip (R.skipQuorum hp hq)
  | resolver hres =>
    rw [hr] at hres
    cases hres

theorem noReady_of_voted (hq : F.Correct q)
    (h : ((σ q).agb.state view).stance = .skipVoted) : ownReady σ view q = some .noReady :=
  ((R.own q hq).vote.voted h).1

theorem echoSkip_of_voted (hq : F.Correct q)
    (h : ((σ q).agb.state view).stance = .skipVoted) :
    ∃ k, F.Correct k ∧ ownEcho σ view k = some .skip := by
  have hcount := ((R.own q hq).vote.voted h).2
  rw [(R.own q hq).exact.echoSkip, (R.fits q).quorumParties] at hcount
  have hat : AtLeast F.members F.quorum fun k =>
      ∃ st, ((σ q).agb.state view).echoStatements.lookup k = some st ∧
        EchoStatement.isSkip st = true := by
    refine Table.atLeast_of_count hcount fun k st hst hP => ⟨?_, st, hst, hP⟩
    by_cases hkq : k = q
    · exact hkq ▸ hq.1
    · exact (R.fits q).members ▸ ((R.own q hq).heard.echo k st hst hkq).1
  obtain ⟨k, hk, st, hst, hP⟩ := FaultModel.atLeast_correct hat FaultModel.f_lt_quorum
  obtain ⟨st', hst', hsame⟩ := R.heard_echo hq hk hst
  cases st with
  | graded => cases hP
  | skip =>
    cases st' with
    | graded => exact hsame.elim
    | skip => exact ⟨k, hk, hst'⟩

/-- The body of a READY is the body all correct parties have echoed, and the READY is not of
grade 0. -/
theorem ready_of_fast {b b' : Body d.session view} {grade : ReadyGrade}
    (hfast : ∀ q, F.Correct q → ∃ origin, ownEcho σ view q = some (.graded b 1 origin))
    (hq : F.Correct q) (h : ownReady σ view q = some (.graded b' grade)) :
    b' = b ∧ grade ≠ .zero := by
  obtain ⟨k, hk, hecho⟩ :=
    FaultModel.atLeast_correct (R.echoed_of_ready hq h) FaultModel.f_lt_quorum
  obtain ⟨g, origin, hown, -, hzero⟩ := hecho hk
  obtain ⟨origin', hown'⟩ := hfast k hk
  rw [hown] at hown'
  cases hown'
  exact ⟨rfl, fun hg => hzero hg rfl⟩

/-- If all correct parties have echoed a body with grade 1, they keep their locks on it: the
echoes against it come from Byzantine parties only. -/
theorem lock_active
    (hfast : ∀ q, F.Correct q → ∃ origin, ownEcho σ view q = some (.graded b 1 origin))
    (hq : F.Correct q) :
    ∃ l, ((σ q).agb.state view).lock = some l ∧ l.body = b ∧ l.active = true := by
  obtain ⟨origin, hecho⟩ := hfast q hq
  obtain ⟨l, hl, rfl⟩ := (R.own q hq).echo.locked b origin hecho
  refine ⟨l, hl, rfl, ?_⟩
  by_contra hno
  have hrel := (R.own q hq).echo.released l hl (by simpa using hno)
  rw [(R.fits q).fPlus1Parties] at hrel
  set es := ((σ q).agb.state view).echoStatements with hes
  have hsub : Table.keysWhere (fun _ => true) es \
      Table.keysWhere (EchoStatement.names l.body.digest true) es ⊆ F.members ∩ F.faulty := by
    intro k hk
    obtain ⟨hk, hkn⟩ := Finset.mem_sdiff.mp hk
    obtain ⟨st, hst, -⟩ := Table.mem_keysWhere.mp hk
    have hmem : k ∈ F.members := by
      by_cases hkq : k = q
      · exact hkq ▸ hq.1
      · exact (R.fits q).members ▸ ((R.own q hq).heard.echo k st hst hkq).1
    refine Finset.mem_inter.mpr ⟨hmem, by_contra fun hc => hkn ?_⟩
    obtain ⟨st', hst', hsame⟩ := R.heard_echo hq ⟨hmem, hc⟩ hst
    obtain ⟨o, ho⟩ := hfast k ⟨hmem, hc⟩
    rw [ho] at hst'
    cases hst'
    cases st with
    | skip => exact hsame.elim
    | graded b' g' o' =>
      obtain ⟨rfl, rfl⟩ := hsame
      exact Table.mem_keysWhere.mpr ⟨_, hst, by simp [EchoStatement.names]⟩
  have hcard := (Finset.card_le_card hsub).trans F.faulty_card_le
  have hsize := Finset.le_card_sdiff (Table.keysWhere (EchoStatement.names l.body.digest true) es)
    (Table.keysWhere (fun _ => true) es)
  have hmatch := (R.own q hq).exact.echoOneParties l.body.digest
  rw [← Table.count_eq_weight] at hmatch
  unfold Statements.nonmatchingEchoCount Statements.matchingEchoCount at hrel
  rw [hmatch, ← hes, ← Table.count_true] at hrel
  unfold Table.count at hrel
  omega

end Responses

/-- The outcome a quorum of such READYs seals. -/
def readyOutcome {S : Session K D} : ReadyStatement S view → Option (Outcome K D)
  | .graded b .one => some (.full b.proposal.c b.proposal.t)
  | .graded b .zero => some (.core b.proposal.c)
  | .graded _ .mix => none
  | .noReady => some .skip

namespace DirectSeal

variable (R : d.Responses byzantine F σ view) {o o' : Outcome K D}
include R

theorem ready_or_fast (h : DirectSeal F σ view o) :
    (AtLeast F.members F.quorum fun q => F.Correct q →
      (ownReady σ view q).bind readyOutcome = some o) ∨
    ∃ b : Body d.session view, o = .full b.proposal.c b.proposal.t ∧
      ∀ q, F.Correct q → ∃ origin, ownEcho σ view q = some (.graded b 1 origin) := by
  cases h with
  | full b h =>
    refine .inl (h.mono fun q _ hq hc => ?_)
    rw [hq hc]
    rfl
  | core b h =>
    refine .inl (h.mono fun q _ hq hc => ?_)
    rw [hq hc]
    rfl
  | fast b h => exact .inr ⟨b, rfl, h⟩
  | skip h =>
    refine .inl (h.mono fun q _ hq hc => ?_)
    rw [R.noReady_of_voted hc (hq hc)]
    rfl

theorem eq_of_fast
    (hfast : ∀ q, F.Correct q → ∃ origin, ownEcho σ view q = some (.graded b 1 origin))
    (h : DirectSeal F σ view o) : o = .full b.proposal.c b.proposal.t := by
  cases h with
  | full b' h =>
    obtain ⟨q, hq, hr⟩ := FaultModel.atLeast_correct h FaultModel.f_lt_quorum
    rw [(R.ready_of_fast hfast hq (hr hq)).1]
  | core b' h =>
    obtain ⟨q, hq, hr⟩ := FaultModel.atLeast_correct h FaultModel.f_lt_quorum
    exact absurd rfl (R.ready_of_fast hfast hq (hr hq)).2
  | fast b' h =>
    obtain ⟨q, -, hq⟩ := FaultModel.quorum_correct (F := F) subset_rfl (Nat.sub_le _ _)
    obtain ⟨origin, h1⟩ := hfast q hq
    obtain ⟨origin', h2⟩ := h q hq
    rw [h1] at h2
    cases h2
    rfl
  | skip h =>
    obtain ⟨q, hq, hv⟩ := FaultModel.atLeast_correct h FaultModel.f_lt_quorum
    obtain ⟨k, hk, hskip⟩ := R.echoSkip_of_voted hq (hv hq)
    obtain ⟨origin, hecho⟩ := hfast k hk
    rw [hskip] at hecho
    cases hecho

theorem unique (h : DirectSeal F σ view o) (h' : DirectSeal F σ view o') : o = o' := by
  rcases h.ready_or_fast R with hr | ⟨b, rfl, hfast⟩
  · rcases h'.ready_or_fast R with hr' | ⟨b, rfl, hfast⟩
    · obtain ⟨q, hq, h1, h2⟩ := FaultModel.atLeast_inter hr hr'
      exact Option.some.inj ((h1 hq).symm.trans (h2 hq))
    · exact h.eq_of_fast R hfast
  · exact (h'.eq_of_fast R hfast).symm

end DirectSeal

/-- Same-view seal agreement: whatever the interleaving, two correct nodes that seal a view by
READYs, by echoes or by skip votes seal the same outcome, as long as no correct node has pruned
the view. -/
theorem sealed_agree (d : Deployment K D) (hS : d.session.hash.CollisionFree)
    (hu : d.committee.UnitStakes) (byzantine : Finset K)
    (hb : (d.committee.authorities ∩ byzantine).card ≤
      (Thresholds.fromPartyCount d.committee.size).fParties)
    {σ : ∀ q, Node d q} (hσ : d.Reachable byzantine σ) {view : ℕ}
    (hv : ∀ p ∈ d.committee.authorities, p ∉ byzantine → (σ p).agb.isPruned view = false)
    {p q : K} (hp : p ∈ d.committee.authorities) (hp' : p ∉ byzantine)
    (hq : q ∈ d.committee.authorities) (hq' : q ∉ byzantine) {o₁ o₂ : Outcome K D}
    {route₁ route₂ : Route} (hr₁ : route₁.isResolver = false) (hr₂ : route₂.isResolver = false)
    (h₁ : .sealed view o₁ route₁ ∈ (σ p).out) (h₂ : .sealed view o₂ route₂ ∈ (σ q).out) :
    o₁ = o₂ := by
  have R := hσ.responses hS hb hu hv
  exact (R.directSeal ⟨hp, hp'⟩ h₁ hr₁).unique R (R.directSeal ⟨hq, hq'⟩ h₂ hr₂)

/-- Party 3 of four is Byzantine and party 2 is silent. The timers of parties 0 and 1 expire in
view 1, and both skip it by votes. -/
def skipScript : List (Event (Fin 4) ℕ) :=
  [.take 0 (.agbTimer 1 .echoAbsolute), .take 0 (.agbTimer 1 .readyAbsolute),
    .take 1 (.agbTimer 1 .echoAbsolute), .take 1 (.agbTimer 1 .readyAbsolute),
    .take 0 (.echoSkip 1 1), .take 0 (.echoSkip 1 3),
    .take 1 (.echoSkip 1 0), .take 1 (.echoSkip 1 3),
    .take 0 (.skipVote 1 1), .take 0 (.skipVote 1 3),
    .take 1 (.skipVote 1 0), .take 1 (.skipVote 1 3)]

theorem sealed_agree_skipScript :
    (numbered 4).Playable {3} (fun _ => {}) skipScript ∧
    .sealed 1 .skip .voteSkip ∈ ((numbered 4).play (fun _ => {}) skipScript 0).out ∧
    .sealed 1 .skip .voteSkip ∈ ((numbered 4).play (fun _ => {}) skipScript 1).out ∧
    (.skip : Outcome (Fin 4) ℕ) = .skip := by
  have hs : (numbered 4).Playable {3} (fun _ => {}) skipScript := by decide +kernel
  have h₀ : .sealed 1 .skip .voteSkip ∈ ((numbered 4).play (fun _ => {}) skipScript 0).out := by
    decide +kernel
  have h₁ : .sealed 1 .skip .voteSkip ∈ ((numbered 4).play (fun _ => {}) skipScript 1).out := by
    decide +kernel
  exact ⟨hs, h₀, h₁, sealed_agree (numbered 4) (numbered_collisionFree 4) (numbered_unitStakes 4)
    {3} (by decide) (Reachable.init.play hs) (by decide +kernel) (by decide) (by decide)
    (by decide) (by decide) rfl rfl h₀ h₁⟩

end Deployment

end Vantage
