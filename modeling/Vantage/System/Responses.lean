import Vantage.System.Invariant

/-!
# The own responses of the correct parties

What the tables of one correct party say about the own echo, the own READY and the skip vote
of the others, in a view that no correct party has pruned.

* `Deployment.ownEcho`, `Deployment.ownReady`: the own responses;
* `Responses.heard_echo`, `heard_ready`, `heard_vote`: a counted statement of a correct party is
  its own response, up to a refinement;
* `Responses.readyQuorum`, `Responses.skipQuorum`, `Responses.fastQuorum`: the seals.
-/

namespace Vantage

variable {K D : Type} [LinearOrder K] [LinearOrder D] [Inhabited D]

namespace Deployment

variable {d : Deployment K D}

def ownEcho (σ : ∀ q, Node d q) (view : ℕ) (q : K) : Option (EchoStatement d.session view) :=
  ((σ q).agb.state view).echoStatements.lookup q

def ownReady (σ : ∀ q, Node d q) (view : ℕ) (q : K) : Option (ReadyStatement d.session view) :=
  ((σ q).agb.state view).readyStatements.lookup q

/-- Everything known about a view in a reachable state in which no correct party has pruned
it. -/
structure Responses (d : Deployment K D) (byzantine : Finset K) (F : FaultModel K)
    (σ : ∀ q, Node d q) (view : ℕ) : Prop where
  own : ∀ p, F.Correct p → ((σ p).agb.state view).toStatements.Own (d.cfg p).toConfig
    (d.agbInputs byzantine σ p view) (σ p).out
  faulty : F.faulty = byzantine
  fits : ∀ p, (d.cfg p).toConfig.Fits F
  quorum : ∀ p, (d.cfg p).toConfig.quorum = F.quorum
  size : ∀ p, (d.cfg p).toConfig.n = F.members.card
  stake_le : ∀ k, d.committee.stake k ≤ 1
  stake_zero : ∀ k, k ∉ F.members → d.committee.stake k = 0
  collisionFree : d.session.hash.CollisionFree

variable {byzantine : Finset K} {F : FaultModel K} {σ : ∀ q, Node d q} {view : ℕ}

theorem Reachable.responses (hS : d.session.hash.CollisionFree)
    (hb : (d.committee.authorities ∩ byzantine).card ≤
      (Thresholds.fromPartyCount d.committee.size).fParties)
    (hu : d.committee.UnitStakes) (h : d.Reachable byzantine σ)
    (hv : ∀ p ∈ d.committee.authorities, p ∉ byzantine → (σ p).agb.isPruned view = false) :
    d.Responses byzantine (d.faults byzantine hb) σ view where
  own p hp := (h.inv hS hb).agb p hp view (hv p hp.1 hp.2)
  faulty := rfl
  fits := d.fits byzantine hb
  quorum _ := d.committee.quorumThreshold_of_unitStakes hu
  size _ := rfl
  stake_le k := by
    unfold Committee.stake
    split
    · next hk => exact (hu k hk).le
    · exact Nat.zero_le _
  stake_zero k hk := if_neg hk
  collisionFree := hS

namespace Responses

variable (R : d.Responses byzantine F σ view) {p q : K} {b : Body d.session view}
include R

/-! ### Counted statements of correct parties -/

theorem heard_echo (hp : F.Correct p) (hq : F.Correct q) {st : EchoStatement d.session view}
    (h : ((σ p).agb.state view).echoStatements.lookup q = some st) :
    ∃ st', ownEcho σ view q = some st' ∧ st'.Same st := by
  have hsaid : SaidEcho (σ q).out st := by
    by_cases hqp : q = p
    · subst hqp
      exact (R.own q hq).echo.said st h
    · exact ((R.own p hp).heard.echo q st h hqp).2 (R.faulty ▸ hq.2)
  exact (R.own q hq).echo.recorded st hsaid

theorem heard_ready (hp : F.Correct p) (hq : F.Correct q) {st : ReadyStatement d.session view}
    (h : ((σ p).agb.state view).readyStatements.lookup q = some st) :
    ∃ st', ownReady σ view q = some st' ∧ Statements.ReadyUpTo st st' := by
  have hsaid : SaidReady (σ q).out st := by
    by_cases hqp : q = p
    · subst hqp
      exact (R.own q hq).ready.said st h
    · exact ((R.own p hp).heard.ready q st h hqp).2 (R.faulty ▸ hq.2)
  exact (R.own q hq).ready.recorded st hsaid

theorem heard_vote (hp : F.Correct p) (hq : F.Correct q)
    (h : q ∈ ((σ p).agb.state view).skipVoteStatements) :
    ((σ q).agb.state view).stance = .skipVoted := by
  have hsaid : Effect.broadcastSkipVote view ∈ (σ q).out := by
    by_cases hqp : q = p
    · subst hqp
      exact (R.own q hq).vote.counted h
    · exact ((R.own p hp).heard.skipVote q h hqp).2 (R.faulty ▸ hq.2)
  exact (R.own q hq).vote.said hsaid

theorem heard_graded (hp : F.Correct p) (hq : F.Correct q) {grade : ReadyGrade}
    (h : ((σ p).agb.state view).readyStatements.lookup q = some (.graded b grade)) :
    ∃ grade', ownReady σ view q = some (.graded b grade') ∧ (grade ≠ .mix → grade' = grade) := by
  obtain ⟨st', hst', hup⟩ := R.heard_ready hp hq h
  rcases hup with rfl | href
  · exact ⟨grade, hst', fun _ => rfl⟩
  · obtain ⟨b₁, b₂, g, h1, rfl, hd, -⟩ := Statements.isRefinement_iff.mp href
    cases h1
    rw [Body.ext_digest R.collisionFree hd]
    exact ⟨g, hst', fun hm => absurd rfl hm⟩

/-! ### Quorums of own responses -/

theorem atLeast_ready {P : ReadyStatement d.session view → Bool} {n : ℕ}
    (hn : n ≤ Table.weight d.committee.stake P ((σ p).agb.state view).readyStatements) :
    AtLeast F.members n fun q =>
      ∃ st, ((σ p).agb.state view).readyStatements.lookup q = some st ∧ P st = true :=
  Table.atLeast_of_weight R.stake_le R.stake_zero hn

theorem atLeast_echo {P : EchoStatement d.session view → Bool} {n : ℕ}
    (hn : n ≤ Table.weight d.committee.stake P ((σ p).agb.state view).echoStatements) :
    AtLeast F.members n fun q =>
      ∃ st, ((σ p).agb.state view).echoStatements.lookup q = some st ∧ P st = true :=
  Table.atLeast_of_weight R.stake_le R.stake_zero hn

theorem readyQuorum (hp : F.Correct p) {dig : D} {tally : ReadyTally d.session view}
    {grade : ReadyGrade} (hg : grade ≠ .mix)
    (ht : ((σ p).agb.state view).readyTallies.lookup dig = some tally)
    (hw : F.quorum ≤ Table.weight d.committee.stake (ReadyStatement.hasGrade dig grade)
      ((σ p).agb.state view).readyStatements) :
    AtLeast F.members F.quorum fun q =>
      F.Correct q → ownReady σ view q = some (.graded tally.body grade) := by
  have hbody := (R.own p hp).exact.readyBody dig tally ht
  refine (R.atLeast_ready hw).mono fun q _ ⟨st, hst, hP⟩ hq => ?_
  cases st with
  | noReady => cases hP
  | graded b g =>
    simp only [ReadyStatement.hasGrade, Bool.and_eq_true, decide_eq_true_eq] at hP
    obtain ⟨g', hown, hg'⟩ := R.heard_graded hp hq hst
    rw [← Body.ext_digest R.collisionFree (hP.1.trans hbody.symm), hown, hg' (hP.2 ▸ hg), hP.2]

theorem completionQuorum (hp : F.Correct p) {c t : Manifest K D}
    (h : ((σ p).agb.state view).CompletionEvidence (d.cfg p).toConfig c t) :
    ∃ b : Body d.session view, b.proposal.c = c ∧ b.proposal.t = t ∧
      AtLeast F.members F.quorum fun q => F.Correct q →
        ∃ grade, ownReady σ view q = some (.graded b grade) := by
  obtain ⟨dig, tally, ht, hq, hc, ht'⟩ := h
  have hany := (R.own p hp).exact.readyAny dig
  have hbody := (R.own p hp).exact.readyBody dig tally ht
  rw [ht] at hany
  rw [R.quorum p, show tally.any = _ from hany] at hq
  refine ⟨tally.body, hc, ht', (R.atLeast_ready hq).mono fun q _ ⟨st, hst, hP⟩ hq' => ?_⟩
  cases st with
  | noReady => cases hP
  | graded b g =>
    have hd : b.digest = dig := of_decide_eq_true hP
    obtain ⟨g', hown, -⟩ := R.heard_graded hp hq' hst
    rw [← Body.ext_digest R.collisionFree (hd.trans hbody.symm)]
    exact ⟨g', hown⟩

theorem heard_names (hp : F.Correct p) (hq : F.Correct q) {one : Bool}
    {st : EchoStatement d.session view}
    (h : ((σ p).agb.state view).echoStatements.lookup q = some st)
    (hn : EchoStatement.names b.digest one st = true) :
    ∃ g origin, ownEcho σ view q = some (.graded b g origin) ∧ decide (g = 1) = one := by
  cases st with
  | skip => cases hn
  | graded b' g origin =>
    simp only [EchoStatement.names, Bool.and_eq_true, decide_eq_true_eq, beq_iff_eq] at hn
    obtain ⟨st', hst', hsame⟩ := R.heard_echo hp hq h
    cases st' with
    | skip => exact hsame.elim
    | graded b'' g' origin' =>
      obtain ⟨rfl, rfl⟩ := hsame
      rw [← Body.ext_digest R.collisionFree hn.1]
      exact ⟨g', origin', hst', hn.2⟩

/-- A READY rests on a quorum of echoes for its body, all of its grade unless it is mixed. -/
theorem echoed_of_ready (hq : F.Correct q) {grade : ReadyGrade}
    (h : ownReady σ view q = some (.graded b grade)) :
    AtLeast F.members F.quorum fun k => F.Correct k →
      ∃ g origin, ownEcho σ view k = some (.graded b g origin) ∧ (grade = .one → g = 1)
    ∧ (grade = .zero → g ≠ 1) := by
  obtain ⟨t, ht, hany, hone, hzero⟩ := (R.own q hq).ready.quorum b grade h
  have hex := (R.own q hq).exact
  have h1 := hex.echoOne b.digest
  have h0 := hex.echoZero b.digest
  rw [ht] at h1 h0
  change t.gradeOne = _ at h1
  change t.gradeZero = _ at h0
  rw [R.quorum q] at hany hone hzero
  cases grade with
  | one =>
    have hw := hone rfl
    rw [h1] at hw
    refine (R.atLeast_echo hw).mono fun k _ ⟨st, hst, hP⟩ hk => ?_
    obtain ⟨g, origin, hown, hg⟩ := R.heard_names hq hk hst hP
    exact ⟨g, origin, hown, fun _ => of_decide_eq_true hg, nofun⟩
  | zero =>
    have hw := hzero rfl
    rw [h0] at hw
    refine (R.atLeast_echo hw).mono fun k _ ⟨st, hst, hP⟩ hk => ?_
    obtain ⟨g, origin, hown, hg⟩ := R.heard_names hq hk hst hP
    exact ⟨g, origin, hown, nofun, fun _ => of_decide_eq_false hg⟩
  | mix =>
    rw [h1, h0, ← Table.weight_or] at hany
    · refine (R.atLeast_echo hany).mono fun k _ ⟨st, hst, hP⟩ hk => ?_
      rcases Bool.or_eq_true_iff.mp hP with hP | hP
      · obtain ⟨g, origin, hown, -⟩ := R.heard_names hq hk hst hP
        exact ⟨g, origin, hown, nofun, nofun⟩
      · obtain ⟨g, origin, hown, -⟩ := R.heard_names hq hk hst hP
        exact ⟨g, origin, hown, nofun, nofun⟩
    · intro st hst
      cases st with
      | skip => rfl
      | graded b' g origin =>
        simp only [EchoStatement.names, Bool.and_eq_true, beq_iff_eq] at hst ⊢
        rw [hst.2]
        simp

end Responses

end Deployment

end Vantage
