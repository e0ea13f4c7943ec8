import Mathlib.Data.List.MinMax
import Mathlib.Data.Prod.Lex
import Vantage.Autobahn.Messages

/-!
# The winner of a view change

`TC.getWinningProposal` takes the Confirm of the highest view that a timeout reports and the
Prepare of the highest view that `f + 1` timeouts report; the Prepare wins only with the higher
view.

* `slow_commit_wins`: a quorum of Confirm votes fixes the winner of every later view change;
* `fast_commit_wins`: the Prepare votes of everyone fix the winner exactly in the view changes whose
  certificate decides for the cut, by `f + 1` reports of one view or by the highest Confirm;
* `fast_commit_lost`: a certificate that does not, since reports of one cut from two views are
  counted apart.
-/

namespace Vantage.Autobahn

variable {K D S : Type} [LinearOrder K] [LinearOrder D] (A : Crypto K D S) (c : Committee K)

/-- A cut that may win, with the members whose evidence stands behind it. -/
structure ViewChangeCandidate (K D S : Type) where
  view : ℕ
  digest : D
  proposals : Cut K D S
  sources : List K

/-- Candidates are compared by view, and by digest within one view. -/
def ViewChangeCandidate.rank (q : ViewChangeCandidate K D S) : ℕ ×ₗ D := toLex (q.view, q.digest)

/-- `sort_unstable` and `dedup`. -/
def sortSources (l : List K) : List K := (l.insertionSort (· ≤ ·)).dedup

/-- The Confirm a timeout reports, its sources the members whose votes certify it. -/
def TC.reportedQc (tc : TC K D S) (t : Timeout K D S) : Option (ViewChangeCandidate K D S) :=
  match t.highQc with
  | some (.confirm slot view qc p) =>
    if slot = tc.slot then
      some ⟨view, (ConsensusMessage.confirm slot view qc p).digest A, p,
        sortSources (qc.votes.map Prod.fst)⟩
    else none
  | _ => none

/-- The Prepare a timeout reports, its only source the author. -/
def TC.reportedPrepare (tc : TC K D S) (t : Timeout K D S) :
    Option (ViewChangeCandidate K D S) :=
  match t.highProp with
  | some (.prepare slot view p) =>
    if slot = tc.slot ∧ view ≤ tc.view then
      some ⟨view, (ConsensusMessage.prepare slot view p).digest A, p, [t.author]⟩
    else none
  | _ => none

/-- The highest Confirm that a timeout reports. -/
def TC.highestQc (tc : TC K D S) : Option (ViewChangeCandidate K D S) :=
  (tc.timeouts.filterMap (tc.reportedQc A)).argmax ViewChangeCandidate.rank

/-- The reports with the view and the digest of `r`, as one candidate: the cut is that of the
first one. -/
def TC.reportsLike (tc : TC K D S) (r : ViewChangeCandidate K D S) :
    List (ViewChangeCandidate K D S) :=
  (tc.timeouts.filterMap (tc.reportedPrepare A)).filter fun q => q.rank = r.rank

/-- The highest Prepare that the reports of one view and digest carry to the availability stake. -/
def TC.highestPrepare (tc : TC K D S) : Option (ViewChangeCandidate K D S) :=
  ((tc.timeouts.filterMap (tc.reportedPrepare A)).filter fun r =>
      c.validityThreshold ≤ (((tc.reportsLike A r).flatMap (·.sources)).map c.stake).sum).argmax
    ViewChangeCandidate.rank |>.map fun r =>
      { r with sources := sortSources ((tc.reportsLike A r).flatMap (·.sources)) }

/-- The winner with its sources; the Confirm wins unless the Prepare has the higher view. -/
def TC.getWinningProposal (tc : TC K D S) : Option (Cut K D S × List K) :=
  match tc.highestQc A, tc.highestPrepare A c with
  | some qc, some prepare =>
    if qc.view < prepare.view then some (prepare.proposals, prepare.sources)
    else some (qc.proposals, qc.sources)
  | some qc, none => some (qc.proposals, qc.sources)
  | none, some prepare => some (prepare.proposals, prepare.sources)
  | none, none => none

/-- The cut that wins; empty if there is no winner. -/
def TC.getWinningProposals (tc : TC K D S) : Cut K D S :=
  ((tc.getWinningProposal A c).map Prod.fst).getD ∅

/-- The certificate of no timeouts, which is accepted as it is. -/
def TC.IsDefault (tc : TC K D S) : Prop := tc.slot = 0 ∧ tc.view = 0 ∧ tc.timeouts.length = 0

/-- The authors of the timeouts that report the Prepare of a cut in a view. -/
def TC.preparers (tc : TC K D S) (cut : Cut K D S) (view : ℕ) : List K :=
  (tc.timeouts.filter fun t => t.highProp.map (ConsensusMessage.digest A) =
    some (prepareDigest A tc.slot view cut)).map Timeout.author

/-- The reports in the certificate decide for a cut: the availability stake reports its Prepare in
one view, or the highest Confirm that is reported is for it, or it is empty and there is no
Confirm. -/
def TC.Decides (tc : TC K D S) (cut : Cut K D S) : Prop :=
  (∃ view, c.validityThreshold ≤ ((tc.preparers A cut view).map c.stake).sum) ∨
  (∃ t ∈ tc.timeouts, ∃ view qc p, t.highQc = some (.confirm tc.slot view qc p) ∧
    proposalsDigest A p = proposalsDigest A cut ∧
    ∀ t' ∈ tc.timeouts, ∀ view' qc' p', t'.highQc = some (.confirm tc.slot view' qc' p') →
      view' ≤ view) ∨
  cut = ∅ ∧ ∀ t ∈ tc.timeouts, t.highQc = none

/-! ### Votes of the correct members -/

/-- The Prepare and Confirm votes of the members in one slot, at most one of each in a view. -/
structure SlotVotes (K D S : Type) where
  prepare : K → ℕ → Option (Cut K D S)
  confirm : K → ℕ → Option (Cut K D S)

/-- The vote of the highest view up to `w`. -/
def lastVote {α : Type} (votes : ℕ → Option α) : ℕ → Option (ℕ × α)
  | 0 => (votes 0).map fun x => (0, x)
  | w + 1 => ((votes (w + 1)).map fun x => (w + 1, x)) <|> lastVote votes w

/-- What the correct members sign in the slot: their votes, and timeouts of view `w` that report
their votes of the highest views up to `w`. -/
structure SlotVotes.Signed (V : SlotVotes K D S) (F : FaultModel K) (slot w : ℕ) : Prop where
  prepare : ∀ {k s u p}, F.Correct k → A.verifies s (prepareDigest A slot u p) k = true →
    ∃ q, V.prepare k u = some q ∧ proposalsDigest A q = proposalsDigest A p
  confirm : ∀ {k s u p}, F.Correct k →
    A.verifies s (confirmDigest A slot u (prepareDigest A slot u p)) k = true →
      ∃ q, V.confirm k u = some q ∧ proposalsDigest A q = proposalsDigest A p
  timeout : ∀ {t : Timeout K D S}, F.Correct t.author → t.slot = slot → t.view = w →
    A.verifies t.signature (t.digest A) t.author = true →
      t.highQc.map (ConsensusMessage.digest A) = (lastVote (V.confirm t.author) w).map (fun v =>
        confirmDigest A slot v.1 (prepareDigest A slot v.1 v.2)) ∧
      t.highProp.map (ConsensusMessage.digest A) = (lastVote (V.prepare t.author) w).map fun v =>
        prepareDigest A slot v.1 v.2

theorem lastVote_spec {α : Type} {votes : ℕ → Option α} {w u : ℕ} {x : α}
    (h : lastVote votes w = some (u, x)) : u ≤ w ∧ votes u = some x := by
  induction w with
  | zero =>
    obtain ⟨y, hy, he⟩ := Option.map_eq_some_iff.mp h
    simp_all
  | succ w ih =>
    rw [lastVote] at h
    cases hv : votes (w + 1) with
    | none =>
      rw [hv] at h
      exact ⟨(ih h).1.trans (Nat.le_succ w), (ih h).2⟩
    | some y => simp_all

theorem exists_lastVote {α : Type} {votes : ℕ → Option α} {w v : ℕ} (hv : v ≤ w)
    (h : (votes v).isSome) : ∃ u x, lastVote votes w = some (u, x) ∧ v ≤ u := by
  induction w with
  | zero =>
    obtain ⟨x, hx⟩ := Option.isSome_iff_exists.mp h
    obtain rfl : v = 0 := by omega
    exact ⟨0, x, by simp [lastVote, hx], le_rfl⟩
  | succ w ih =>
    rw [lastVote]
    cases hw : votes (w + 1) with
    | some y => exact ⟨w + 1, y, rfl, hv⟩
    | none =>
      have hne : v ≠ w + 1 := by
        rintro rfl
        simp [hw] at h
      exact ih (by omega)

/-! ### Certificates as numbers of members -/

section Counting

variable {A c}

theorem sum_stake (hu : c.UnitStakes) {names : List K} (hpos : ∀ k ∈ names, 0 < c.stake k) :
    (∀ k ∈ names, k ∈ c.authorities) ∧ (names.map c.stake).sum = names.length := by
  have hmem : ∀ k ∈ names, k ∈ c.authorities := by
    intro k hk
    by_contra hno
    simpa [Committee.stake, hno] using hpos k hk
  refine ⟨hmem, ?_⟩
  rw [List.map_congr_left fun k hk => c.stake_of_unitStakes hu (hmem k hk)]
  simp

theorem atLeast_of_admits (hu : c.UnitStakes) {threshold : ℕ} {names : List K}
    (h : c.admits threshold names = true) : AtLeast c.authorities threshold (· ∈ names) := by
  obtain ⟨hn, hpos, hw⟩ := of_decide_eq_true h
  obtain ⟨hmem, hsum⟩ := sum_stake hu hpos
  refine ⟨names.toFinset, fun k hk => hmem k (List.mem_toFinset.mp hk), ?_,
    fun k hk => List.mem_toFinset.mp hk⟩
  rw [List.toFinset_card_of_nodup hn]
  omega

theorem TC.verify_iff {tc : TC K D S} (hne : ¬ tc.IsDefault) : tc.verify A c = true ↔
    (∀ t ∈ tc.timeouts, t.slot = tc.slot ∧ t.view = tc.view ∧ t.verify A c = true) ∧
      c.admits c.quorumThreshold (tc.timeouts.map Timeout.author) = true := by
  have hall : tc.timeouts.allM (m := Id) (Timeout.verifyWith A c fun msg =>
      pure (verifyConfirm A c msg)) = tc.timeouts.all (Timeout.verify A c) :=
    List.allM_pure (m := Id) (p := Timeout.verify A c)
  rw [verify, verifyWith, if_neg (show ¬ (tc.slot = 0 ∧ tc.view = 0 ∧ _) from hne)]
  split
  next hs =>
    rw [hall, List.all_eq_true]
    exact ⟨fun h => ⟨fun t ht => ⟨(hs.1 t ht).1, (hs.1 t ht).2, h t ht⟩, hs.2⟩,
      fun h t ht => (h.1 t ht).2.2⟩
  next hs =>
    refine ⟨fun h => absurd h Bool.false_ne_true, fun h => absurd ?_ hs⟩
    exact ⟨fun t ht => ⟨(h.1 t ht).1, (h.1 t ht).2.1⟩, h.2⟩

theorem Timeout.verify_spec {t : Timeout K D S} (h : t.verify A c = true) :
    A.verifies t.signature (t.digest A) t.author = true ∧
      (∀ msg, t.highQc = some msg → ∃ view qc p, msg = .confirm t.slot view qc p ∧
        view ≤ t.view ∧ prepareDigest A t.slot view p = qc.id ∧ qc.verify A c = true) ∧
      ∀ msg, t.highProp = some msg → ∃ view p, msg = .prepare t.slot view p ∧ view ≤ t.view := by
  rw [verify, verifyWith] at h
  split at h
  next hsig =>
    obtain ⟨hqc, hprop⟩ := (Bool.and_eq_true _ _).mp h
    refine ⟨(Bool.and_eq_true _ _).mp hsig |>.2, ?_, ?_⟩
    · rintro (⟨slot, view, p⟩ | ⟨slot, view, qc, p⟩ | ⟨slot, view, qc, p⟩) hm
      · simp [highQcWith, hm, pure] at hqc
      · simp only [highQcWith, hm] at hqc
        split at hqc
        next hs =>
          exact ⟨view, qc, p, by rw [hs.1], hs.2, by simpa [verifyConfirm, hs.1, pure] using hqc⟩
        next => simp [pure] at hqc
      · simp [highQcWith, hm, pure] at hqc
    · rintro (⟨slot, view, p⟩ | ⟨slot, view, qc, p⟩ | ⟨slot, view, qc, p⟩) hm
      · simp only [highPropOk, hm, decide_eq_true_eq] at hprop
        exact ⟨view, p, by rw [hprop.1], hprop.2⟩
      · simp [highPropOk, hm] at hprop
      · simp [highPropOk, hm] at hprop
  next => exact absurd h Bool.false_ne_true

omit [LinearOrder D] in
theorem TC.reportedQc_eq {tc : TC K D S} {t : Timeout K D S} {q : ViewChangeCandidate K D S}
    (h : tc.reportedQc A t = some q) :
    ∃ qc, t.highQc = some (.confirm tc.slot q.view qc q.proposals) := by
  unfold reportedQc at h
  split at h
  next slot view qc p hm =>
    split at h
    next hs =>
      obtain rfl := Option.some.inj h
      exact ⟨qc, by rw [hm, hs]⟩
    next => cases h
  next => cases h

omit [LinearOrder D] in
theorem TC.reportedQc_of {tc : TC K D S} {t : Timeout K D S} {view : ℕ} {qc : QC K D S}
    {p : Cut K D S} (h : t.highQc = some (.confirm tc.slot view qc p)) :
    tc.reportedQc A t = some ⟨view, (ConsensusMessage.confirm tc.slot view qc p).digest A, p,
      sortSources (qc.votes.map Prod.fst)⟩ := by
  unfold reportedQc
  rw [h]
  exact if_pos rfl

omit [LinearOrder D] in
theorem TC.reportedPrepare_of {tc : TC K D S} {t : Timeout K D S} {view : ℕ} {p : Cut K D S}
    (h : t.highProp = some (.prepare tc.slot view p)) (hle : view ≤ tc.view) :
    tc.reportedPrepare A t = some ⟨view, prepareDigest A tc.slot view p, p, [t.author]⟩ := by
  unfold reportedPrepare
  rw [h]
  exact if_pos ⟨rfl, hle⟩

variable {r : ViewChangeCandidate K D S}

omit [LinearOrder D] in
theorem TC.reportedPrepare_eq {tc : TC K D S} {t : Timeout K D S}
    (h : tc.reportedPrepare A t = some r) :
    t.highProp = some (.prepare tc.slot r.view r.proposals) ∧ r.view ≤ tc.view ∧
      r.digest = prepareDigest A tc.slot r.view r.proposals ∧ r.sources = [t.author] := by
  unfold reportedPrepare at h
  split at h
  next slot view p hm =>
    split at h
    next hs =>
      obtain rfl := Option.some.inj h
      exact ⟨by rw [hm, hs.1], hs.2, by rw [hs.1]; rfl, rfl⟩
    next => cases h
  next => cases h

omit [LinearOrder D] in
theorem TC.sources_sublist (tc : TC K D S) (P : ViewChangeCandidate K D S → Bool)
    (l : List (Timeout K D S)) :
    (((l.filterMap (tc.reportedPrepare A)).filter P).flatMap (·.sources)).Sublist
      (l.map Timeout.author) := by
  induction l with
  | nil => simp
  | cons t l ih =>
    cases hr : tc.reportedPrepare A t with
    | none => simpa [hr] using ih.cons t.author
    | some r =>
      by_cases hP : P r
      · simpa [hr, hP, (reportedPrepare_eq hr).2.2.2] using ih
      · simpa [hr, hP] using ih.cons t.author

/-- The winner is `cut` if the Confirm is where it is not behind the Prepare, and the Prepare
where it is ahead. -/
theorem TC.winner_same (hA : A.CollisionFree) {tc : TC K D S} {cut : Cut K D S}
    (hsome : (tc.highestQc A).isSome ∨ (tc.highestPrepare A c).isSome)
    (hqc : ∀ q, tc.highestQc A = some q → (∀ r, tc.highestPrepare A c = some r → r.view ≤ q.view) →
      proposalsDigest A q.proposals = proposalsDigest A cut)
    (hprepare : ∀ r, tc.highestPrepare A c = some r →
      (∀ q, tc.highestQc A = some q → q.view < r.view) →
        proposalsDigest A r.proposals = proposalsDigest A cut) :
    Cut.Same A (tc.getWinningProposals A c) cut := by
  refine Cut.same_of_proposalsDigest hA ?_
  rw [getWinningProposals, getWinningProposal]
  cases hq : tc.highestQc A with
  | none =>
    cases hr : tc.highestPrepare A c with
    | none => simp [hq, hr] at hsome
    | some r => exact hprepare r hr (by simp [hq])
  | some q =>
    cases hr : tc.highestPrepare A c with
    | none => exact hqc q hq (by simp [hr])
    | some r =>
      dsimp only
      split
      next hlt => exact hprepare r hr (by simpa [hq] using hlt)
      next hge => exact hqc q hq (by simpa [hr] using hge)

end Counting

/-! ### Four members, the last one Byzantine -/

section Example

/-- The digests that member `k` signs: those of its votes and of a timeout that reports the last
of them. -/
def SlotVotes.signs (H : Crypto (Fin 4) ℕ Unit) (V : SlotVotes (Fin 4) ℕ Unit) (w : ℕ)
    (k : Fin 4) (d : ℕ) : Bool :=
  (List.range (w + 1)).any (fun u =>
    decide ((V.prepare k u).map (prepareDigest H 1 u) = some d) ||
      decide ((V.confirm k u).map
        (fun p => confirmDigest H 1 u (prepareDigest H 1 u p)) = some d)) ||
    decide (d = H.hash (.timeout 1 w k
      ((lastVote (V.confirm k) w).map fun v => confirmDigest H 1 v.1 (prepareDigest H 1 v.1 v.2))
      ((lastVote (V.prepare k) w).map fun v => prepareDigest H 1 v.1 v.2)))

/-- Signatures that only the signers of a digest, and member 3, can give. -/
noncomputable def SlotVotes.crypto (V : SlotVotes (Fin 4) ℕ Unit) (w : ℕ) : Crypto (Fin 4) ℕ Unit :=
  .numbering fun _ d k => k = 3 || V.signs (.numbering fun _ _ _ => false) w k d

theorem SlotVotes.crypto_collisionFree (V : SlotVotes (Fin 4) ℕ Unit) (w : ℕ) :
    (V.crypto w).CollisionFree := Crypto.numbering_collisionFree _

def four : Committee (Fin 4) := ⟨Finset.univ, fun _ => 1, ⟨0, Finset.mem_univ 0⟩⟩

theorem four_byzantine : (four.authorities ∩ {3}).card ≤
    (Thresholds.fromPartyCount four.size).fParties := by decide

theorem SlotVotes.signed_crypto (V : SlotVotes (Fin 4) ℕ Unit) (w : ℕ) :
    V.Signed (V.crypto w) (four.faultModel {3} four_byzantine) 1 w := by
  have hA := Crypto.numbering_collisionFree (K := Fin 4) (S := Unit) fun _ _ _ => false
  have hcases : ∀ {s k d}, (four.faultModel {3} four_byzantine).Correct k →
      (V.crypto w).verifies s d k = true →
        V.signs (.numbering fun _ _ _ => false) w k d = true := by
    intro s k d hk h
    have hne : k ≠ 3 := by simpa [Committee.faultModel] using hk.2
    simpa [SlotVotes.crypto, Crypto.numbering, hne] using h
  simp only [signs, Bool.or_eq_true, List.any_eq_true, decide_eq_true_eq,
    Option.map_eq_some_iff] at hcases
  constructor
  · intro k s u p hk h
    obtain ⟨u', -, ⟨q, hq, he⟩ | ⟨q, hq, he⟩⟩ | he := hcases hk h
    · obtain ⟨-, rfl, hd⟩ := prepareDigest_inj hA he
      exact ⟨q, hq, hd⟩
    · cases hA.injective he
    · cases hA.injective he
  · intro k s u p hk h
    obtain ⟨u', -, ⟨q, hq, he⟩ | ⟨q, hq, he⟩⟩ | he := hcases hk h
    · cases hA.injective he
    · obtain ⟨-, rfl, hd⟩ := confirmDigest_inj hA he
      exact ⟨q, hq, (prepareDigest_inj hA hd).2.2⟩
    · cases hA.injective he
  · intro t hk hslot hview h
    obtain ⟨u', -, ⟨q, hq, he⟩ | ⟨q, hq, he⟩⟩ | he := hcases hk h
    · cases hA.injective he
    · cases hA.injective he
    · obtain ⟨-, -, -, h₁, h₂⟩ := Preimage.timeout.inj (hA.injective he)
      exact ⟨h₁, h₂⟩

def tips : Cut (Fin 4) ℕ Unit :=
  (List.finRange 4).foldl (fun p lane => AList.insert lane ⟨7, 1, none⟩ p) ∅

/-- Everyone votes for the tips from view 1 up to its last view, and with `confirms` confirms. -/
def votesUpTo (confirms : Bool) (last : Fin 4 → ℕ) : SlotVotes (Fin 4) ℕ Unit where
  prepare k u := if 1 ≤ u ∧ u ≤ last k then some tips else none
  confirm k u := if confirms ∧ 1 ≤ u ∧ u ≤ last k then some tips else none

theorem votesUpTo_prepare {confirms : Bool} {last : Fin 4 → ℕ} {k : Fin 4} {u : ℕ}
    {p : Cut (Fin 4) ℕ Unit} : (votesUpTo confirms last).prepare k u = some p ↔
      (1 ≤ u ∧ u ≤ last k) ∧ tips = p := by
  simp [votesUpTo]

variable (V : SlotVotes (Fin 4) ℕ Unit) (w : ℕ)

def votesOf (d : ℕ) (ks : List (Fin 4)) : QC (Fin 4) ℕ Unit := ⟨d, ks.map fun k => (k, ())⟩

noncomputable def SlotVotes.report (k : Fin 4) : Timeout (Fin 4) ℕ Unit where
  slot := 1
  view := w
  highQc := (lastVote (V.confirm k) w).map fun v =>
    .confirm 1 v.1 (votesOf (prepareDigest (V.crypto w) 1 v.1 v.2) [0, 1, 2]) v.2
  highProp := (lastVote (V.prepare k) w).map fun v => .prepare 1 v.1 v.2
  author := k
  signature := ()

theorem SlotVotes.report_verifies (k : Fin 4) :
    (V.crypto w).verifies () ((V.report w k).digest (V.crypto w)) k = true := by
  have h : (V.report w k).digest (V.crypto w) = (V.crypto w).hash (.timeout 1 w k
      ((lastVote (V.confirm k) w).map fun v =>
        confirmDigest (V.crypto w) 1 v.1 (prepareDigest (V.crypto w) 1 v.1 v.2))
      ((lastVote (V.prepare k) w).map fun v => prepareDigest (V.crypto w) 1 v.1 v.2)) := by
    simp only [Timeout.digest, report, Option.map_map]
    rfl
  rw [h]
  refine (Bool.or_eq_true _ _).mpr (.inr ((Bool.or_eq_true _ _).mpr (.inr (decide_eq_true rfl))))

theorem SlotVotes.prepare_verifies {k : Fin 4} {u : ℕ} (hu : u ≤ w) {p : Cut (Fin 4) ℕ Unit}
    (h : V.prepare k u = some p) :
    (V.crypto w).verifies () (prepareDigest (V.crypto w) 1 u p) k = true := by
  refine (Bool.or_eq_true _ _).mpr (.inr ((Bool.or_eq_true _ _).mpr (.inl ?_)))
  refine List.any_eq_true.mpr ⟨u, List.mem_range.mpr (by omega), ?_⟩
  exact (Bool.or_eq_true _ _).mpr (.inl (decide_eq_true (by rw [h]; rfl)))

theorem votesOf_verifyAt {A : Crypto (Fin 4) ℕ Unit} {d threshold : ℕ} {ks : List (Fin 4)}
    (hadm : four.admits threshold ks = true) (hsig : ∀ k ∈ ks, A.verifies () d k = true) :
    (votesOf d ks).verifyAt A four threshold = true := by
  simp only [QC.verifyAt, votesOf, List.map_map, Function.comp_def, List.map_id', hadm,
    List.all_map, Bool.true_and, Bool.or_eq_true, List.all_eq_true]
  exact .inr hsig

theorem SlotVotes.report_verify (k : Fin 4)
    (hqc : ∀ u p, V.confirm k u = some p → ∀ j ∈ [0, 1, 2], V.prepare j u = some p) :
    (V.report w k).verify (V.crypto w) four = true := by
  have hstake : ∀ k, 0 < four.stake k := by decide
  have hsigned : (V.report w k).signed (V.crypto w) four = true :=
    (Bool.and_eq_true _ _).mpr ⟨decide_eq_true (hstake k), V.report_verifies w k⟩
  rw [Timeout.verify, Timeout.verifyWith, if_pos hsigned]
  refine (Bool.and_eq_true _ _).mpr ⟨?_, ?_⟩
  · rw [Timeout.highQcWith, report]
    cases h : lastVote (V.confirm k) w with
    | none => rfl
    | some v =>
      obtain ⟨hle, hv⟩ := lastVote_spec h
      simp only [Option.map_some, hle, and_self, if_true]
      refine (Bool.and_eq_true _ _).mpr ⟨decide_eq_true rfl, votesOf_verifyAt (by decide) ?_⟩
      exact fun j hj => V.prepare_verifies w hle (hqc _ _ hv j hj)
  · rw [Timeout.highPropOk, report]
    cases h : lastVote (V.prepare k) w with
    | none => rfl
    | some v => exact decide_eq_true ⟨rfl, (lastVote_spec h).1⟩

/-- Members 0, 1 and 2 report what they last voted for up to view `w`. -/
noncomputable def SlotVotes.reports : TC (Fin 4) ℕ Unit := ⟨1, w, [0, 1, 2].map (V.report w)⟩

theorem SlotVotes.reports_verify
    (hqc : ∀ k u p, V.confirm k u = some p → ∀ j ∈ [0, 1, 2], V.prepare j u = some p) :
    (V.reports w).verify (V.crypto w) four = true := by
  refine (TC.verify_iff fun h => Nat.one_ne_zero h.1).mpr ⟨?_, by rfl⟩
  intro t ht
  obtain ⟨k, -, rfl⟩ := List.mem_map.mp ht
  exact ⟨rfl, rfl, V.report_verify w k (hqc k)⟩

end Example

/-! ### Who stands behind the reports -/

section Safety

variable {A c} (hA : A.CollisionFree) (hu : c.UnitStakes) {byzantine : Finset K}
  (hb : (c.authorities ∩ byzantine).card ≤ (Thresholds.fromPartyCount c.size).fParties)
  {V : SlotVotes K D S} {tc : TC K D S}
  (hV : V.Signed A (c.faultModel byzantine hb) tc.slot tc.view)
  (htc : tc.verify A c = true) (hdef : ¬ tc.IsDefault)
include hA hu hV

theorem prepared_of_qc {threshold u : ℕ} {q : QC K D S} {p : Cut K D S}
    (hid : prepareDigest A tc.slot u p = q.id) (h : q.verifyAt A c threshold = true) :
    AtLeast c.authorities threshold fun k => (c.faultModel byzantine hb).Correct k →
      ∃ p', V.prepare k u = some p' ∧ proposalsDigest A p' = proposalsDigest A p := by
  obtain ⟨hadm, hsig⟩ := q.votes_of_verifyAt c hA h (hid ▸ hA.ne_zero _)
  refine (atLeast_of_admits hu hadm).mono fun k _ hk hc => ?_
  obtain ⟨⟨k, s⟩, hmem, rfl⟩ := List.mem_map.mp hk
  exact hV.prepare hc (hid ▸ hsig _ hmem)

include htc hdef

omit hA hV in
theorem reporters : AtLeast c.authorities (c.faultModel byzantine hb).quorum fun k =>
    ∃ t ∈ tc.timeouts, t.author = k := by
  have h := atLeast_of_admits hu ((TC.verify_iff hdef).mp htc).2
  rw [c.quorumThreshold_of_unitStakes hu] at h
  exact h.mono fun k _ hk => List.mem_map.mp hk

theorem candidate_spec {q : ViewChangeCandidate K D S}
    (hq : q ∈ tc.timeouts.filterMap (tc.reportedQc A)) : q.view ≤ tc.view ∧
      AtLeast c.authorities (c.faultModel byzantine hb).quorum fun k =>
        (c.faultModel byzantine hb).Correct k → ∃ p, V.prepare k q.view = some p ∧
          proposalsDigest A p = proposalsDigest A q.proposals := by
  obtain ⟨t, ht, hr⟩ := List.mem_filterMap.mp hq
  obtain ⟨hslot, htv, hver⟩ := ((TC.verify_iff hdef).mp htc).1 t ht
  obtain ⟨qc, hm⟩ := TC.reportedQc_eq hr
  obtain ⟨view, qc', p, he, hle, hid, hqc⟩ := (Timeout.verify_spec hver).2.1 _ hm
  obtain ⟨-, rfl, rfl, rfl⟩ := ConsensusMessage.confirm.inj he
  refine ⟨htv ▸ hle, ?_⟩
  have h := prepared_of_qc hA hu hb hV (hslot ▸ hid) hqc
  rwa [c.quorumThreshold_of_unitStakes hu] at h

theorem highestPrepare_spec (hr : tc.highestPrepare A c = some r) :
    r.view ≤ tc.view ∧ ∃ k p, (c.faultModel byzantine hb).Correct k ∧
      lastVote (V.prepare k) tc.view = some (r.view, p) ∧
        proposalsDigest A p = proposalsDigest A r.proposals := by
  obtain ⟨r, hmax, rfl⟩ := Option.map_eq_some_iff.mp hr
  obtain ⟨hr, hstake⟩ := List.mem_filter.mp (List.argmax_mem hmax)
  obtain ⟨hver, hadm⟩ := (TC.verify_iff hdef).mp htc
  obtain ⟨hnodup, hpos, -⟩ := of_decide_eq_true hadm
  have hsub : ((tc.reportsLike A r).flatMap (·.sources)).Sublist (tc.timeouts.map Timeout.author) :=
    tc.sources_sublist _ _
  have hsources : c.admits c.validityThreshold ((tc.reportsLike A r).flatMap (·.sources)) = true :=
    decide_eq_true
      ⟨hsub.nodup hnodup, fun k hk => hpos k (hsub.subset hk), of_decide_eq_true hstake⟩
  have hcount := atLeast_of_admits hu hsources
  obtain ⟨k, hc, hk⟩ := FaultModel.atLeast_correct (F := c.faultModel byzantine hb) hcount
    (Committee.fParties_lt_validityThreshold hu)
  -- the correct member among the counted reporters
  obtain ⟨r', hr', hk⟩ := List.mem_flatMap.mp hk
  obtain ⟨hr', hrank⟩ := List.mem_filter.mp hr'
  obtain ⟨t, ht, hrep⟩ := List.mem_filterMap.mp hr'
  obtain ⟨hprop, hle, hd, hsrc⟩ := TC.reportedPrepare_eq hrep
  obtain ⟨t₀, -, hrep₀⟩ := List.mem_filterMap.mp hr
  obtain ⟨-, -, hd₀, -⟩ := TC.reportedPrepare_eq hrep₀
  obtain rfl : k = t.author := by simpa [hsrc] using hk
  have hrank : r'.rank = r.rank := by simpa using hrank
  obtain ⟨hrv, hrd⟩ : r'.view = r.view ∧ r'.digest = r.digest := Prod.ext_iff.mp hrank
  obtain ⟨hslot, htv, hv⟩ := hver t ht
  have hreport := (hV.timeout hc hslot htv (Timeout.verify_spec hv).1).2
  rw [hprop, Option.map_some] at hreport
  obtain ⟨⟨u, p⟩, hlast, hpd⟩ := Option.map_eq_some_iff.mp hreport.symm
  obtain ⟨-, rfl, hpp⟩ := prepareDigest_inj hA hpd
  obtain ⟨-, -, hpq⟩ := prepareDigest_inj hA (hd₀.symm.trans (hrd.symm.trans hd))
  exact ⟨hrv ▸ hle, t.author, p, hc, hrv ▸ hlast, hpp.trans hpq.symm⟩

omit hu hV in
/-- The reports that are counted with a report of the cut are the reports of the cut. -/
theorem sources_reportsLike {cut : Cut K D S} (hr : r.digest = prepareDigest A tc.slot r.view cut) :
    (tc.reportsLike A r).flatMap (·.sources) = tc.preparers A cut r.view := by
  have hver := ((TC.verify_iff hdef).mp htc).1
  unfold TC.reportsLike TC.preparers
  generalize tc.timeouts = ts at hver ⊢
  induction ts with
  | nil => rfl
  | cons t l ih =>
    obtain ⟨hslot, htv, hv⟩ := hver t List.mem_cons_self
    have ih := ih fun t ht => hver t (List.mem_cons_of_mem _ ht)
    cases hm : t.highProp with
    | none =>
      have hnone : tc.reportedPrepare A t = none := by rw [TC.reportedPrepare, hm]
      simpa [hnone, hm] using ih
    | some msg =>
      obtain ⟨view, p, rfl, hle⟩ := (Timeout.verify_spec hv).2.2 _ hm
      rw [hslot] at hm
      have hsome := TC.reportedPrepare_of (A := A) hm (htv ▸ hle)
      have hrank : (⟨view, prepareDigest A tc.slot view p, p, [t.author]⟩ :
          ViewChangeCandidate K D S).rank = r.rank ↔
            prepareDigest A tc.slot view p = prepareDigest A tc.slot r.view cut := by
        rw [← hr]
        refine ⟨fun h => (Prod.ext_iff.mp h).2, fun h => Prod.ext ?_ h⟩
        exact (prepareDigest_inj hA (h.trans hr)).2.1
      have hdigest : (t.highProp.map (ConsensusMessage.digest A) =
          some (prepareDigest A tc.slot r.view cut)) ↔
            prepareDigest A tc.slot view p = prepareDigest A tc.slot r.view cut := by
        rw [hm, Option.map_some, Option.some.injEq]
        rfl
      rw [List.filterMap_cons, hsome, List.filter_cons, List.filter_cons]
      simp only [decide_eq_true_eq, hrank, hdigest]
      split_ifs
      · rw [List.flatMap_cons, ih]
        rfl
      · exact ih

/-- Two Confirms of one view that are reported are for one cut. -/
theorem reportedQc_unique {q q' : ViewChangeCandidate K D S}
    (hq : q ∈ tc.timeouts.filterMap (tc.reportedQc A))
    (hq' : q' ∈ tc.timeouts.filterMap (tc.reportedQc A)) (h : q.view = q'.view) :
    proposalsDigest A q.proposals = proposalsDigest A q'.proposals := by
  obtain ⟨k, hk, h₁, h₂⟩ := FaultModel.atLeast_inter (F := c.faultModel byzantine hb)
    (candidate_spec hA hu hb hV htc hdef hq).2 (candidate_spec hA hu hb hV htc hdef hq').2
  obtain ⟨p₁, hp₁, hd₁⟩ := h₁ hk
  obtain ⟨p₂, hp₂, hd₂⟩ := h₂ hk
  rw [← h, hp₁] at hp₂
  obtain rfl := Option.some.inj hp₂
  exact hd₁.symm.trans hd₂

end Safety

/-! ### Commits survive a view change -/

variable {A c}

/-- A quorum of Confirm votes for a cut fixes the winner of every view change of a later view, as
long as the correct members vote for no other cut after it. -/
theorem slow_commit_wins (hA : A.CollisionFree) (hu : c.UnitStakes) {byzantine : Finset K}
    (hb : (c.authorities ∩ byzantine).card ≤ (Thresholds.fromPartyCount c.size).fParties)
    {V : SlotVotes K D S} {tc : TC K D S}
    (hV : V.Signed A (c.faultModel byzantine hb) tc.slot tc.view) (htc : tc.verify A c = true)
    (hdef : ¬ tc.IsDefault) {v : ℕ} {qc : QC K D S} {cut : Cut K D S} (hv : v ≤ tc.view)
    (hid : confirmDigest A tc.slot v (prepareDigest A tc.slot v cut) = qc.id)
    (hqc : qc.verify A c = true)
    (hlater : ∀ k u p, (c.faultModel byzantine hb).Correct k → v < u → u ≤ tc.view →
      V.prepare k u = some p → proposalsDigest A p = proposalsDigest A cut) :
    Cut.Same A (tc.getWinningProposals A c) cut := by
  -- a correct member that confirmed the cut reports a Confirm of view `u ≥ v`
  obtain ⟨hadm, hsig⟩ := qc.votes_of_verifyAt c hA hqc (hid ▸ hA.ne_zero _)
  rw [c.quorumThreshold_of_unitStakes hu] at hadm
  obtain ⟨k, hc, hk, t, ht, rfl⟩ := FaultModel.atLeast_inter (F := c.faultModel byzantine hb)
    (atLeast_of_admits hu hadm) (reporters hu hb htc hdef)
  obtain ⟨⟨_, s⟩, hmem, rfl⟩ := List.mem_map.mp hk
  obtain ⟨p₀, hp₀, hpd₀⟩ := hV.confirm hc (hid ▸ hsig _ hmem)
  have hsome : (V.confirm t.author v).isSome := by rw [hp₀]; rfl
  obtain ⟨u, p, hlast, hvu⟩ := exists_lastVote hv hsome
  obtain ⟨hslot, htv, hver⟩ := ((TC.verify_iff hdef).mp htc).1 t ht
  have hreport := (hV.timeout hc hslot htv (Timeout.verify_spec hver).1).1
  rw [hlast] at hreport
  obtain ⟨msg, hm, hd⟩ := Option.map_eq_some_iff.mp hreport
  obtain ⟨view, qc', p', rfl, -⟩ := (Timeout.verify_spec hver).2.1 _ hm
  obtain ⟨-, rfl, hpd⟩ := confirmDigest_inj hA hd
  obtain ⟨-, -, hpd⟩ := prepareDigest_inj hA hpd
  have hq₀ : (⟨view, (ConsensusMessage.confirm t.slot view qc' p').digest A, p',
      sortSources (qc'.votes.map Prod.fst)⟩ : ViewChangeCandidate K D S) ∈
        tc.timeouts.filterMap (tc.reportedQc A) :=
    List.mem_filterMap.mpr ⟨t, ht, by rw [hslot] at hm ⊢; exact TC.reportedQc_of hm⟩
  -- so the highest one is not below `v`
  have hbest : ∀ q, tc.highestQc A = some q → view ≤ q.view := fun q hq =>
    (Prod.Lex.le_iff.mp (List.le_of_mem_argmax hq₀ hq)).elim le_of_lt fun h => h.1.le
  refine TC.winner_same hA (.inl ?_) (fun q hq _ => ?_) fun r hr hlt => ?_
  · rw [TC.highestQc, Option.isSome_iff_ne_none, Ne, List.argmax_eq_none]
    exact List.ne_nil_of_mem hq₀
  · obtain ⟨hle, hquorum⟩ := candidate_spec hA hu hb hV htc hdef (List.argmax_mem hq)
    rcases (hvu.trans (hbest q hq)).lt_or_eq with hgt | heq
    · obtain ⟨k, hk, h⟩ := FaultModel.atLeast_correct (F := c.faultModel byzantine hb) hquorum
        FaultModel.f_lt_quorum
      obtain ⟨p, hp, hpq⟩ := h hk
      exact hpq.symm.trans (hlater k _ p hk hgt hle hp)
    · -- at `v` itself the highest Confirm is for the cut of the reported one
      obtain rfl : view = v := le_antisymm (heq ▸ hbest q hq) hvu
      have hunique := reportedQc_unique hA hu hb hV htc hdef hq₀ (List.argmax_mem hq) heq
      rw [(lastVote_spec hlast).2] at hp₀
      obtain rfl := Option.some.inj hp₀
      exact hunique.symm.trans (hpd.trans hpd₀)
  · obtain ⟨hle, k, p, hk, hp, hpr⟩ := highestPrepare_spec hA hu hb hV htc hdef hr
    refine hpr.symm.trans (hlater k _ p hk ?_ hle (lastVote_spec hp).2)
    obtain ⟨q, hq⟩ := Option.ne_none_iff_exists'.mp (fun hn => List.ne_nil_of_mem hq₀
      (List.argmax_eq_none.mp hn) : tc.highestQc A ≠ none)
    exact hvu.trans_lt ((hbest q hq).trans_lt (hlt q hq))

/-- Members 0, 1 and 2 confirmed the tips. -/
theorem slow_commit_wins_tips : let V := votesUpTo true fun _ => 1
    Cut.Same (V.crypto 1) ((V.reports 1).getWinningProposals (V.crypto 1) four) tips := by
  intro V
  have hqc : (votesOf (confirmDigest (V.crypto 1) 1 1 (prepareDigest (V.crypto 1) 1 1 tips))
      [0, 1, 2]).verify (V.crypto 1) four = true := by
    refine votesOf_verifyAt (by decide) fun k _ => (Bool.or_eq_true _ _).mpr (.inr ?_)
    refine (Bool.or_eq_true _ _).mpr (.inl (List.any_eq_true.mpr ⟨1, by decide, ?_⟩))
    exact (Bool.or_eq_true _ _).mpr (.inr (decide_eq_true rfl))
  have hV : V.Signed (V.crypto 1) (four.faultModel {3} four_byzantine) (V.reports 1).slot
    (V.reports 1).view := V.signed_crypto 1
  have hreports : (V.reports 1).verify (V.crypto 1) four = true := by
    refine V.reports_verify 1 fun k u p h j _ => ?_
    simp only [V, votesUpTo] at h ⊢
    split at h
    next hc => rw [if_pos hc.2, ← h]
    next => cases h
  exact slow_commit_wins (SlotVotes.crypto_collisionFree V 1) (fun _ _ => rfl) four_byzantine hV
    hreports (fun h => Nat.one_ne_zero h.1) le_rfl rfl hqc
    fun k u p _ _ _ h => congrArg _ (votesUpTo_prepare.mp h).2.symm

section Fast

variable (hA : A.CollisionFree) (hu : c.UnitStakes) {byzantine : Finset K}
  (hb : (c.authorities ∩ byzantine).card ≤ (Thresholds.fromPartyCount c.size).fParties)
  {V : SlotVotes K D S} {tc : TC K D S}
  (hV : V.Signed A (c.faultModel byzantine hb) tc.slot tc.view) {v : ℕ} {qc : QC K D S}
  {cut : Cut K D S} (hid : prepareDigest A tc.slot v cut = qc.id)
  (hqc : qc.verifyAt A c c.fastThreshold = true)
  (hlater : ∀ k u p, (c.faultModel byzantine hb).Correct k → v < u → u ≤ tc.view →
    V.prepare k u = some p → proposalsDigest A p = proposalsDigest A cut)
include hA hu hV hid hqc

/-- With a fast certificate every correct member has voted for the cut in its view. -/
theorem prepared_of_fast {k : K} (hk : (c.faultModel byzantine hb).Correct k) :
    ∃ p, V.prepare k v = some p ∧ proposalsDigest A p = proposalsDigest A cut := by
  have hall := prepared_of_qc hA hu hb hV hid hqc
  rw [Committee.fastThreshold, c.totalStake_of_unitStakes hu] at hall
  exact hall.all hk.1 hk

include hlater

/-- From its view on a correct member votes for nothing else. -/
theorem voted_from_fast {k : K} {u : ℕ} {p : Cut K D S}
    (hk : (c.faultModel byzantine hb).Correct k) (hvu : v ≤ u) (huw : u ≤ tc.view)
    (hp : V.prepare k u = some p) : proposalsDigest A p = proposalsDigest A cut := by
  rcases hvu.lt_or_eq with hlt | rfl
  · exact hlater k u p hk hlt huw hp
  · obtain ⟨p', hp', hd⟩ := prepared_of_fast hA hu hb hV hid hqc hk
    rw [hp] at hp'
    obtain rfl := Option.some.inj hp'
    exact hd

variable (hv : v ≤ tc.view) (htc : tc.verify A c = true) (hdef : ¬ tc.IsDefault)
include hv htc hdef

/-- A Prepare that the availability stake reports is for the cut: a correct member is among the
reporters, and its last vote is not below the fast certificate. -/
theorem highestPrepare_of_fast (hr : tc.highestPrepare A c = some r) :
    v ≤ r.view ∧ proposalsDigest A r.proposals = proposalsDigest A cut := by
  obtain ⟨hle, k, p, hk, hp, hpr⟩ := highestPrepare_spec hA hu hb hV htc hdef hr
  obtain ⟨p', hp', -⟩ := prepared_of_fast hA hu hb hV hid hqc hk
  have hsome : (V.prepare k v).isSome := by rw [hp']; rfl
  obtain ⟨u, p₀, hl, hvu⟩ := exists_lastVote hv hsome
  obtain ⟨rfl, rfl⟩ := Prod.mk.inj (Option.some.inj (hl.symm.trans hp))
  exact ⟨hvu, hpr.symm.trans
    (voted_from_fast hA hu hb hV hid hqc hlater hk hvu hle (lastVote_spec hp).2)⟩

theorem highestPrepare_isSome_iff : (tc.highestPrepare A c).isSome ↔
    ∃ view, c.validityThreshold ≤ ((tc.preparers A cut view).map c.stake).sum := by
  constructor
  · intro hsome
    obtain ⟨r', hr'⟩ := Option.isSome_iff_exists.mp hsome
    have hcut := (highestPrepare_of_fast hA hu hb hV hid hqc hlater hv htc hdef hr').2
    obtain ⟨r, hmax, rfl⟩ := Option.map_eq_some_iff.mp hr'
    obtain ⟨hr, hstake⟩ := List.mem_filter.mp (List.argmax_mem hmax)
    obtain ⟨t, -, hrep⟩ := List.mem_filterMap.mp hr
    have hd : r.digest = prepareDigest A tc.slot r.view cut := by
      rw [(TC.reportedPrepare_eq hrep).2.2.1, prepareDigest, prepareDigest, hcut]
    rw [decide_eq_true_eq, sources_reportsLike hA htc hdef hd] at hstake
    exact ⟨r.view, hstake⟩
  · rintro ⟨view, hstake⟩
    have hpos := Nat.zero_lt_of_lt (Committee.fParties_lt_validityThreshold hu)
    -- the stake is not empty, so somebody has made the report
    obtain ⟨k, hk⟩ := List.exists_mem_of_ne_nil (tc.preparers A cut view) fun hnil => by
      rw [hnil] at hstake
      exact absurd (hpos.trans_le hstake) (lt_irrefl 0)
    obtain ⟨t, hfilter, rfl⟩ := List.mem_map.mp hk
    obtain ⟨ht, hreport⟩ := List.mem_filter.mp hfilter
    obtain ⟨msg, hm, hd⟩ := Option.map_eq_some_iff.mp (of_decide_eq_true hreport)
    obtain ⟨hslot, htv, hver⟩ := ((TC.verify_iff hdef).mp htc).1 t ht
    obtain ⟨view', p, rfl, hle⟩ := (Timeout.verify_spec hver).2.2 _ hm
    rw [ConsensusMessage.digest, hslot] at hd
    obtain ⟨-, rfl, -⟩ := prepareDigest_inj hA hd
    rw [hslot] at hm
    have hrep := TC.reportedPrepare_of (A := A) hm (htv ▸ hle)
    rw [TC.highestPrepare, Option.isSome_map, Option.isSome_iff_ne_none, Ne, List.argmax_eq_none]
    refine List.ne_nil_of_mem (List.mem_filter.mpr
      ⟨List.mem_filterMap.mpr ⟨t, ht, hrep⟩, decide_eq_true ?_⟩)
    rwa [sources_reportsLike hA htc hdef hd]

/-- Once the availability stake reports a Prepare, the cut wins: a Confirm that is ahead of the
Prepare is not below the fast certificate either. -/
theorem winner_of_highestPrepare (hsome : (tc.highestPrepare A c).isSome) :
    Cut.Same A (tc.getWinningProposals A c) cut := by
  have hprepare := fun r => highestPrepare_of_fast (r := r) hA hu hb hV hid hqc hlater hv htc hdef
  refine TC.winner_same hA (.inr hsome) (fun q hq hle => ?_) fun r hr _ => (hprepare r hr).2
  obtain ⟨r, hr⟩ := Option.isSome_iff_exists.mp hsome
  obtain ⟨hqw, hquorum⟩ := candidate_spec hA hu hb hV htc hdef (List.argmax_mem hq)
  obtain ⟨k, hk, h⟩ := FaultModel.atLeast_correct (F := c.faultModel byzantine hb) hquorum
    FaultModel.f_lt_quorum
  obtain ⟨p, hp, hpq⟩ := h hk
  exact hpq.symm.trans (voted_from_fast hA hu hb hV hid hqc hlater hk
    ((hprepare r hr).1.trans (hle r hr)) hqw hp)

omit hlater hv hid hqc in
/-- Without such a Prepare the highest Confirm wins, and the cut if it is for the cut. -/
theorem winner_of_highestQc {q : ViewChangeCandidate K D S} (hq : tc.highestQc A = some q)
    (hnone : tc.highestPrepare A c = none) :
    Cut.Same A (tc.getWinningProposals A c) cut ↔
      ∃ t ∈ tc.timeouts, ∃ view qc p, t.highQc = some (.confirm tc.slot view qc p) ∧
        proposalsDigest A p = proposalsDigest A cut ∧
        ∀ t' ∈ tc.timeouts, ∀ view' qc' p', t'.highQc = some (.confirm tc.slot view' qc' p') →
          view' ≤ view := by
  have hwinner : tc.getWinningProposals A c = q.proposals := by
    rw [TC.getWinningProposals, TC.getWinningProposal, hq, hnone]
    rfl
  have hreported : ∀ t ∈ tc.timeouts, ∀ view qc p, t.highQc = some (.confirm tc.slot view qc p) →
      ∃ q' ∈ tc.timeouts.filterMap (tc.reportedQc A), q'.view = view ∧ q'.proposals = p :=
    fun t ht view qc p hm =>
      ⟨_, List.mem_filterMap.mpr ⟨t, ht, TC.reportedQc_of hm⟩, rfl, rfl⟩
  have hbest : ∀ q' ∈ tc.timeouts.filterMap (tc.reportedQc A), q'.view ≤ q.view := fun q' hq' =>
    (Prod.Lex.le_iff.mp (List.le_of_mem_argmax hq' hq)).elim le_of_lt fun h => h.1.le
  have hqmem := List.argmax_mem hq
  rw [hwinner]
  constructor
  · intro hsame
    obtain ⟨t, ht, hr⟩ := List.mem_filterMap.mp hqmem
    obtain ⟨qc, hm⟩ := TC.reportedQc_eq hr
    refine ⟨t, ht, q.view, qc, q.proposals, hm, hsame.proposalsDigest, ?_⟩
    intro t' ht' view' qc' p' hm'
    obtain ⟨q', hq', rfl, -⟩ := hreported t' ht' view' qc' p' hm'
    exact hbest q' hq'
  · rintro ⟨t, ht, view, qc, p, hm, hcut, hmax⟩
    obtain ⟨q', hq', rfl, rfl⟩ := hreported t ht view qc p hm
    obtain ⟨t₀, ht₀, hr₀⟩ := List.mem_filterMap.mp hqmem
    obtain ⟨qc₀, hm₀⟩ := TC.reportedQc_eq hr₀
    have hview : q.view = q'.view := le_antisymm (hmax t₀ ht₀ _ _ _ hm₀) (hbest q' hq')
    exact Cut.same_of_proposalsDigest hA
      ((reportedQc_unique hA hu hb hV htc hdef hqmem hq' hview).trans hcut)

end Fast

/-- Where nothing is reported the winner is the empty cut. -/
theorem winner_of_none {tc : TC K D S} {cut : Cut K D S} (hq : tc.highestQc A = none)
    (hr : tc.highestPrepare A c = none) :
    Cut.Same A (tc.getWinningProposals A c) cut ↔ cut = ∅ := by
  rw [TC.getWinningProposals, TC.getWinningProposal, hq, hr]
  exact Cut.same_empty_iff

/-- The Prepare votes of everyone for a cut, after which the correct members vote for no other cut,
fix the winner of a view change of a later view exactly if the reports in its certificate decide
for the cut. -/
theorem fast_commit_wins (hA : A.CollisionFree) (hu : c.UnitStakes) {byzantine : Finset K}
    (hb : (c.authorities ∩ byzantine).card ≤ (Thresholds.fromPartyCount c.size).fParties)
    {V : SlotVotes K D S} {tc : TC K D S}
    (hV : V.Signed A (c.faultModel byzantine hb) tc.slot tc.view) (htc : tc.verify A c = true)
    {v : ℕ} {qc : QC K D S} {cut : Cut K D S} (hv : v ≤ tc.view)
    (hid : prepareDigest A tc.slot v cut = qc.id) (hqc : qc.verifyAt A c c.fastThreshold = true)
    (hlater : ∀ k u p, (c.faultModel byzantine hb).Correct k → v < u → u ≤ tc.view →
      V.prepare k u = some p → proposalsDigest A p = proposalsDigest A cut) :
    Cut.Same A (tc.getWinningProposals A c) cut ↔ tc.Decides A c cut := by
  have hpos := Nat.zero_lt_of_lt (Committee.fParties_lt_validityThreshold hu)
  by_cases hdef : tc.IsDefault
  · -- no timeouts, no reports
    have hnil : tc.timeouts = [] := List.length_eq_zero_iff.mp hdef.2.2
    rw [winner_of_none (by simp [TC.highestQc, hnil]) (by simp [TC.highestPrepare, hnil])]
    simp [TC.Decides, TC.preparers, hnil, hpos.ne']
  have hgroup := highestPrepare_isSome_iff hA hu hb hV hid hqc hlater hv htc hdef
  cases hr : tc.highestPrepare A c with
  | some r =>
    have hsome : (tc.highestPrepare A c).isSome := by rw [hr]; rfl
    exact iff_of_true (winner_of_highestPrepare hA hu hb hV hid hqc hlater hv htc hdef hsome)
      (.inl (hgroup.mp hsome))
  | none =>
    have hfew : ¬ ∃ view, c.validityThreshold ≤ ((tc.preparers A cut view).map c.stake).sum := by
      rw [← hgroup, hr]
      exact Bool.false_ne_true
    have hconfirm : ∀ t ∈ tc.timeouts, ∀ msg, t.highQc = some msg →
        ∃ view qc p, msg = .confirm tc.slot view qc p := by
      intro t ht msg hm
      obtain ⟨hslot, -, hver⟩ := ((TC.verify_iff hdef).mp htc).1 t ht
      obtain ⟨view, qc, p, rfl, -⟩ := (Timeout.verify_spec hver).2.1 msg hm
      exact ⟨view, qc, p, by rw [hslot]⟩
    unfold TC.Decides
    rw [or_iff_right hfew]
    cases hq : tc.highestQc A with
    | some q =>
      obtain ⟨t, ht, hrep⟩ := List.mem_filterMap.mp (List.argmax_mem hq)
      obtain ⟨qc', hm⟩ := TC.reportedQc_eq hrep
      rw [winner_of_highestQc hA hu hb hV htc hdef hq hr, or_iff_left]
      exact fun h => by simp [h.2 t ht] at hm
    | none =>
      have hnone : ∀ t ∈ tc.timeouts, t.highQc = none := by
        intro t ht
        cases hm : t.highQc with
        | none => rfl
        | some msg =>
          obtain ⟨view, qc', p, rfl⟩ := hconfirm t ht msg hm
          exact absurd (List.argmax_eq_none.mp hq) (List.ne_nil_of_mem
            (List.mem_filterMap.mpr ⟨t, ht, TC.reportedQc_of hm⟩))
      rw [winner_of_none hq hr]
      refine ⟨fun h => .inr ⟨h, hnone⟩, ?_⟩
      rintro (⟨t, ht, view, qc', p, hm, -⟩ | h)
      · rw [hnone t ht] at hm
        cases hm
      · exact h.1

/-- Everyone votes for the tips in view 1, and member 0 once more in view 2. -/
def votedAgain : SlotVotes (Fin 4) ℕ Unit := votesUpTo false fun k => if k = 0 then 2 else 1

theorem votedAgain_fast : (votesOf (prepareDigest (votedAgain.crypto 2) 1 1 tips)
    [0, 1, 2, 3]).verifyAt (votedAgain.crypto 2) four four.fastThreshold = true := by
  refine votesOf_verifyAt (by decide) fun k _ => votedAgain.prepare_verifies 2 (by decide) ?_
  exact votesUpTo_prepare.mpr ⟨by revert k; decide, rfl⟩

/-- The reports of members 1 and 2 agree on the view, so the tips win. -/
theorem fast_commit_wins_votedAgain :
    Cut.Same (votedAgain.crypto 2) ((votedAgain.reports 2).getWinningProposals
      (votedAgain.crypto 2) four) tips := by
  have hV : votedAgain.Signed (votedAgain.crypto 2) (four.faultModel {3} four_byzantine)
    (votedAgain.reports 2).slot (votedAgain.reports 2).view := votedAgain.signed_crypto 2
  refine (fast_commit_wins (votedAgain.crypto_collisionFree 2) (fun _ _ => rfl) four_byzantine hV
    (votedAgain.reports_verify 2 nofun) (show 1 ≤ 2 by decide) rfl votedAgain_fast
    fun k u p _ _ _ h => congrArg _ (votesUpTo_prepare.mp h).2.symm).mpr (.inl ⟨1, ?_⟩)
  have hpreparers : (votedAgain.reports 2).preparers (votedAgain.crypto 2) tips 1 = [1, 2] := by
    have hne : prepareDigest (votedAgain.crypto 2) 1 2 tips ≠
        prepareDigest (votedAgain.crypto 2) 1 1 tips := fun h =>
      absurd (prepareDigest_inj (votedAgain.crypto_collisionFree 2) h).2.1 (by decide)
    have hreport : ∀ k, (votedAgain.report 2 k).highProp.map
        (ConsensusMessage.digest (votedAgain.crypto 2)) =
          some (prepareDigest (votedAgain.crypto 2) 1 (if k = 0 then 2 else 1) tips) := by
      intro k
      match k with
      | 0 | 1 | 2 | 3 => rfl
    simp only [TC.preparers, SlotVotes.reports, List.map_cons, List.map_nil, List.filter_cons,
      List.filter_nil, hreport]
    simp [hne, SlotVotes.report]
  rw [hpreparers]
  decide

/-- Without the report of member 2, those of members 0 and 1 are counted apart, and nothing wins. -/
theorem fast_commit_lost :
    let V := votedAgain
    let A := V.crypto 2
    let tc : TC (Fin 4) ℕ Unit := ⟨1, 2, [V.report 2 0, V.report 2 1, ⟨1, 2, none, none, 3, ()⟩]⟩
    A.CollisionFree ∧ four.UnitStakes ∧
      V.Signed A (four.faultModel {3} four_byzantine) tc.slot tc.view ∧ tc.verify A four = true ∧
      (votesOf (prepareDigest A 1 1 tips) [0, 1, 2, 3]).verifyAt A four four.fastThreshold = true ∧
      (∀ k u p, V.prepare k u = some p → p = tips) ∧
      ¬ Cut.Same A (tc.getWinningProposals A four) tips := by
  intro V A tc
  have hreport : ∀ k, (V.report 2 k).verify A four = true := fun k =>
    V.report_verify 2 k fun u p h => by cases h
  refine ⟨V.crypto_collisionFree 2, fun _ _ => rfl, V.signed_crypto 2, ?_, votedAgain_fast,
    fun k u p hp => (votesUpTo_prepare.mp hp).2.symm, ?_⟩
  · refine (TC.verify_iff fun h => Nat.one_ne_zero h.1).mpr ⟨?_, by decide⟩
    refine List.forall_mem_cons.mpr ⟨⟨rfl, rfl, hreport 0⟩, ?_⟩
    exact List.forall_mem_cons.mpr ⟨⟨rfl, rfl, hreport 1⟩, by simp [tc]; rfl⟩
  · intro hsame
    have hreports : tc.timeouts.filterMap (tc.reportedPrepare A) =
        [⟨2, prepareDigest A 1 2 tips, tips, [0]⟩, ⟨1, prepareDigest A 1 1 tips, tips, [1]⟩] := rfl
    have hqc : tc.highestQc A = none := rfl
    have hprepare : tc.highestPrepare A four = none := by
      have hstake : ∀ k, four.stake k = 1 := by decide
      have hvalidity : four.validityThreshold = 2 := by decide
      simp [TC.highestPrepare, TC.reportsLike, hreports, ViewChangeCandidate.rank, hstake,
        hvalidity]
    have h := hsame 0
    rw [TC.getWinningProposals, TC.getWinningProposal, hqc, hprepare] at h
    cases h

end Vantage.Autobahn
