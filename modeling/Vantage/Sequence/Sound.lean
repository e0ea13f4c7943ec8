import Vantage.Sequence.Verify

/-!
# A verified transfer delivers the sequence of its target

Records are tied to the trusted head only when the chain reaches the target, outcomes and
deltas are checked against the records in any order and in pieces. Whatever the sources send,
what a verified transfer gives out is what the target head commits to.

* `SequenceTransfer.Response`, `SequenceTransfer.Call`, `SequenceTransfer.run`: whole runs;
* `SequenceTransfer.verifiedOutput_sound`: the output is that of the store behind the head;
* `SequenceTransfer.verified_terminal`: when a verified transfer stays verified.
-/

namespace Vantage

namespace SequenceTransfer

variable {K D : Type} [DecidableEq K] [DecidableEq D] {S : SequenceSession K D} {view : ℕ}

/-! ### What holds whatever the sources send -/

/-- What a transfer has accepted: a chain of records from the base on, bodies that match their
records, and, once verified, a complete chain with all its bodies. -/
structure Sound (base : ℕ) (baseHead : D) (t : SequenceTransfer S) : Prop where
  targetView : t.chain.targetView = t.targetView
  targetHead : t.chain.targetHead = t.targetHead
  chain : ∃ bs, t.chain.Follows base baseHead bs
  outcomes : ∀ view o, t.outcomes.lookup view = some o →
    ∃ r, t.chain.verifiedRecord view = some r ∧ o.digest S view = r.outcomeDigest
  deltas : ∀ view delta, t.deltas.lookup view = some delta →
    ∃ r, t.chain.verifiedRecord view = some r ∧ (deltaChain S view).head delta = r.deltaHead
  inFlight : ∀ view v, t.deltaInFlight.lookup view = some v →
    ∃ r, t.chain.verifiedRecord view = some r ∧ v.view = view ∧ v.expectedLen = r.deltaLen ∧
      v.expectedHead = r.deltaHead
  outcomeScan : t.Passed t.hasOutcome t.outcomeScanFrom
  deltaScan : t.Passed t.hasDelta t.deltaScanFrom
  phase : t.state = .fetchingOutcomes ∨ t.state = .fetchingDeltas → t.chain.complete = true
  done : t.state = .verified → t.chain.complete = true ∧
    ∀ view, (t.chain.verifiedRecord view).isSome = true →
      t.hasOutcome view = true ∧ t.hasDelta view = true

section Sound

variable {t t' : SequenceTransfer S} {base : ℕ} {baseHead : D}

section

omit [DecidableEq K] [DecidableEq D]

theorem sound_new {transferId target : ℕ} {targetHead : D} {sources : List K} (h : base ≤ target) :
    (new S transferId base baseHead target targetHead sources).Sound base baseHead where
  targetView := rfl
  targetHead := rfl
  chain := ⟨[], ChainVerifier.follows_new h⟩
  outcomes _ _ h := by cases h
  deltas _ _ h := by cases h
  inFlight _ _ h := by cases h
  outcomeScan v hv hlt := absurd hlt (by simp only [new]; omega)
  deltaScan v hv hlt := absurd hlt (by simp only [new]; omega)
  phase h := by
    unfold new at h
    simp only at h
    split at h <;> rcases h with h | h <;> cases h
  done h := by
    unfold new at h
    simp only at h
    split at h <;> cases h

theorem Sound.view_le (h : t.Sound base baseHead)
    (hv : (t.chain.verifiedRecord view).isSome = true) : 1 ≤ view ∧ view ≤ t.targetView := by
  obtain ⟨bs, hbs⟩ := h.chain
  have := hbs.isSome.mp hv
  have := hbs.le_target
  rw [h.targetView] at this
  omega

theorem Sound.frame (h : t.Sound base baseHead) {sources : List K} {cursor : ℕ}
    {invalid : Table K ℕ} {state : TransferState} (hs : state = .exhausted ∨ state = t.state) :
    Sound base baseHead
      { t with sources := sources, cursor := cursor, invalid := invalid, state := state } where
  targetView := h.targetView
  targetHead := h.targetHead
  chain := h.chain
  outcomes := h.outcomes
  deltas := h.deltas
  inFlight := h.inFlight
  outcomeScan := h.outcomeScan
  deltaScan := h.deltaScan
  phase hv := by
    rcases hs with rfl | rfl
    · rcases hv with hv | hv <;> cases hv
    · exact h.phase hv
  done hv := by
    rcases hs with rfl | rfl
    · cases hv
    · exact h.done hv

end

omit [DecidableEq D] in
theorem Sound.dropSource (h : t.Sound base baseHead) (sender : K) :
    (t.dropSource sender).Sound base baseHead := by
  unfold SequenceTransfer.dropSource
  simp only
  split
  · exact h.frame (.inl rfl)
  · exact h.frame (.inr rfl)

omit [DecidableEq D] in
theorem Sound.penalize (h : t.Sound base baseHead) (sender : K) :
    (t.penalize sender).Sound base baseHead := by
  unfold SequenceTransfer.penalize
  simp only
  split
  · exact (h.frame (.inr rfl)).dropSource sender
  · exact h.frame (.inr rfl)

section

omit [DecidableEq K] [DecidableEq D]

theorem Sound.firstMissingOutcome (h : t.Sound base baseHead) :
    t.firstMissingOutcome.2.Sound base baseHead :=
  { h with outcomeScan := firstMissing_passed h.outcomeScan }

theorem Sound.firstMissingDelta (h : t.Sound base baseHead) :
    t.firstMissingDelta.2.Sound base baseHead :=
  { h with deltaScan := firstMissing_passed h.deltaScan }

theorem Sound.held (h : t.Sound base baseHead) {held : ℕ → Bool} {position : ℕ}
    (hp : t.Passed held position) (hm : (t.firstMissing held position).1 = none)
    (hv : (t.chain.verifiedRecord view).isSome = true) : held view = true := by
  obtain ⟨h₁, h₂⟩ := h.view_le hv
  have hmiss := firstMissing_none hp hm h₁ h₂
  rwa [isMissing, hv, Bool.true_and, Bool.not_eq_false'] at hmiss

theorem Sound.advanceIfDone (h : t.Sound base baseHead) : t.advanceIfDone.Sound base baseHead := by
  unfold SequenceTransfer.advanceIfDone
  split
  · exact h
  · next hcomplete =>
    have h₁ := h.firstMissingOutcome
    split
    · next t₁ heq =>
      rw [heq] at h₁
      exact h₁
    · next t₁ heq =>
      have hout : (t.firstMissing t.hasOutcome t.outcomeScanFrom).1 = none :=
        congrArg Prod.fst heq
      obtain rfl : t.firstMissingOutcome.2 = t₁ := congrArg Prod.snd heq
      have h₂ := h₁.firstMissingDelta
      split
      · next t₂ heq₂ =>
        rw [heq₂] at h₂
        exact h₂
      · next t₂ heq₂ =>
        have hdelta := congrArg Prod.fst heq₂
        obtain rfl := congrArg Prod.snd heq₂
        rw [Bool.not_eq_true, Bool.not_eq_false'] at hcomplete
        refine { h₂ with
          phase := fun _ => hcomplete
          done := fun _ => ⟨hcomplete, fun view hv => ⟨?_, ?_⟩⟩ }
        · exact h.held h.outcomeScan hout hv
        · exact h₁.held h₁.deltaScan hdelta hv

theorem Sound.setState (h : t.Sound base baseHead) (hc : t.chain.complete = true)
    (state : TransferState) (hs : state ≠ .verified) :
    Sound base baseHead { t with state := state } :=
  { h with
    phase := fun _ => hc
    done := fun hv => absurd hv hs }

end

omit [DecidableEq K] in
theorem Sound.absorbRecords (h : t.Sound base baseHead) (hs : t.state = .fetchingRecords)
    {records : List (SequenceRecord D)} {reached : Bool} {c : ChainVerifier S}
    (ha : t.chain.absorbRecords records = .ok (reached, c)) :
    Sound base baseHead { t with chain := c } := by
  obtain ⟨bs, hbs⟩ := h.chain
  obtain ⟨⟨bs', -, hbs'⟩, hview, hhead, -⟩ := hbs.absorb ha
  have hmono : ∀ view r, t.chain.verifiedRecord view = some r → c.verifiedRecord view = some r :=
    fun _ _ hr => hbs.mono hbs' hr
  have hpassed : ∀ {held : ℕ → Bool} {position : ℕ}, t.Passed held position →
      Passed { t with chain := c } held position := by
    intro held position hp view hv hlt
    obtain ⟨hr, hh⟩ := hp view hv hlt
    obtain ⟨r, hr⟩ := Option.isSome_iff_exists.mp hr
    exact ⟨Option.isSome_of_eq_some (hmono view r hr), hh⟩
  refine ⟨hview.trans h.targetView, hhead.trans h.targetHead, ⟨_, hbs'⟩, fun view o ho => ?_,
    fun view delta hd => ?_, fun view v hv => ?_, hpassed h.outcomeScan, hpassed h.deltaScan,
    fun hv => ?_, fun hv => ?_⟩
  · obtain ⟨r, hr, hmatch⟩ := h.outcomes view o ho
    exact ⟨r, hmono view r hr, hmatch⟩
  · obtain ⟨r, hr, hmatch⟩ := h.deltas view delta hd
    exact ⟨r, hmono view r hr, hmatch⟩
  · obtain ⟨r, hr, hmatch⟩ := h.inFlight view v hv
    exact ⟨r, hmono view r hr, hmatch⟩
  · simp only [hs] at hv
    rcases hv with hv | hv <;> cases hv
  · simp only [hs] at hv
    cases hv

theorem Sound.onRecords (h : t.Sound base baseHead) (chunk : SequenceRecordChunk D) (sender : K) :
    (t.onRecords chunk sender).2.Sound base baseHead := by
  unfold SequenceTransfer.onRecords
  split
  · exact h
  · next hstate =>
    have hs : t.state = .fetchingRecords := by
      by_contra hne
      exact hstate (.inl hne)
    simp only
    split
    · exact h
    · split
      · next complete chain ha =>
        have h₁ := h.absorbRecords hs ha
        split
        · next hreached =>
          obtain ⟨bs, hbs⟩ := h.chain
          have hc := (hbs.absorb ha).2.2.2.trans hreached
          exact (h₁.setState hc _ (by decide)).advanceIfDone
        · exact h₁
      · exact h.penalize sender

omit [DecidableEq K] [DecidableEq D] in
theorem Passed.mono {held held' : ℕ → Bool} {position : ℕ} (h : t.Passed held position)
    (hchain : t'.chain = t.chain) (hheld : ∀ view, held view = true → held' view = true) :
    t'.Passed held' position := by
  intro view hv hlt
  obtain ⟨hr, hh⟩ := h view hv hlt
  exact ⟨by rw [hchain]; exact hr, hheld view hh⟩

omit [DecidableEq K] [DecidableEq D] in
theorem Sound.insertOutcome (h : t.Sound base baseHead) {o : SequenceOutcome K D}
    (ho : ∃ r, t.chain.verifiedRecord view = some r ∧ o.digest S view = r.outcomeDigest) :
    Sound base baseHead { t with outcomes := t.outcomes.insert view o } := by
  have hheld : ∀ v, t.hasOutcome v = true →
      hasOutcome { t with outcomes := t.outcomes.insert view o } v = true := by
    intro v hv
    simp only [hasOutcome] at hv ⊢
    by_cases hvv : v = view
    · subst hvv
      rw [AList.lookup_insert, Option.isSome_some]
    · rwa [AList.lookup_insert_ne hvv]
  refine { h with
    outcomes := fun v o' hv => ?_
    outcomeScan := h.outcomeScan.mono rfl hheld
    done := fun hd => ⟨(h.done hd).1, fun v hv => ⟨hheld v ((h.done hd).2 v hv).1,
      ((h.done hd).2 v hv).2⟩⟩ }
  rcases Table.lookup_insert_cases hv with ⟨rfl, rfl⟩ | hold
  · exact ho
  · exact h.outcomes v o' hold

theorem Sound.onOutcomeEntries (h : t.Sound base baseHead) (sender : K)
    (entries : List (SequenceOutcomeEntry K D)) :
    (onOutcomeEntries sender entries t).2.Sound base baseHead := by
  induction entries generalizing t with
  | nil => exact h
  | cons entry entries ih =>
    rw [SequenceTransfer.onOutcomeEntries]
    split
    · exact ih h
    · split
      · exact h.penalize sender
      · next hcheck => exact ih (h.insertOutcome (ChainVerifier.checkOutcome_ok hcheck))

omit [DecidableEq D] in
theorem chain_penalize (sender : K) : (t.penalize sender).chain = t.chain := by
  unfold penalize dropSource
  simp only
  split
  · split <;> rfl
  · rfl

theorem chain_onOutcomeEntries (sender : K) (entries : List (SequenceOutcomeEntry K D)) :
    (onOutcomeEntries sender entries t).2.chain = t.chain := by
  induction entries generalizing t with
  | nil => rfl
  | cons entry entries ih =>
    rw [onOutcomeEntries]
    split
    · exact ih
    · split
      · exact chain_penalize sender
      · exact ih

theorem Sound.onOutcomes (h : t.Sound base baseHead) (serve : SequenceOutcomeServe K D)
    (sender : K) : (t.onOutcomes serve sender).2.Sound base baseHead := by
  unfold SequenceTransfer.onOutcomes
  split
  · exact h
  · next hstate =>
    have h₁ := h.onOutcomeEntries sender serve.outcomes
    have hchain := chain_onOutcomeEntries (t := t) sender serve.outcomes
    have hc : t.chain.complete = true := by
      apply h.phase
      by_contra hne
      exact hstate (.inl fun ho => hne (.inl ho))
    split
    · next heq =>
      rw [heq] at h₁
      exact h₁
    · next t₁ heq =>
      rw [heq] at h₁ hchain
      have h₂ := h₁.firstMissingOutcome
      split
      · next heq₂ =>
        rw [heq₂] at h₂
        exact h₂
      · next t₂ heq₂ =>
        obtain rfl := congrArg Prod.snd heq₂
        exact (h₂.setState ((congrArg ChainVerifier.complete hchain).trans hc) _
          (by decide)).advanceIfDone

section

omit [DecidableEq K] [DecidableEq D]

theorem Sound.eraseInFlight (h : t.Sound base baseHead) (view : ℕ) :
    Sound base baseHead { t with deltaInFlight := t.deltaInFlight.erase view } := by
  refine { h with inFlight := fun v x hx => ?_ }
  by_cases hv : v = view
  · subst hv
    rw [AList.lookup_erase] at hx
    cases hx
  · rw [AList.lookup_erase_ne hv] at hx
    exact h.inFlight v x hx

theorem Sound.insertDelta (h : t.Sound base baseHead) {delta : List D}
    (hd : ∃ r, t.chain.verifiedRecord view = some r ∧
      (deltaChain S view).head delta = r.deltaHead) :
    Sound base baseHead { t with deltas := t.deltas.insert view delta } := by
  have hheld : ∀ v, t.hasDelta v = true →
      hasDelta { t with deltas := t.deltas.insert view delta } v = true := by
    intro v hv
    simp only [hasDelta] at hv ⊢
    by_cases hvv : v = view
    · subst hvv
      rw [AList.lookup_insert, Option.isSome_some]
    · rwa [AList.lookup_insert_ne hvv]
  refine { h with
    deltas := fun v delta' hv => ?_
    deltaScan := h.deltaScan.mono rfl hheld
    done := fun hs => ⟨(h.done hs).1, fun v hv => ⟨((h.done hs).2 v hv).1,
      hheld v ((h.done hs).2 v hv).2⟩⟩ }
  rcases Table.lookup_insert_cases hv with ⟨rfl, rfl⟩ | hold
  · exact hd
  · exact h.deltas v delta' hold

theorem Sound.insertInFlight (h : t.Sound base baseHead) {v : DeltaVerifier S}
    (hv : ∃ r, t.chain.verifiedRecord view = some r ∧ v.view = view ∧ v.expectedLen = r.deltaLen ∧
      v.expectedHead = r.deltaHead) :
    Sound base baseHead { t with deltaInFlight := t.deltaInFlight.insert view v } := by
  refine { h with inFlight := fun w x hx => ?_ }
  rcases Table.lookup_insert_cases hx with ⟨rfl, rfl⟩ | hold
  · exact hv
  · exact h.inFlight w x hold

theorem Sound.verifier (h : t.Sound base baseHead) {r : SequenceRecord D}
    (hr : t.chain.verifiedRecord view = some r) :
    ((t.deltaInFlight.lookup view).getD (.new S view r)).view = view ∧
      ((t.deltaInFlight.lookup view).getD (.new S view r)).expectedLen = r.deltaLen ∧
      ((t.deltaInFlight.lookup view).getD (.new S view r)).expectedHead = r.deltaHead := by
  cases hv : t.deltaInFlight.lookup view with
  | none => exact ⟨rfl, rfl, rfl⟩
  | some v =>
    obtain ⟨r', hr', hmatch⟩ := h.inFlight view v hv
    obtain rfl := Option.some.inj (hr.symm.trans hr')
    exact hmatch

end

theorem Sound.onDeltaEntry (h : t.Sound base baseHead) (entry : SequenceDeltaEntry D) (sender : K) :
    (t.onDeltaEntry entry sender).2.Sound base baseHead := by
  unfold SequenceTransfer.onDeltaEntry
  split
  · exact h
  · next r hr =>
    obtain ⟨hview, hlen, hhead⟩ := h.verifier hr
    split
    · exact h
    · split
      · exact h
      · simp only
        split
        · next v ha =>
          obtain ⟨-, -, rfl, -, hdone⟩ := DeltaVerifier.absorb_ok ha
          refine ((h.eraseInFlight entry.view).insertDelta ⟨r, hr, ?_⟩).advanceIfDone
          rw [← hhead, ← hdone rfl, DeltaVerifier.running_eq]
          exact congrArg (fun view => (deltaChain S view).head _) hview.symm
        · next v ha =>
          obtain ⟨-, -, rfl, -, -⟩ := DeltaVerifier.absorb_ok ha
          exact h.insertInFlight ⟨r, hr, hview, hlen, hhead⟩
        · exact (h.eraseInFlight entry.view).penalize sender

theorem Sound.onDeltaEntries (h : t.Sound base baseHead) (sender : K)
    (entries : List (SequenceDeltaEntry D)) :
    (onDeltaEntries sender entries t).2.Sound base baseHead := by
  induction entries generalizing t with
  | nil => exact h
  | cons entry entries ih =>
    have h₁ := h.onDeltaEntry entry sender
    rw [SequenceTransfer.onDeltaEntries]
    split
    · next heq =>
      rw [heq] at h₁
      exact h₁
    · next heq =>
      rw [heq] at h₁
      exact ih h₁

end Sound

/-! ### Runs -/

/-- The answers that a transfer takes. -/
inductive Response (K D : Type)
  | records (chunk : SequenceRecordChunk D) (sender : K)
  | outcomes (serve : SequenceOutcomeServe K D) (sender : K)
  | delta (chunk : SequenceDeltaChunk D) (sender : K)
  | deltaRange (chunk : SequenceDeltaRangeChunk D) (sender : K)
  | unavailable (u : SequenceUnavailable D) (sender : K)

def receive (t : SequenceTransfer S) : Response K D → SequenceTransfer S
  | .records chunk sender => (t.onRecords chunk sender).2
  | .outcomes serve sender => (t.onOutcomes serve sender).2
  | .delta chunk sender => (t.onDelta chunk sender).2
  | .deltaRange chunk sender => (t.onDeltaRange chunk sender).2
  | .unavailable u sender => t.onUnavailable u sender

/-- A response, or one delta entry by itself. -/
inductive Call (K D : Type)
  | response (r : Response K D)
  | deltaEntry (entry : SequenceDeltaEntry D) (sender : K)

def call (t : SequenceTransfer S) : Call K D → SequenceTransfer S
  | .response r => t.receive r
  | .deltaEntry entry sender => (t.onDeltaEntry entry sender).2

def run (t : SequenceTransfer S) (calls : List (Call K D)) : SequenceTransfer S :=
  calls.foldl call t

variable {t : SequenceTransfer S} {base : ℕ} {baseHead : D}

theorem Sound.receive (h : t.Sound base baseHead) (r : Response K D) :
    (t.receive r).Sound base baseHead := by
  cases r with
  | records chunk sender => exact h.onRecords chunk sender
  | outcomes serve sender => exact h.onOutcomes serve sender
  | delta chunk sender =>
    simp only [SequenceTransfer.receive, onDelta]
    split
    · exact h
    · exact h.onDeltaEntry _ sender
  | deltaRange chunk sender =>
    simp only [SequenceTransfer.receive, onDeltaRange]
    split
    · exact h
    · exact h.onDeltaEntries sender _
  | unavailable u sender =>
    simp only [SequenceTransfer.receive, onUnavailable]
    split
    · exact h
    · exact h.dropSource sender

theorem Sound.call (h : t.Sound base baseHead) (c : Call K D) :
    (t.call c).Sound base baseHead := by
  cases c with
  | response r => exact h.receive r
  | deltaEntry entry sender => exact h.onDeltaEntry entry sender

theorem Sound.run (h : t.Sound base baseHead) (calls : List (Call K D)) :
    (t.run calls).Sound base baseHead := by
  induction calls generalizing t with
  | nil => exact h
  | cons c calls ih => exact ih (h.call c)

/-! ### The goal of a transfer -/

/-- What a transfer is for never changes. -/
def goal (t : SequenceTransfer S) : ℕ × ℕ × D := (t.transferId, t.targetView, t.targetHead)

omit [DecidableEq D] in
theorem goal_dropSource (sender : K) : (t.dropSource sender).goal = t.goal := by
  unfold dropSource
  simp only
  split <;> rfl

omit [DecidableEq D] in
theorem goal_penalize (sender : K) : (t.penalize sender).goal = t.goal := by
  unfold penalize
  simp only
  split
  · exact goal_dropSource sender
  · rfl

omit [DecidableEq K] [DecidableEq D] in
theorem goal_advanceIfDone : t.advanceIfDone.goal = t.goal := by
  unfold advanceIfDone
  split
  · rfl
  · split
    · next heq =>
      obtain rfl := congrArg Prod.snd heq
      rfl
    · next heq =>
      obtain rfl := congrArg Prod.snd heq
      split
      · next heq₂ =>
        obtain rfl := congrArg Prod.snd heq₂
        rfl
      · next heq₂ =>
        obtain rfl := congrArg Prod.snd heq₂
        rfl

theorem goal_onRecords (chunk : SequenceRecordChunk D) (sender : K) :
    (t.onRecords chunk sender).2.goal = t.goal := by
  unfold onRecords
  split
  · rfl
  · simp only
    split
    · rfl
    · split
      · split
        · exact goal_advanceIfDone
        · rfl
      · exact goal_penalize sender

theorem goal_onOutcomeEntries (sender : K) (entries : List (SequenceOutcomeEntry K D)) :
    (onOutcomeEntries sender entries t).2.goal = t.goal := by
  induction entries generalizing t with
  | nil => rfl
  | cons entry entries ih =>
    rw [onOutcomeEntries]
    split
    · exact ih
    · split
      · exact goal_penalize sender
      · exact ih

theorem goal_onOutcomes (serve : SequenceOutcomeServe K D) (sender : K) :
    (t.onOutcomes serve sender).2.goal = t.goal := by
  unfold onOutcomes
  split
  · rfl
  · have h₁ := goal_onOutcomeEntries (t := t) sender serve.outcomes
    split
    · next heq =>
      rw [heq] at h₁
      exact h₁
    · next t₁ heq =>
      rw [heq] at h₁
      split
      · next heq₂ =>
        obtain rfl := congrArg Prod.snd heq₂
        exact h₁
      · next heq₂ =>
        obtain rfl := congrArg Prod.snd heq₂
        exact goal_advanceIfDone.trans h₁

theorem goal_onDeltaEntry (entry : SequenceDeltaEntry D) (sender : K) :
    (t.onDeltaEntry entry sender).2.goal = t.goal := by
  unfold onDeltaEntry
  split
  · rfl
  · split
    · rfl
    · split
      · rfl
      · simp only
        split
        · exact goal_advanceIfDone
        · rfl
        · exact goal_penalize sender

theorem goal_onDeltaEntries (sender : K) (entries : List (SequenceDeltaEntry D)) :
    (onDeltaEntries sender entries t).2.goal = t.goal := by
  induction entries generalizing t with
  | nil => rfl
  | cons entry entries ih =>
    have h₁ := goal_onDeltaEntry (t := t) entry sender
    rw [onDeltaEntries]
    split
    · next heq =>
      rw [heq] at h₁
      exact h₁
    · next heq =>
      rw [heq] at h₁
      exact ih.trans h₁

theorem goal_receive (r : Response K D) : (t.receive r).goal = t.goal := by
  cases r with
  | records chunk sender => exact goal_onRecords chunk sender
  | outcomes serve sender => exact goal_onOutcomes serve sender
  | delta chunk sender =>
    simp only [SequenceTransfer.receive, onDelta]
    split
    · rfl
    · exact goal_onDeltaEntry _ sender
  | deltaRange chunk sender =>
    simp only [SequenceTransfer.receive, onDeltaRange]
    split
    · rfl
    · exact goal_onDeltaEntries sender _
  | unavailable u sender =>
    simp only [SequenceTransfer.receive, onUnavailable]
    split
    · rfl
    · exact goal_dropSource sender

theorem goal_call (c : Call K D) : (t.call c).goal = t.goal := by
  cases c with
  | response r => exact goal_receive r
  | deltaEntry entry sender => exact goal_onDeltaEntry entry sender

theorem goal_run (calls : List (Call K D)) : (t.run calls).goal = t.goal := by
  induction calls generalizing t with
  | nil => rfl
  | cons c calls ih => exact ih.trans (goal_call c)

/-! ### The output -/

section

omit [DecidableEq K] [DecidableEq D]

theorem Sound.entry_of_record (hS : S.hash.CollisionFree) {L : Ledger K D}
    (h : t.Sound base (L.headAt S base)) (ht : t.targetView ≤ L.length)
    (hhead : t.targetHead = L.headAt S t.targetView) (hc : t.chain.complete = true)
    {r : SequenceRecord D} (hr : t.chain.verifiedRecord view = some r) :
    ∃ e, L.entryAt view = some e ∧ r.outcomeDigest = e.1.digest S view ∧
      r.deltaLen = e.2.length ∧ r.deltaHead = (deltaChain S view).head e.2 := by
  obtain ⟨bs, hbs⟩ := h.chain
  obtain ⟨hlen, hend⟩ := hbs.complete hc
  rw [h.targetView] at hlen
  -- the ledger's own bodies lead from the base to the same head in as many steps
  have hsplit : (L.bodies S).take t.targetView =
      (L.bodies S).take base ++ ((L.bodies S).drop base).take bs.length := by
    rw [← hlen, List.take_add]
  have hown : L.headAt S t.targetView = (recordChain S).runFrom base (L.headAt S base)
      (((L.bodies S).drop base).take bs.length) := by
    rw [Ledger.headAt, hsplit, Chain.head_append,
      List.length_take_of_le (by rw [Ledger.length_bodies]; omega), Ledger.headAt]
  have heq : (recordChain S).runFrom base (L.headAt S base) bs =
      (recordChain S).runFrom base (L.headAt S base) (((L.bodies S).drop base).take bs.length) := by
    rw [← hown, ← hhead, ← h.targetHead, ← hend, hbs.head]
  obtain ⟨-, hbodies⟩ := (recordChain_binding hS).runFrom_injective (by
    rw [List.length_take_of_le]
    rw [List.length_drop, Ledger.length_bodies]
    omega) heq
  rw [hbs.verified] at hr
  obtain ⟨b, hb, rfl⟩ := viewGet_chainRecords hr
  have hv := viewGet_isSome.mp (Option.isSome_of_eq_some hb)
  rw [viewGet, if_neg (by omega), hbodies, List.getElem?_take_of_lt (by omega), List.getElem?_drop,
    show base + (view - (base + 1)) = view - 1 by omega, Ledger.getElem?_bodies,
    Option.map_eq_some_iff] at hb
  obtain ⟨e, he, rfl⟩ := hb
  rw [show view - 1 + 1 = view by omega]
  refine ⟨e, ?_, rfl, rfl, rfl⟩
  rw [Ledger.entryAt, if_neg (by omega), he]

theorem Sound.mem_outcomes (h : t.Sound base baseHead) (hv : t.state = .verified) :
    view ∈ t.outcomes ↔ view ∈ List.range' (base + 1) (t.targetView - base) := by
  obtain ⟨hc, hall⟩ := h.done hv
  obtain ⟨bs, hbs⟩ := h.chain
  have hlen := (hbs.complete hc).1
  rw [h.targetView] at hlen
  have hsome : (t.chain.verifiedRecord view).isSome = true ↔
      view ∈ List.range' (base + 1) (t.targetView - base) := by
    rw [hbs.isSome, List.mem_range'_1]
    omega
  rw [← hsome, ← AList.lookup_isSome]
  constructor
  · intro ho
    obtain ⟨o, ho⟩ := Option.isSome_iff_exists.mp ho
    obtain ⟨r, hr, -⟩ := h.outcomes view o ho
    exact Option.isSome_of_eq_some hr
  · exact fun hr => (hall view hr).1

theorem Sound.bodies_of_verified (hS : S.hash.CollisionFree) {L : Ledger K D}
    (h : t.Sound base (L.headAt S base)) (ht : t.targetView ≤ L.length)
    (hhead : t.targetHead = L.headAt S t.targetView) (hv : t.state = .verified)
    (hview : view ∈ t.outcomes) :
    ∃ e, L.entryAt view = some e ∧ t.outcomes.lookup view = some e.1 ∧
      t.deltas.lookup view = some e.2 := by
  obtain ⟨hc, hall⟩ := h.done hv
  obtain ⟨o, ho⟩ := Option.isSome_iff_exists.mp (AList.lookup_isSome.mpr hview)
  obtain ⟨r, hr, hdigest⟩ := h.outcomes view o ho
  obtain ⟨delta, hd⟩ := Option.isSome_iff_exists.mp (hall view (Option.isSome_of_eq_some hr)).2
  obtain ⟨r', hr', hdelta⟩ := h.deltas view delta hd
  obtain rfl := Option.some.inj (hr.symm.trans hr')
  obtain ⟨e, he, heo, -, hed⟩ := h.entry_of_record hS ht hhead hc hr
  refine ⟨e, he, ?_, ?_⟩
  · rw [ho, SequenceOutcome.digest_injective hS (hdigest.trans heo)]
  · rw [hd, (deltaChain_binding hS view).head_injective (hdelta.trans hed)]

theorem map_some_filterMap {α β : Type} {f g : α → Option β} {l : List α}
    (h : ∀ a ∈ l, f a = g a ∧ (g a).isSome = true) : (l.filterMap f).map some = l.map g := by
  induction l with
  | nil => rfl
  | cons a l ih =>
    obtain ⟨hfg, hs⟩ := h a List.mem_cons_self
    obtain ⟨b, hb⟩ := Option.isSome_iff_exists.mp hs
    rw [List.filterMap_cons, hfg, hb, List.map_cons, List.map_cons, hb,
      ih fun x hx => h x (List.mem_cons_of_mem a hx)]

end

/-- Transfer soundness: whatever is sent by whom, a transfer started with the heads of a store
at `base` and `target` gives out exactly the results of the views between them, in order. -/
theorem verifiedOutput_sound (hS : S.hash.CollisionFree) {s : SequenceStore S} (hs : s.Built)
    {base target : ℕ} (hlt : base < target) {baseHead targetHead : D}
    (hbase : s.headAt base = some baseHead) (htarget : s.headAt target = some targetHead)
    (transferId : ℕ) (sources : List K) (calls : List (Call K D))
    {output : List (ℕ × SequenceOutcome K D × List D)}
    (h : ((new S transferId base baseHead target targetHead sources).run calls).verifiedOutput =
      some output) :
    output.map some = (List.range' (base + 1) (target - base)).map s.viewOutput := by
  obtain ⟨L, hL⟩ := hs.holds
  have hle := hL.le_of_headAt htarget
  obtain rfl := Option.some.inj (hbase.symm.trans (hL.headAt (by omega)))
  obtain rfl := Option.some.inj (htarget.symm.trans (hL.headAt hle))
  have hsound : ((new S transferId base (L.headAt S base) target (L.headAt S target)
      sources).run calls).Sound base (L.headAt S base) := (sound_new hlt.le).run calls
  have hgoal := goal_run (t := new S transferId base (L.headAt S base) target (L.headAt S target)
    sources) calls
  generalize run _ calls = t at h hsound hgoal
  obtain ⟨-, hview, hhead⟩ : t.transferId = transferId ∧ t.targetView = target ∧
      t.targetHead = L.headAt S target := by simpa [goal, new] using hgoal
  subst hview
  unfold verifiedOutput at h
  split at h
  · cases h
  · next hv =>
    have hv := Decidable.not_not.mp hv
    have hkeys := Table.sortedKeys_eq (m := t.outcomes)
      (List.sortedLT_range' (base + 1) (t.targetView - base) Nat.one_ne_zero)
      fun view => hsound.mem_outcomes hv
    rw [hkeys] at h
    rw [← Option.some.inj h]
    refine map_some_filterMap fun view hview => ?_
    obtain ⟨e, he, ho, hd⟩ := hsound.bodies_of_verified hS hle hhead hv
      ((hsound.mem_outcomes hv).mpr hview)
    rw [ho, hd, SequenceStore.viewOutput, hL.outcomes, hL.deltas, he]
    exact ⟨rfl, rfl⟩

def sampleStore : SequenceStore .numbered :=
  .ofLedger .numbered 1 [(.skip, []), (.core [], [5])]

def sampleResponses : List (Response ℕ ℕ) :=
  [.records ⟨1, sampleStore.head, sampleStore.recordsFrom 1 2⟩ 7,
    .outcomes ⟨1, sampleStore.head, sampleStore.outcomesFrom 1 2 2 1⟩ 7,
    .deltaRange ⟨1, sampleStore.head, sampleStore.deltaEntriesFrom 1 0 2 2 1⟩ 7]

def sampleTransfer : SequenceTransfer .numbered :=
  new .numbered 1 0 (genesisHead .numbered) 2 sampleStore.head [7]

theorem verifiedOutput_sound_sampleTransfer :
    (sampleTransfer.run (sampleResponses.map .response)).verifiedOutput =
        some [(1, .skip, []), (2, .core [], [5])] ∧
      [some (1, .skip, []), some (2, .core [], [5])] =
        (List.range' 1 2).map sampleStore.viewOutput := by
  have hout : (sampleTransfer.run (sampleResponses.map .response)).verifiedOutput =
      some [(1, .skip, []), (2, .core [], [5])] := by decide +kernel
  have hbase : sampleStore.headAt 0 = some (genesisHead .numbered) := rfl
  have htarget : sampleStore.headAt 2 = some sampleStore.head := rfl
  exact ⟨hout, verifiedOutput_sound SequenceSession.numbered_collisionFree
    (SequenceStore.built_ofLedger _ _) (by decide) hbase htarget 1 [7] _ hout⟩

/-! ### After verification -/

/-- A notice that takes the last source away. -/
def LosesLastSource (t : SequenceTransfer S) : Response K D → Prop
  | .unavailable u sender =>
      u.transferId = t.transferId ∧ u.targetHead = t.targetHead ∧ t.sources.erase sender = []
  | _ => False

/-- No response of the sequence takes the last source away when it arrives. -/
def KeepsSources (t : SequenceTransfer S) : List (Response K D) → Prop
  | [] => True
  | r :: rs => ¬t.LosesLastSource r ∧ KeepsSources (t.receive r) rs

theorem receive_verified (hv : t.state = .verified) {r : Response K D}
    (hr : ¬t.LosesLastSource r) :
    (t.receive r).state = .verified ∧ (t.receive r).outcomes = t.outcomes ∧
      (t.receive r).deltas = t.deltas := by
  cases r with
  | records chunk sender =>
    simp only [receive, onRecords]
    rw [if_pos (.inl (by rw [hv]; decide))]
    exact ⟨hv, rfl, rfl⟩
  | outcomes serve sender =>
    simp only [receive, onOutcomes]
    rw [if_pos (.inl (by rw [hv]; decide))]
    exact ⟨hv, rfl, rfl⟩
  | delta chunk sender =>
    simp only [receive, onDelta]
    rw [if_pos (.inl (by rw [hv]; decide))]
    exact ⟨hv, rfl, rfl⟩
  | deltaRange chunk sender =>
    simp only [receive, onDeltaRange]
    rw [if_pos (.inl (by rw [hv]; decide))]
    exact ⟨hv, rfl, rfl⟩
  | unavailable u sender =>
    simp only [receive, onUnavailable]
    split
    · exact ⟨hv, rfl, rfl⟩
    · next hmatch =>
      rw [not_or, Decidable.not_not, Decidable.not_not] at hmatch
      have hne : (t.sources.erase sender).isEmpty = false := by
        rw [List.isEmpty_eq_false_iff]
        exact fun he => hr ⟨hmatch.1, hmatch.2, he⟩
      unfold dropSource
      simp only [hne]
      exact ⟨hv, rfl, rfl⟩

/-- While it has a source left, a verified transfer stays verified and keeps its output,
whatever arrives. -/
theorem verified_terminal (t : SequenceTransfer S) (hv : t.state = .verified)
    (responses : List (Response K D)) (hr : t.KeepsSources responses) :
    (responses.foldl receive t).state = .verified ∧
      (responses.foldl receive t).verifiedOutput = t.verifiedOutput := by
  induction responses generalizing t with
  | nil => exact ⟨hv, rfl⟩
  | cons r rs ih =>
    obtain ⟨hv', houtcomes, hdeltas⟩ := receive_verified hv hr.1
    obtain ⟨hstate, hout⟩ := ih (t.receive r) hv' hr.2
    refine ⟨hstate, hout.trans ?_⟩
    rw [verifiedOutput, verifiedOutput, hv, hv', houtcomes, hdeltas]

/-- A repeated answer of the only source after verification. -/
theorem verified_terminal_sampleTransfer :
    (sampleResponses.foldl receive sampleTransfer).state = .verified ∧
      (sampleResponses.foldl receive (sampleResponses.foldl receive sampleTransfer)).state =
        .verified := by
  have hv : (sampleResponses.foldl receive sampleTransfer).state = .verified := by decide +kernel
  exact ⟨hv, (verified_terminal _ hv sampleResponses (by
    simp only [sampleResponses, KeepsSources, LosesLastSource]
    exact ⟨id, id, id, trivial⟩)).1⟩

/-- A late notice of the only source undoes the verification. -/
theorem verified_not_terminal :
    (sampleResponses.foldl receive sampleTransfer).state = .verified ∧
      ((sampleResponses ++ [Response.unavailable ⟨1, sampleStore.head⟩ 7]).foldl receive
        sampleTransfer).state = .exhausted ∧
      ((sampleResponses ++ [Response.unavailable ⟨1, sampleStore.head⟩ 7]).foldl receive
        sampleTransfer).verifiedOutput = none := by
  decide +kernel

end SequenceTransfer

end Vantage
