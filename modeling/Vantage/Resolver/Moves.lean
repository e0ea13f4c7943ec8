import Vantage.Resolver.Refine

/-!
# What one step of a target can do

`CoreStep` follows the part of a target on which agreement rests.  `TargetStep` lists the ways in
which the whole state of a target can change: the retained values, the wishes, the candidates, the
fetches and the replay marks, with what is sent along.

* `DirectResolutionEffect.targetOf`, `replayKey`: what an effect is about;
* `ViewStep`, `InnerStep`, `TargetStep`: the atomic steps.
-/

namespace Vantage

variable {K D : Type} [LinearOrder K] [LinearOrder D] [Inhabited D] {S : Session K D}
  {target : ℕ} {cfg : ResolverConfig K D} {known : D → Prop} {committee : Committee K}
  {i : DirectInstance K D}

/-! ### What an effect is about -/

namespace DirectResolutionEffect

def targetOf : DirectResolutionEffect K D → Option ℕ
  | .broadcastWish m => some m.target
  | .wishTo _ m => some m.target
  | .suggestTo _ m => some m.target
  | .broadcastProof m => some m.target
  | .proofTo _ m => some m.target
  | .broadcastWitness m => some m.target
  | .witnessTo _ m => some m.target
  | .broadcastProposal m => some m.target
  | .proposalTo _ m => some m.target
  | .broadcastStatement m => some m.target
  | .statementTo _ m => some m.target
  | .broadcastDone m => some m.target
  | .doneTo _ m => some m.target
  | .valueFetchTo _ m => some m.target
  | .valueServeTo _ m => some m.target
  | .armTimer target _ _ _ => some target
  | .validateVote target _ _ _ _ => some target
  | .decide e => some e.targetView
  | .abort => none

/-- Effects other than wishes, entries, replays, served values and failed expectations. -/
def isPlain : DirectResolutionEffect K D → Bool
  | .broadcastWitness _ => true
  | .broadcastProposal _ => true
  | .broadcastStatement _ => true
  | .broadcastDone _ => true
  | .valueFetchTo _ _ => true
  | .armTimer _ _ _ _ => true
  | .validateVote _ _ _ _ _ => true
  | .decide _ => true
  | _ => false

/-- The coordinate that an effect sends to one party: the receiver, the resolver view and the
kind of the send. -/
def replayKey : DirectResolutionEffect K D → Option (K × ℕ × DirectReplayKind)
  | .suggestTo q m => some (q, m.view, .suggest)
  | .proofTo q m => some (q, m.view, .proof)
  | .proposalTo q m => some (q, m.view, .proposal)
  | .statementTo q m => some (q, m.view, .statement m.phase)
  | .witnessTo q m => some (q, m.view, .witness)
  | _ => none

end DirectResolutionEffect

/-! ### Steps -/

/-- What one call brings to a target: wishes of others, values, requests for values (with whether
the target is decided), and whether an instance may start. -/
structure CallInputs (K D : Type) where
  mayStart : Prop
  wish : K → ℕ → Prop
  value : ResolutionEntry K D → Prop
  fetch : D → K → Bool → Prop

/-- The atomic steps of one resolver view. -/
inductive ViewStep (cfg : ResolverConfig K D) (target view : ℕ) (known : D → Prop) :
    DirectViewState K D → DirectViewState K D → Prop
  | suggest {st m} (hm : m.target = target ∧ m.view = view) (hn : m.sender ∉ st.suggestions) :
      ViewStep cfg target view known st
        { st with suggestions := st.suggestions.insert m.sender m }
  | proof {st m} (hm : m.target = target ∧ m.view = view) (hn : m.sender ∉ st.proofs) :
      ViewStep cfg target view known st { st with proofs := st.proofs.insert m.sender m }
  | propose {st m} (hm : m.target = target ∧ m.view = view) (hn : st.proposal = none) :
      ViewStep cfg target view known st { st with proposal := some m }
  | vote {st} (status : VoteStatus) (origin : Option ℕ) :
      ViewStep cfg target view known st { st with voteStatus := status, voteOrigin := origin }
  | say {st phase r} (hn : st.sent phase = none) :
      ViewStep cfg target view known st
        { st with
          sent := Function.update st.sent phase (some r.value)
          statements := Function.update st.statements phase
            ((st.statements phase).insert cfg.name r) }
  | statement {st q phase} (r : StatementRecord D) (hn : q ∉ st.statements phase) :
      ViewStep cfg target view known st
        { st with
          statements := Function.update st.statements phase ((st.statements phase).insert q r) }
  | witness {st value} (hn : st.backingSent = none) (hv : known value) :
      ViewStep cfg target view known st
        { st with
          backingSent := some value
          backingWitnesses := st.backingWitnesses.insert cfg.name value }
  | witnessed {st q} (value : D) (hn : q ∉ st.backingWitnesses) :
      ViewStep cfg target view known st
        { st with backingWitnesses := st.backingWitnesses.insert q value }

/-- The steps that touch neither the retained values nor the wishes nor the replay marks. -/
inductive InnerStep (cfg : ResolverConfig K D) :
    TargetState S cfg.committee target → List (DirectResolutionEffect K D) →
      TargetState S cfg.committee target → Prop
  | plain {s es} (h : ∀ x ∈ es, x.isPlain = true ∧ x.targetOf = some target) :
      InnerStep cfg s es s
  | cursor {s i} (next : Option (ResolutionEntry K D)) (hi : s.inst = some i) :
      InnerStep cfg s [] { s with inst := some { i with nextCandidate := next } }
  | view {s i view st'} (hi : s.inst = some i)
      (h : ViewStep cfg target view (· ∈ s.values) ((i.views.lookup view).getD {}) st') :
      InnerStep cfg s [] { s with inst := some { i with views := i.views.insert view st' } }
  | key {s i} (view : ℕ) (phase : DirectResolutionPhase) (value : D) (hi : s.inst = some i) :
      InnerStep cfg s [] { s with inst := some (TargetState.recordKey view phase value i) }
  | sendDone {s i value} (hi : s.inst = some i) (hn : i.doneSent = none) (hv : value ∈ s.values) :
      InnerStep cfg s []
        { s with
          inst := some { i with doneSent := some value, done := i.done.insert cfg.name value } }
  | done {s i q value} (hi : s.inst = some i) (hn : q ∉ i.done) (hv : value ∈ s.values) :
      InnerStep cfg s [] { s with inst := some { i with done := i.done.insert q value } }
  | decide {s i} (value : D) (e : ResolutionEntry K D) (hi : s.inst = some i) :
      InnerStep cfg s []
        { s with
          decision := some (value, e)
          inst := none
          pendingFetch := ∅
          fetchRequested := ∅
          fetchAnswered := ∅ }
  | fetch {s pending} (requested : Finset (D × K))
      (hp : s.inst.isSome ∨ pending ⊆ s.pendingFetch) :
      InnerStep cfg s [] { s with pendingFetch := pending, fetchRequested := requested }

/-- The atomic steps of one target. -/
inductive TargetStep (cfg : ResolverConfig K D) (J : CallInputs K D) :
    TargetState S cfg.committee target → List (DirectResolutionEffect K D) →
      TargetState S cfg.committee target → Prop
  | inner {s es s'} (h : InnerStep cfg s es s') : TargetStep cfg J s es s'
  | retain {s e} (hJ : J.value e)
      (ho : s.inst.isSome ∨ J.mayStart ∨ s.pendingFetch.Nonempty) :
      TargetStep cfg J s [] (s.rememberEntry e).2
  | bar {s} : TargetStep cfg J s [] { s with fullBarred := true }
  | start {s} (hi : s.inst = none) (hd : s.decision = none) (hJ : J.mayStart) :
      TargetStep cfg J s [] { s with inst := some {} }
  | join {s i wishes} (hi : s.inst = some i)
      (hw : ∀ q v, wishes.lookup q = some v →
        i.wishes.lookup q = some v ∨ s.passiveWishes.lookup q = some v) :
      TargetStep cfg J s [] { s with inst := some { i with wishes := wishes }, passiveWishes := ∅ }
  | passive {s q v} (hJ : J.wish q v) :
      TargetStep cfg J s [] { s with passiveWishes := s.passiveWishes.insert q v }
  | wish {s i q v} (hi : s.inst = some i) (hJ : J.wish q v) :
      TargetStep cfg J s [] { s with inst := some { i with wishes := i.wishes.insert q v } }
  | raise {s i v} (hi : s.inst = some i) (hlt : i.ownWish < v)
      (hv : v = 1 ∨ v = i.currentView + 1 ∨
        v = TargetState.kthLargest (TargetState.wishViews i) cfg.fPlus1Parties) :
      TargetStep cfg J s [.broadcastWish ⟨target, v, cfg.name⟩]
        { s with inst := some { i with ownWish := v, wishes := i.wishes.insert cfg.name v } }
  | rewish {s i} (hi : s.inst = some i) :
      TargetStep cfg J s [.broadcastWish ⟨target, i.ownWish, cfg.name⟩] s
  | candidates {s i} (l : List (ResolutionEntry K D)) (hi : s.inst = some i)
      (hl : ∀ e ∈ l, validEntry cfg.committee target e = true ∧ valueDigest S e ∈ s.values) :
      TargetStep cfg J s [] { s with inst := some { i with candidates := l } }
  | enter {s i st v suggest proof} (hi : s.inst = some i) (hv : v = i.enteredThrough + 1)
      (hq : v ≤ TargetState.kthLargest (TargetState.wishViews i) cfg.quorumParties)
      (hst : st = (i.views.lookup v).getD {})
      (hs : suggest.target = target ∧ suggest.view = v)
      (hp : proof.target = target ∧ proof.view = v) :
      TargetStep cfg J s
        (.broadcastProof proof ::
          if resolutionLeader cfg target v ≠ cfg.name then
            [.suggestTo (resolutionLeader cfg target v) suggest] else [])
        { s with
          inst := some
            { i with
              enteredThrough := v
              currentView := v
              views := i.views.insert v
                { st with
                  suggestions := st.suggestions.insert cfg.name suggest
                  proofs := st.proofs.insert cfg.name proof } } }
  | serve {s value q e} (hJ : J.fetch value q s.decision.isSome) (he : s.entry value = some e)
      (hn : (value, q) ∉ s.fetchAnswered) :
      TargetStep cfg J s [.valueServeTo q ⟨target, value, e⟩]
        { s with fetchAnswered := insert (value, q) s.fetchAnswered }
  | replay {s i view st q} {fresh : List (DirectReplayKind × DirectResolutionEffect K D)}
      (hi : s.inst = some i) (hl : i.views.lookup view = some st)
      (hk : ∀ x ∈ fresh, x.2.replayKey = some (q, view, x.1) ∧ x.2.targetOf = some target ∧
        (x.1, q) ∉ st.replayedTo)
      (hd : (fresh.map Prod.fst).Nodup) :
      TargetStep cfg J s (fresh.map Prod.snd)
        { s with
          inst := some
            { i with
              views := i.views.insert view
                { st with
                  replayedTo := st.replayedTo ∪ (fresh.map fun x => (x.1, q)).toFinset } } }
  | replayWish {s i q} (hi : s.inst = some i)
      (hlt : (i.wishReplayedThrough.lookup q).getD 0 < i.ownWish) :
      TargetStep cfg J s [.wishTo q ⟨target, i.ownWish, cfg.name⟩]
        { s with
          inst := some
            { i with wishReplayedThrough := i.wishReplayedThrough.insert q i.ownWish } }
  | replayDone {s q} (value : D) (e : ResolutionEntry K D)
      (h : s.inst.isSome ∨ s.decision.isSome) (hn : q ∉ s.doneReplayedTo) :
      TargetStep cfg J s [.doneTo q ⟨target, value, e, cfg.name⟩]
        { s with doneReplayedTo := insert q s.doneReplayedTo }

/-! ### What is filed -/

omit [LinearOrder D] [Inhabited D] in
/-- The messages of a resolver view are filed under it, and the own witness has its value
retained. -/
structure DirectViewState.Filed (target view : ℕ) (known : D → Prop) (st : DirectViewState K D) :
    Prop where
  suggestions : ∀ q m, st.suggestions.lookup q = some m → m.target = target ∧ m.view = view
  proofs : ∀ q m, st.proofs.lookup q = some m → m.target = target ∧ m.view = view
  proposal : ∀ m, st.proposal = some m → m.target = target ∧ m.view = view
  backing : ∀ value, st.backingSent = some value → known value

/-- Every view of an instance is filed, and every value on which its progress rests is retained. -/
structure DirectInstance.Filed (S : Session K D) (committee : Committee K) (target : ℕ)
    (known : D → Prop) (i : DirectInstance K D) : Prop where
  views : ∀ view st, i.views.lookup view = some st → st.Filed target view known
  candidates : ∀ e ∈ i.candidates, validEntry committee target e = true ∧ known (valueDigest S e)
  doneSent : ∀ value, i.doneSent = some value → known value
  done : ∀ q value, i.done.lookup q = some value → known value

/-- A decided target has no instance, and an instance is filed. -/
structure TargetState.Filed {committee : Committee K} (s : TargetState S committee target) :
    Prop where
  decided : s.decision.isSome → s.inst = none
  inst : ∀ i, s.inst = some i → i.Filed S committee target (· ∈ s.values)

omit [LinearOrder D] [Inhabited D] in
theorem DirectViewState.Filed.empty (target view : ℕ) (known : D → Prop) :
    ({} : DirectViewState K D).Filed target view known := by
  refine ⟨fun q m h => ?_, fun q m h => ?_, fun m h => ?_, fun value h => ?_⟩ <;> cases h

omit [LinearOrder D] [Inhabited D] in
theorem DirectViewState.Filed.mono {view : ℕ} {known known' : D → Prop} {st : DirectViewState K D}
    (h : st.Filed target view known) (hk : ∀ d, known d → known' d) :
    st.Filed target view known' :=
  ⟨h.suggestions, h.proofs, h.proposal, fun value hv => hk value (h.backing value hv)⟩

theorem DirectInstance.Filed.mono {known known' : D → Prop} (h : i.Filed S committee target known)
    (hk : ∀ d, known d → known' d) :
    i.Filed S committee target known' where
  views view st hl := (h.views view st hl).mono hk
  candidates e he := ⟨(h.candidates e he).1, hk _ (h.candidates e he).2⟩
  doneSent value hv := hk value (h.doneSent value hv)
  done q value hv := hk value (h.done q value hv)

theorem DirectInstance.Filed.view (h : i.Filed S committee target known) (view : ℕ) :
    ((i.views.lookup view).getD {}).Filed target view known := by
  cases hl : i.views.lookup view with
  | none => exact .empty _ _ _
  | some st => exact h.views view st hl

theorem DirectInstance.Filed.insert (h : i.Filed S committee target known) {view : ℕ}
    {st : DirectViewState K D} (hst : st.Filed target view known) :
    DirectInstance.Filed S committee target known { i with views := i.views.insert view st }
    where
  views v st' hl := by
    by_cases hv : v = view
    · subst hv
      rw [AList.lookup_insert] at hl
      cases hl
      exact hst
    · rw [AList.lookup_insert_ne hv] at hl
      exact h.views v st' hl
  candidates := h.candidates
  doneSent := h.doneSent
  done := h.done

omit [LinearOrder D] [Inhabited D] in
theorem ViewStep.filed {view : ℕ} {st st' : DirectViewState K D}
    (h : ViewStep cfg target view known st st') (hf : st.Filed target view known) :
    st'.Filed target view known := by
  cases h with
  | suggest hm _ =>
    exact ⟨Table.forall_insert hf.suggestions hm, hf.proofs, hf.proposal, hf.backing⟩
  | proof hm _ => exact ⟨hf.suggestions, Table.forall_insert hf.proofs hm, hf.proposal, hf.backing⟩
  | propose hm _ =>
    refine ⟨hf.suggestions, hf.proofs, fun m h => ?_, hf.backing⟩
    cases h
    exact hm
  | vote => exact { hf with }
  | say _ => exact { hf with }
  | statement _ _ => exact { hf with }
  | witness _ hv =>
    refine ⟨hf.suggestions, hf.proofs, hf.proposal, fun value h => ?_⟩
    cases h
    exact hv
  | witnessed _ _ => exact { hf with }

namespace TargetState

variable {committee : Committee K} {s : TargetState S committee target}

theorem mem_values_rememberEntry (e : ResolutionEntry K D) {d : D} (h : d ∈ s.values) :
    d ∈ (s.rememberEntry e).2.values := by
  unfold rememberEntry
  split
  · dsimp only
    split
    · exact h
    · exact (AList.mem_insert _).mpr (.inr h)
  · exact h

theorem rememberEntry_decision (e : ResolutionEntry K D) :
    (s.rememberEntry e).2.decision = s.decision := by
  obtain ⟨values, h⟩ := rememberEntry_eq e s
  rw [h]

theorem Filed.empty : ({} : TargetState S committee target).Filed := by
  refine ⟨fun _ => rfl, fun i hi => ?_⟩
  cases hi

theorem Filed.rememberEntry (h : s.Filed) (e : ResolutionEntry K D) :
    (s.rememberEntry e).2.Filed where
  decided hd := by
    rw [rememberEntry_decision] at hd
    rw [rememberEntry_inst]
    exact h.decided hd
  inst i hi := by
    rw [rememberEntry_inst] at hi
    exact (h.inst i hi).mono fun d hd => mem_values_rememberEntry e hd

theorem Filed.setInst (h : s.Filed) {s' : TargetState S committee target}
    {i i' : DirectInstance K D} (hi : s.inst = some i) (hs : s'.inst = some i')
    (hv : s'.values = s.values) (hd : s'.decision = s.decision)
    (hi' : i.Filed S committee target (· ∈ s.values) →
      i'.Filed S committee target (· ∈ s.values)) : s'.Filed where
  decided hsome := by
    have := h.decided (hd ▸ hsome)
    rw [hi] at this
    cases this
  inst j hj := by
    rw [hs] at hj
    cases hj
    rw [hv]
    exact hi' (h.inst i hi)

end TargetState

variable {s s' : TargetState S cfg.committee target} {es : List (DirectResolutionEffect K D)}

theorem InnerStep.filed (h : InnerStep cfg s es s') (hf : s.Filed) :
    s'.Filed := by
  cases h with
  | plain _ => exact hf
  | cursor _ hi =>
    exact hf.setInst hi rfl rfl rfl fun h => { h with }
  | view hi hstep => exact hf.setInst hi rfl rfl rfl fun h => h.insert (hstep.filed (h.view _))
  | key view phase value hi =>
    refine hf.setInst hi rfl rfl rfl fun h => ?_
    unfold TargetState.recordKey
    split
    · exact h
    · split <;> exact { h with }
    · split <;> exact { h with }
    · exact { h with }
    · exact { h with }
  | sendDone hi _ hv =>
    refine hf.setInst hi rfl rfl rfl fun h => ⟨h.views, h.candidates, fun value h => ?_,
      Table.forall_insert h.done hv⟩
    cases h
    exact hv
  | done hi _ hv =>
    exact hf.setInst hi rfl rfl rfl fun h =>
      ⟨h.views, h.candidates, h.doneSent, Table.forall_insert h.done hv⟩
  | decide value e hi => exact ⟨fun _ => rfl, fun i hi => by cases hi⟩
  | fetch _ _ => exact ⟨hf.decided, hf.inst⟩

theorem TargetStep.filed {J : CallInputs K D} (h : TargetStep cfg J s es s') (hf : s.Filed) :
    s'.Filed := by
  cases h with
  | inner h => exact h.filed hf
  | @retain e _ _ => exact hf.rememberEntry e
  | bar => exact ⟨hf.decided, hf.inst⟩
  | start _ hd _ =>
    refine ⟨fun h => ?_, fun i hi => ?_⟩
    · rw [hd] at h
      cases h
    · cases hi
      refine ⟨fun _ _ h => ?_, fun _ h => ?_, fun _ h => ?_, fun _ _ h => ?_⟩ <;> cases h
  | join hi _ =>
    exact hf.setInst hi rfl rfl rfl fun h => { h with }
  | passive _ => exact ⟨hf.decided, hf.inst⟩
  | wish hi _ =>
    exact hf.setInst hi rfl rfl rfl fun h => { h with }
  | raise hi _ _ =>
    exact hf.setInst hi rfl rfl rfl fun h => { h with }
  | rewish _ => exact hf
  | candidates l hi hl => exact hf.setInst hi rfl rfl rfl fun h => ⟨h.views, hl, h.doneSent, h.done⟩
  | @enter i _ v suggest proof hi _ _ hst hs hp =>
    subst hst
    refine hf.setInst hi rfl rfl rfl fun h => ?_
    have hview := h.view v
    have hins := @DirectInstance.Filed.insert _ _ _ _ _ _ _ _ _ _ h v
      { (i.views.lookup v).getD {} with
        suggestions := ((i.views.lookup v).getD {}).suggestions.insert cfg.name suggest
        proofs := ((i.views.lookup v).getD {}).proofs.insert cfg.name proof }
      ⟨Table.forall_insert hview.suggestions hs, Table.forall_insert hview.proofs hp,
        hview.proposal, hview.backing⟩
    exact ⟨hins.views, h.candidates, h.doneSent, h.done⟩
  | serve _ _ _ => exact ⟨hf.decided, hf.inst⟩
  | replay hi hl _ _ =>
    refine hf.setInst hi rfl rfl rfl fun h => h.insert ?_
    have := h.views _ _ hl
    exact { this with }
  | replayWish hi _ =>
    exact hf.setInst hi rfl rfl rfl fun h => { h with }
  | replayDone _ _ _ _ => exact ⟨hf.decided, hf.inst⟩

/-! ### What the inner steps leave alone -/

/-- The entry of views and the replayed wishes of an instance. -/
def DirectInstance.entryPart (i : DirectInstance K D) : (ℕ × Table K ℕ) × ℕ × ℕ × Table K ℕ :=
  ((i.ownWish, i.wishes), i.enteredThrough, i.currentView, i.wishReplayedThrough)

/-- The coordinates of a resolver view that have been replayed. -/
def DirectInstance.marks (i : DirectInstance K D) (view : ℕ) : Finset (DirectReplayKind × K) :=
  ((i.views.lookup view).getD {}).replayedTo

/-- The values, the wishes and the replay marks are as they were; a decision drops the instance
and forgets the served values. -/
structure TargetState.Still {committee : Committee K} (s s' : TargetState S committee target) :
    Prop where
  values : s'.values = s.values
  doneReplayedTo : s'.doneReplayedTo = s.doneReplayedTo
  passiveWishes : s'.passiveWishes = s.passiveWishes
  inst : ∀ i', s'.inst = some i' → ∃ i, s.inst = some i ∧ i'.entryPart = i.entryPart ∧
    i'.marks = i.marks
  alive : s.inst.isSome → s'.inst.isSome ∨ s'.decision.isSome
  decision : s.decision.isSome → s'.decision.isSome
  idle : s.inst = none → s'.decision = s.decision
  served : s'.fetchAnswered = s.fetchAnswered ∨ s.inst.isSome ∧ s'.decision.isSome

namespace TargetState.Still

variable {committee : Committee K} {s s' s'' : TargetState S committee target}

theorem refl (s : TargetState S committee target) : s.Still s where
  values := rfl
  doneReplayedTo := rfl
  passiveWishes := rfl
  inst i hi := ⟨i, hi, rfl, rfl⟩
  alive := .inl
  decision := id
  idle _ := rfl
  served := .inl rfl

theorem trans (h : s.Still s') (h' : s'.Still s'') : s.Still s'' where
  values := h'.values.trans h.values
  doneReplayedTo := h'.doneReplayedTo.trans h.doneReplayedTo
  passiveWishes := h'.passiveWishes.trans h.passiveWishes
  inst i'' hi'' := by
    obtain ⟨i', hi', he', hm'⟩ := h'.inst i'' hi''
    obtain ⟨i, hi, he, hm⟩ := h.inst i' hi'
    exact ⟨i, hi, he'.trans he, hm'.trans hm⟩
  alive hs := (h.alive hs).elim h'.alive fun hd => .inr (h'.decision hd)
  decision hd := h'.decision (h.decision hd)
  idle hs := by
    have hs' : s'.inst = none := by
      cases hi' : s'.inst with
      | none => rfl
      | some i' =>
        obtain ⟨i, hi, -⟩ := h.inst i' hi'
        rw [hs] at hi
        cases hi
    exact (h'.idle hs').trans (h.idle hs)
  served := by
    rcases h'.served with heq | ⟨hlive, hd⟩
    · exact h.served.imp (heq.trans ·) fun hs => ⟨hs.1, h'.decision hs.2⟩
    · obtain ⟨i', hi'⟩ := Option.isSome_iff_exists.mp hlive
      obtain ⟨i, hi, -⟩ := h.inst i' hi'
      exact .inr ⟨Option.isSome_iff_exists.mpr ⟨i, hi⟩, hd⟩

theorem of_inst {i i' : DirectInstance K D} (hi : s.inst = some i)
    (he : i'.entryPart = i.entryPart) (hm : i'.marks = i.marks) :
    s.Still { s with inst := some i' } where
  values := rfl
  doneReplayedTo := rfl
  passiveWishes := rfl
  inst j hj := by
    cases hj
    exact ⟨i, hi, he, hm⟩
  alive _ := .inl rfl
  decision := id
  idle _ := rfl
  served := .inl rfl

end TargetState.Still

omit [LinearOrder D] [Inhabited D] in
theorem ViewStep.replayedTo {view : ℕ} {st st' : DirectViewState K D}
    (h : ViewStep cfg target view known st st') :
    st'.replayedTo = st.replayedTo := by
  cases h <;> rfl

omit [LinearOrder K] [LinearOrder D] in
theorem DirectInstance.marks_insert (i : DirectInstance K D) (view : ℕ)
    (st : DirectViewState K D) : DirectInstance.marks { i with views := i.views.insert view st } =
      Function.update i.marks view st.replayedTo := by
  funext v
  unfold marks
  by_cases hv : v = view
  · subst hv
    rw [AList.lookup_insert, Function.update_self]
    rfl
  · rw [AList.lookup_insert_ne hv, Function.update_of_ne hv]

theorem InnerStep.still (h : InnerStep cfg s es s') :
    s.Still s' := by
  cases h with
  | plain _ => exact .refl s
  | cursor _ hi => exact .of_inst hi rfl rfl
  | @view i view st' hi hstep =>
    refine .of_inst hi rfl ?_
    rw [DirectInstance.marks_insert, hstep.replayedTo]
    exact Function.update_eq_self view i.marks
  | key view phase value hi =>
    refine .of_inst hi ?_ ?_
    · unfold TargetState.recordKey
      split <;> first | rfl | (split <;> rfl)
    · unfold TargetState.recordKey
      split <;> first | rfl | (split <;> rfl)
  | sendDone hi _ _ => exact .of_inst hi rfl rfl
  | done hi _ _ => exact .of_inst hi rfl rfl
  | decide value e hi =>
    refine ⟨rfl, rfl, rfl, fun i hi => ?_, fun _ => .inr rfl, fun _ => rfl, fun hn => ?_,
      .inr ⟨Option.isSome_iff_exists.mpr ⟨_, hi⟩, rfl⟩⟩
    · cases hi
    · rw [hi] at hn
      cases hn
  | fetch _ _ =>
    exact ⟨rfl, rfl, rfl, fun i hi => ⟨i, hi, rfl, rfl⟩, .inl, id, fun _ => rfl, .inl rfl⟩

theorem InnerStep.still_of_steps (h : Steps (InnerStep cfg) s es s') :
    s.Still s' := by
  induction h with
  | refl s => exact .refl s
  | step hr _ ih => exact hr.still.trans ih

end Vantage
