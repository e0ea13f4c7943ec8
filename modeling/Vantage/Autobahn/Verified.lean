import Vantage.Autobahn.Messages

/-!
# The cache of verified objects

`VerifiedCache` remembers in two generations the keys of objects that passed their checks.  Every
check first looks its key up and verifies only on a miss.

* `run_eq_verdict`: over any sequence of calls the cache answers as the checks do, if the headers
  carry their own digest and are otherwise well formed;
* `altered_header_accepted`: without that an altered header is accepted under the key of the
  original, since the key binds the `id` field and not the content.
-/

namespace Vantage.Autobahn

variable {K D S : Type}

/-- What a cached verdict says about the entries of a cut. -/
inductive CutShape
  | allCertified
  | hasOptimistic
  deriving DecidableEq

/-- What an entry of a cut rests on. -/
inductive ProposalKind
  | genesis
  | certified
  | optimistic
  deriving DecidableEq

/-- A car: a block of one lane, with the proof of availability of its predecessor and the consensus
messages that ride in it.  The `id` is a field of its own, as on the wire. -/
structure Header (K D S : Type) where
  author : K
  height : ℕ
  payload : List (D × ℕ)
  parentCert : Certificate K D S
  id : D
  signature : Option S
  sid : Option D
  consensusMessages : Table D (ConsensusMessage K D S)
  numActiveInstances : ℕ

/-- A vote for the car of the given id, height and origin. -/
structure Vote (K D S : Type) where
  id : D
  height : ℕ
  origin : K
  author : K
  signature : S

/-- A vote for the Prepare or Confirm of the given digest. -/
structure ConsensusVote (K D S : Type) where
  author : K
  slot : ℕ
  digest : D
  sig : S

/-- A consensus message in the envelope of its author. -/
structure ConsensusRequest (K D S : Type) where
  author : K
  message : ConsensusMessage K D S
  sig : S

/-! ### The checks -/

section Checks

variable [LinearOrder K] [LinearOrder D] (A : Crypto K D S) (c : Committee K)
  (hasWorker : K → ℕ → Bool)

/-- The digest of the default car of a lane. -/
def genesisDigest (lane : K) : D := A.hash (.header lane 0 [] A.zero none none)

/-- The certificate of the default car of a lane, which carries no votes. -/
def Certificate.isGenesisFor (p : Certificate K D S) (lane : K) : Bool :=
  decide (0 < c.stake lane ∧ p.author = lane ∧ p.headerDigest = genesisDigest A lane ∧
    p.height = 0) && p.votes.isEmpty

/-- A proof of availability: votes of `f + 1` stake for the coordinate, or the default
certificate. -/
def Certificate.verify (p : Certificate K D S) : Bool :=
  p.isGenesisFor A c p.author || (c.admits c.validityThreshold (p.votes.map Prod.fst) &&
    p.votes.all fun v => A.verifies v.2 (carVoteDigest A p.author p.height p.headerDigest) v.1)

/-- Shape and coordinate of a lane tip. -/
def Proposal.classify (q : Proposal K D S) (lane : K) : Option ProposalKind :=
  match q.poa with
  | none => if 0 < q.height ∧ 0 < c.stake lane then some .optimistic else none
  | some p =>
    if p.author ≠ lane then none
    else if q.height = 0 then
      if p.isGenesisFor A c lane = true ∧ q.headerDigest = p.headerDigest then some .genesis
      else none
    else if p.height = q.height ∧ p.headerDigest = q.headerDigest then some .certified else none

/-- With rideshared messages their digests and the advertised count are bound as well. -/
def Header.digest (h : Header K D S) : D :=
  A.hash (.header h.author h.height h.payload h.parentCert.headerDigest h.sid
    (if h.consensusMessages.entries = [] then none else
      some (h.numActiveInstances,
        (h.consensusMessages.entries.map fun e => e.2.digest A).insertionSort (· ≤ ·))))

/-- A message that votes are collected for. -/
def ConsensusMessage.active : ConsensusMessage K D S → Bool
  | .commit .. => false
  | _ => true

/-- `Header::new`: the id of a car that its own author builds is its digest. -/
def Header.new (h : Header K D S) : Header K D S := { h with id := h.digest A }

/-- The checks on a car that need no signature: its id, its author, the workers of its payload, the
keys of its messages and their number. -/
def Header.wellFormed (h : Header K D S) : Bool :=
  decide (h.digest A = h.id ∧ 0 < c.stake h.author) &&
    h.payload.all (fun e => hasWorker h.author e.2) &&
    h.consensusMessages.entries.all (fun e => decide (e.1 = e.2.digest A)) &&
    decide ((h.consensusMessages.entries.filter fun e => e.2.active).length = h.numActiveInstances)

/-- A well-formed car that its author has signed. -/
def Header.verify (h : Header K D S) : Bool :=
  h.wellFormed A c hasWorker && h.signature.any fun s => A.verifies s h.id h.author

/-- A signature of a member on a digest. -/
def signedBy (author : K) (digest : D) (signature : S) : Bool :=
  decide (0 < c.stake author) && A.verifies signature digest author

/-- What a vote for a car signs. -/
def Vote.digest (v : Vote K D S) : D := carVoteDigest A v.origin v.height v.id

@[inherit_doc signedBy]
def Vote.verify (v : Vote K D S) : Bool := signedBy A c v.author (v.digest A) v.signature

@[inherit_doc signedBy]
def ConsensusVote.verify (v : ConsensusVote K D S) : Bool := signedBy A c v.author v.digest v.sig

@[inherit_doc signedBy]
def ConsensusRequest.verify (r : ConsensusRequest K D S) : Bool :=
  signedBy A c r.author (r.message.digest A) r.sig

section With

variable {m : Type → Type} [Monad m]

/-- The check of a lane tip, that of its proof supplied by the caller. -/
def Proposal.verifyWith (check : Certificate K D S → m Bool) (q : Proposal K D S) (lane : K) :
    m (Option ProposalKind) :=
  match q.classify A c lane, q.poa with
  | none, _ => pure none
  | some kind, none => pure (some kind)
  | some kind, some p => do
    let ok ← check p
    pure (if ok then some kind else none)

/-- One pass over the lanes of a cut: fails at the first bad entry. -/
def cutShapeWith (check : Proposal K D S → K → m (Option ProposalKind)) (p : Cut K D S) :
    List K → CutShape → m (Option CutShape)
  | [], shape => pure (some shape)
  | lane :: lanes, shape =>
    match p.lookup lane with
    | none => pure none
    | some q => do
      match ← check q lane with
      | none => pure none
      | some .optimistic => cutShapeWith check p lanes .hasOptimistic
      | some _ => cutShapeWith check p lanes shape

end With

/-- The kind of a lane tip whose proof, if it has one, is valid. -/
def Proposal.verify (q : Proposal K D S) (lane : K) : Option ProposalKind :=
  q.verifyWith (m := Id) A c (fun p => pure (p.verify A c)) lane

/-- The shape of a cut with a valid tip for every lane. -/
def cutShape (p : Cut K D S) : Option CutShape :=
  cutShapeWith (m := Id) (fun q lane => pure (q.verify A c lane)) p c.sorted .allCertified

/-- Optimistic tips are accepted only where the caller allows them. -/
def CutShape.allowed (allowOptimisticTips : Bool) : CutShape → Bool
  | .allCertified => true
  | .hasOptimistic => allowOptimisticTips

/-- A cut of exactly the lanes of the committee, each with a valid tip of an allowed kind. -/
def autobahnCutIsValid (allowOptimisticTips : Bool) (p : Cut K D S) : Bool :=
  decide (Table.size p = c.size) && (cutShape A c p).any (CutShape.allowed allowOptimisticTips)

end Checks

/-! ### The cache -/

/-- Two generations of keys; the flag of a cut is its shape. -/
structure Generations (D : Type) where
  current : Table D (Option CutShape)
  previous : Table D (Option CutShape)
  cap : ℕ

section Cache

variable [LinearOrder D]

/-- An empty cache. -/
def Generations.withCapacity (cap : ℕ) : Generations D := ⟨∅, ∅, max cap 1⟩

/-- The capacity that the synchronizer asks for. -/
def Generations.forCommittee {K : Type} (c : Committee K) : Generations D :=
  .withCapacity (max c.size 4 * 1024)

/-- The newer generation is looked up first. -/
def Generations.lookup (g : Generations D) (key : D) : Option (Option CutShape) :=
  g.current.lookup key <|> g.previous.lookup key

/-- Drops the older generation when the newer one is full. -/
def Generations.advanceIfFull (g : Generations D) : Generations D :=
  if g.cap ≤ Table.size g.current then { g with previous := g.current, current := ∅ } else g

/-- A new key goes to the newer generation, after the flip of a full one. -/
def Generations.record (g : Generations D) (key : D) (shape : Option CutShape) : Generations D :=
  { g.advanceIfFull with current := g.advanceIfFull.current.insert key shape }

/-- A verdict by key: a hit accepts, a miss verifies and records what it accepts. -/
def memo (key : D) (verify : Bool) : StateM (Generations D) Bool := fun g =>
  if (g.lookup key).isSome then (true, g)
  else if verify then (true, g.record key none) else (false, g)

variable [LinearOrder K] (A : Crypto K D S) (c : Committee K) (hasWorker : K → ℕ → Bool)

/-- Keyed by the evidence digest, which binds the set of votes. -/
def checkCertificate (p : Certificate K D S) : StateM (Generations D) Bool :=
  memo (p.evidenceDigest A) (p.verify A c)

/-- Keyed by the `id` field and the signature; an unsigned header is verified directly. -/
def checkHeader (h : Header K D S) : StateM (Generations D) Bool :=
  match h.signature with
  | some s => memo (A.hash (.headerVerified h.id s)) (h.verify A c hasWorker)
  | none => pure (h.verify A c hasWorker)

/-- The key of a header, made of its `id` field and its signature, is in the cache. -/
def Header.CachedIn (h : Header K D S) (g : Generations D) : Prop :=
  ∃ s, h.signature = some s ∧ (g.lookup (A.hash (.headerVerified h.id s))).isSome

/-- The check of a lane tip with that of its proof through the cache. -/
def checkProposal (q : Proposal K D S) (lane : K) : StateM (Generations D) (Option ProposalKind) :=
  q.verifyWith A c (checkCertificate A c) lane

/-- `none` is the unreachable branch, a cut under the key of something else. -/
def cutIsValid (allowOptimisticTips : Bool) (p : Cut K D S) :
    StateM (Generations D) (Option Bool) := fun g =>
  if Table.size p ≠ c.size then (some false, g)
  else match g.lookup (proposalsDigest A p) with
    | some (some shape) => (some (shape.allowed allowOptimisticTips), g)
    | some none => (none, g)
    | none =>
      match cutShapeWith (checkProposal A c) p c.sorted .allCertified g with
      | (none, g) => (some false, g)
      | (some shape, g) =>
        (some (shape.allowed allowOptimisticTips), g.record (proposalsDigest A p) (some shape))

/-- Keyed by the digests of the message and of its QC. -/
def checkConfirm (msg : ConsensusMessage K D S) : StateM (Generations D) Bool :=
  match msg with
  | .confirm _ _ qc _ =>
    memo (A.hash (.confirmVerified (msg.digest A) (qc.digest A))) (verifyConfirm A c msg)
  | _ => pure false

@[inherit_doc checkConfirm]
def checkCommit (msg : ConsensusMessage K D S) : StateM (Generations D) Bool :=
  match msg with
  | .commit _ _ qc _ =>
    memo (A.hash (.commitVerified (msg.digest A) (qc.digest A))) (verifyCommit A c msg)
  | _ => pure false

/-- Keyed by the signed digest, the author and the signature. -/
def checkVote (v : Vote K D S) : StateM (Generations D) Bool :=
  memo (A.hash (.voteVerified (v.digest A) v.author v.signature)) (v.verify A c)

@[inherit_doc checkVote]
def checkConsensusVote (v : ConsensusVote K D S) : StateM (Generations D) Bool :=
  memo (A.hash (.consensusVoteVerified v.digest v.author v.sig)) (v.verify A c)

@[inherit_doc checkVote]
def checkConsensusRequest (r : ConsensusRequest K D S) : StateM (Generations D) Bool :=
  memo (A.hash (.consensusRequestVerified (r.message.digest A) r.author r.sig)) (r.verify A c)

/-- The signature of a timeout is checked in every call, its Confirm through the cache. -/
def checkTimeout (t : Timeout K D S) : StateM (Generations D) Bool :=
  t.verifyWith A c (checkConfirm A c)

/-- The Confirms of its timeouts are checked through the cache. -/
def checkTc (tc : TC K D S) : StateM (Generations D) Bool := tc.verifyWith A c (checkConfirm A c)

/-- The calls of the cache. -/
inductive Call (K D S : Type)
  | certificate (p : Certificate K D S)
  | header (h : Header K D S)
  | cut (allowOptimisticTips : Bool) (p : Cut K D S)
  | proposal (q : Proposal K D S) (lane : K)
  | confirm (msg : ConsensusMessage K D S)
  | commit (msg : ConsensusMessage K D S)
  | vote (v : Vote K D S)
  | consensusVote (v : ConsensusVote K D S)
  | consensusRequest (r : ConsensusRequest K D S)
  | timeout (t : Timeout K D S)
  | tc (cert : TC K D S)
  | advanceIfFull

/-- What a call answers; `none` is the unreachable branch of the check of a cut. -/
def Call.run : Call K D S → StateM (Generations D) (Option Bool)
  | .certificate p => some <$> checkCertificate A c p
  | .header h => some <$> checkHeader A c hasWorker h
  | .cut allow p => cutIsValid A c allow p
  | .proposal q lane => (fun kind => some kind.isSome) <$> checkProposal A c q lane
  | .confirm msg => some <$> checkConfirm A c msg
  | .commit msg => some <$> checkCommit A c msg
  | .vote v => some <$> checkVote A c v
  | .consensusVote v => some <$> checkConsensusVote A c v
  | .consensusRequest r => some <$> checkConsensusRequest A c r
  | .timeout t => some <$> checkTimeout A c t
  | .tc cert => some <$> checkTc A c cert
  | .advanceIfFull => fun g => (some true, g.advanceIfFull)

/-- What the checks themselves say of the object of a call. -/
def Call.verdict : Call K D S → Bool
  | .certificate p => p.verify A c
  | .header h => h.verify A c hasWorker
  | .cut allow p => autobahnCutIsValid A c allow p
  | .proposal q lane => (q.verify A c lane).isSome
  | .confirm msg => verifyConfirm A c msg
  | .commit msg => verifyCommit A c msg
  | .vote v => v.verify A c
  | .consensusVote v => v.verify A c
  | .consensusRequest r => r.verify A c
  | .timeout t => t.verify A c
  | .tc cert => cert.verify A c
  | .advanceIfFull => true

end Cache

/-! ### What the keys bind -/

section Binding

variable [LinearOrder K] [LinearOrder D] {A : Crypto K D S} {c : Committee K}
  {hasWorker : K → ℕ → Bool}

omit [LinearOrder D] in
theorem admits_perm {threshold : ℕ} {l l' : List K} (h : l.Perm l') :
    c.admits threshold l = c.admits threshold l' := by
  rw [Committee.admits, Committee.admits, decide_eq_decide, h.nodup_iff, (h.map c.stake).sum_eq]
  simp only [h.mem_iff]

omit [LinearOrder D] in
theorem votes_perm {votes votes' : List (K × S)} (h : sortVotes votes = sortVotes votes') :
    votes.Perm votes' := by
  refine (List.perm_insertionSort (fun v w => v.1 ≤ w.1) votes).symm.trans ?_
  exact (List.Perm.of_eq h).trans (List.perm_insertionSort _ votes')

theorem Header.digest_of_verify {h : Header K D S} (hv : h.verify A c hasWorker = true) :
    h.digest A = h.id := by
  simp only [Header.verify, Header.wellFormed, Bool.and_eq_true, decide_eq_true_eq] at hv
  exact hv.1.1.1.1.1

/-- An accepted header carries its own digest, unless it was accepted for its key alone. -/
theorem digest_of_checkHeader {h : Header K D S} {g : Generations D}
    (hcached : h.CachedIn A g → h.digest A = h.id)
    (hok : (checkHeader A c hasWorker h g).1 = true) : h.digest A = h.id := by
  cases hs : h.signature with
  | none =>
    simp only [checkHeader, hs] at hok
    exact Header.digest_of_verify hok
  | some s =>
    simp only [checkHeader, hs, memo] at hok
    split at hok
    next hhit => exact hcached ⟨s, hs, hhit⟩
    next =>
      split at hok
      next hv => exact Header.digest_of_verify hv
      next => cases hok

variable (hA : A.CollisionFree)
include hA

theorem Certificate.verify_congr {p q : Certificate K D S}
    (h : p.evidenceDigest A = q.evidenceDigest A) : p.verify A c = q.verify A c ∧
      p.author = q.author ∧ p.headerDigest = q.headerDigest ∧ p.height = q.height ∧
        ∀ lane, p.isGenesisFor A c lane = q.isGenesisFor A c lane := by
  obtain ⟨a, d, n, votes⟩ := p
  obtain ⟨a', d', n', votes'⟩ := q
  obtain ⟨rfl, rfl, rfl, hv⟩ := Preimage.poa.inj (hA.injective h)
  have hperm := votes_perm hv
  have hgenesis : ∀ lane, isGenesisFor A c ⟨a, d, n, votes⟩ lane =
      isGenesisFor A c ⟨a, d, n, votes'⟩ lane := fun lane => by
    simp only [isGenesisFor, hperm.isEmpty_eq]
  refine ⟨?_, rfl, rfl, rfl, hgenesis⟩
  simp only [verify, hgenesis, hperm.all_eq, admits_perm (hperm.map Prod.fst)]

theorem QC.verifyAt_congr {q q' : QC K D S} (h : q.digest A = q'.digest A) (threshold : ℕ) :
    q.id = q'.id ∧ q.verifyAt A c threshold = q'.verifyAt A c threshold := by
  obtain ⟨hid, hv⟩ := Preimage.qc.inj (hA.injective h)
  have hperm := votes_perm hv
  refine ⟨hid, ?_⟩
  simp only [verifyAt, h, hid, hperm.all_eq, admits_perm (hperm.map Prod.fst)]

theorem Proposal.verify_congr {p q : Proposal K D S} (h : p.digest A = q.digest A) (lane : K) :
    p.verify A c lane = q.verify A c lane := by
  obtain ⟨d, n, poa⟩ := p
  obtain ⟨d', n', poa'⟩ := q
  obtain ⟨rfl, rfl, he⟩ := Preimage.tip.inj (hA.injective h)
  cases poa <;> cases poa'
  · rfl
  · cases he
  · cases he
  next p q =>
    obtain ⟨hv, ha, hd, hn, hg⟩ := Certificate.verify_congr (c := c) hA (Option.some.inj he)
    have hc : classify A c ⟨d, n, some p⟩ lane = classify A c ⟨d, n, some q⟩ lane := by
      simp only [classify, ha, hd, hn, hg]
    rw [verify, verify, verifyWith, verifyWith, hc]
    cases classify A c ⟨d, n, some q⟩ lane with
    | none => rfl
    | some kind => exact congrArg (fun ok => if ok = true then some kind else none) hv

theorem cutShape_congr {p q : Cut K D S} (h : proposalsDigest A p = proposalsDigest A q) :
    cutShape A c p = cutShape A c q := by
  have hsame := Cut.same_of_proposalsDigest hA h
  have hloop : ∀ lanes shape,
      cutShapeWith (m := Id) (fun q lane => pure (q.verify A c lane)) p lanes shape =
        cutShapeWith (m := Id) (fun q lane => pure (q.verify A c lane)) q lanes shape := by
    intro lanes
    induction lanes with
    | nil => exact fun _ => rfl
    | cons lane lanes ih =>
      intro shape
      have hlane := hsame lane
      rw [cutShapeWith, cutShapeWith]
      cases hp : p.lookup lane with
      | none =>
        rw [hp] at hlane
        rw [Option.map_eq_none_iff.mp hlane.symm]
      | some r =>
        rw [hp] at hlane
        obtain ⟨r', hq, hr⟩ := Option.map_eq_some_iff.mp hlane.symm
        simp only [hq, Proposal.verify_congr hA hr, ih]
  exact hloop _ _

theorem verifyConfirm_congr {s v s' v' : ℕ} {q q' : QC K D S} {p p' : Cut K D S}
    (hm : (ConsensusMessage.confirm s v q p).digest A =
      (ConsensusMessage.confirm s' v' q' p').digest A)
    (hq : q.digest A = q'.digest A) :
    verifyConfirm A c (.confirm s v q p) = verifyConfirm A c (.confirm s' v' q' p') := by
  obtain ⟨rfl, rfl, hp⟩ := confirmDigest_inj hA hm
  obtain ⟨hid, hver⟩ := QC.verifyAt_congr (c := c) hA hq c.quorumThreshold
  simp only [verifyConfirm, QC.verify, hp, hid, hver]

theorem verifyCommit_congr {s v s' v' : ℕ} {q q' : QC K D S} {p p' : Cut K D S}
    (hm : (ConsensusMessage.commit s v q p).digest A =
      (ConsensusMessage.commit s' v' q' p').digest A)
    (hq : q.digest A = q'.digest A) :
    verifyCommit A c (.commit s v q p) = verifyCommit A c (.commit s' v' q' p') := by
  obtain ⟨rfl, rfl, -, hp⟩ := Preimage.commit.inj (hA.injective hm)
  have hver := fun threshold => QC.verifyAt_congr (c := c) hA hq threshold
  have hprepare : prepareDigest A s v p = prepareDigest A s v p' := by simp only [prepareDigest, hp]
  rw [verifyCommit, verifyCommit, hprepare, (hver 0).1, (hver _).2, QC.verify, (hver _).2]
  rfl

/-- Well-formed headers of one id have one author, so a signature is good for both or for none. -/
theorem Header.verify_congr {h h' : Header K D S} (hid : h.id = h'.id)
    (hs : h.signature = h'.signature) (hw : h.wellFormed A c hasWorker = true)
    (hw' : h'.wellFormed A c hasWorker = true) :
    h.verify A c hasWorker = h'.verify A c hasWorker := by
  have hd : ∀ {h : Header K D S}, h.wellFormed A c hasWorker = true → h.digest A = h.id := by
    intro h hw
    simp only [wellFormed, Bool.and_eq_true, decide_eq_true_eq] at hw
    exact hw.1.1.1.1
  have ha := (Preimage.header.inj (hA.injective ((hd hw).trans (hid.trans (hd hw').symm)))).1
  simp only [verify, hw, hw', hs, hid, ha]

end Binding

/-! ### The cache answers as the checks do -/

section Soundness

variable [LinearOrder K] [LinearOrder D] (A : Crypto K D S) (c : Committee K)
  (hasWorker : K → ℕ → Bool)

/-- What is known of a key that is present: some object with that key passed its check. -/
def Justified : Preimage K D S → Option CutShape → Prop
  | .poa a n d votes, none => ∃ p : Certificate K D S,
    p.evidenceDigest A = A.hash (.poa a n d votes) ∧ p.verify A c = true
  | .headerVerified id s, none => ∃ h : Header K D S,
    h.id = id ∧ h.signature = some s ∧ h.verify A c hasWorker = true
  | .confirmVerified m q, none => ∃ slot view qc p, qc.digest A = q ∧
    (ConsensusMessage.confirm slot view qc p).digest A = m ∧
      verifyConfirm A c (.confirm slot view qc p) = true
  | .commitVerified m q, none => ∃ slot view qc p, qc.digest A = q ∧
    (ConsensusMessage.commit slot view qc p).digest A = m ∧
      verifyCommit A c (.commit slot view qc p) = true
  | .voteVerified d k s, none => signedBy A c k d s = true
  | .consensusVoteVerified d k s, none => signedBy A c k d s = true
  | .consensusRequestVerified d k s, none => signedBy A c k d s = true
  | .cut entries, some shape => ∃ p : Cut K D S,
    proposalsDigest A p = A.hash (.cut entries) ∧ cutShape A c p = some shape
  | _, _ => False

/-- Every key that is present is justified. -/
def Sound (g : Generations D) : Prop :=
  ∀ pre e, g.lookup (A.hash pre) = some e → Justified A c hasWorker pre e

/-- On a sound cache the call answers `v` and leaves a sound cache. -/
def Agrees {α : Type} (x : StateM (Generations D) α) (v : α) : Prop :=
  ∀ g, Sound A c hasWorker g → (x g).1 = v ∧ Sound A c hasWorker (x g).2

variable {A c hasWorker} {α β : Type}

theorem Agrees.pure (v : α) : Agrees A c hasWorker (pure v) v := fun _ hg => ⟨rfl, hg⟩

theorem Agrees.bind {x : StateM (Generations D) α} {f : α → StateM (Generations D) β}
    {v : α} {w : β}
    (hx : Agrees A c hasWorker x v) (hf : Agrees A c hasWorker (f v) w) :
    Agrees A c hasWorker (x >>= f) w := by
  intro g hg
  obtain ⟨hv, hs⟩ := hx g hg
  have h := hf (x g).2 hs
  rwa [← hv] at h

theorem Agrees.map {x : StateM (Generations D) α} {v : α} (f : α → β)
    (hx : Agrees A c hasWorker x v) : Agrees A c hasWorker (f <$> x) (f v) :=
  fun g hg => ⟨congrArg f (hx g hg).1, (hx g hg).2⟩

omit [LinearOrder K] in
theorem Generations.lookup_advanceIfFull {g : Generations D} {key : D} {e : Option CutShape}
    (h : g.advanceIfFull.lookup key = some e) : g.lookup key = some e := by
  unfold advanceIfFull at h
  split at h
  · have h' : g.current.lookup key = some e := by simpa [lookup] using h
    simp [lookup, h']
  · exact h

variable (hA : A.CollisionFree)
include hA

theorem Sound.record {g : Generations D} (hg : Sound A c hasWorker g) {pre : Preimage K D S}
    {e : Option CutShape} (h : Justified A c hasWorker pre e) :
    Sound A c hasWorker (g.record (A.hash pre) e) := by
  intro pre' e' he
  by_cases hpre : pre' = pre
  · subst hpre
    obtain rfl : e = e' := by simpa [Generations.record, Generations.lookup] using he
    exact h
  · have hne : A.hash pre' ≠ A.hash pre := fun heq => hpre (hA.injective heq)
    refine hg pre' e' (Generations.lookup_advanceIfFull ?_)
    simpa [Generations.record, Generations.lookup, AList.lookup_insert_ne hne] using he

theorem agrees_memo {pre : Preimage K D S} {verify : Bool}
    (hbind : ∀ e, Justified A c hasWorker pre e → verify = true)
    (hgood : verify = true → Justified A c hasWorker pre none) :
    Agrees A c hasWorker (memo (A.hash pre) verify) verify := by
  intro g hg
  rw [memo]
  split
  next hhit =>
    obtain ⟨e, he⟩ := Option.isSome_iff_exists.mp hhit
    exact ⟨(hbind e (hg _ _ he)).symm, hg⟩
  next =>
    split
    next hv => exact ⟨hv.symm, hg.record hA (hgood hv)⟩
    next hv => exact ⟨by simpa using hv, hg⟩

theorem agrees_certificate (p : Certificate K D S) :
    Agrees A c hasWorker (checkCertificate A c p) (p.verify A c) := by
  refine agrees_memo hA (fun e he => ?_) fun hv => ⟨p, rfl, hv⟩
  cases e with
  | none =>
    obtain ⟨q, hq, hv⟩ := he
    exact (Certificate.verify_congr hA hq).1 ▸ hv
  | some shape => exact he.elim

theorem agrees_header (h : Header K D S)
    (hw : h.signature.isSome → h.wellFormed A c hasWorker = true) :
    Agrees A c hasWorker (checkHeader A c hasWorker h) (h.verify A c hasWorker) := by
  rw [checkHeader]
  split
  next s hs =>
    refine agrees_memo hA (fun e he => ?_) fun hv => ⟨h, rfl, hs, hv⟩
    cases e with
    | none =>
      obtain ⟨h', hid, hs', hv⟩ := he
      have hw' := ((Bool.and_eq_true _ _).mp hv).1
      rw [← Header.verify_congr hA hid (hs'.trans hs.symm) hw' (hw (by rw [hs]; rfl)), hv]
    | some shape => exact he.elim
  next => exact Agrees.pure _

theorem agrees_confirm (msg : ConsensusMessage K D S) :
    Agrees A c hasWorker (checkConfirm A c msg) (verifyConfirm A c msg) := by
  cases msg with
  | confirm slot view qc p =>
    refine agrees_memo hA (fun e he => ?_) fun hv => ⟨slot, view, qc, p, rfl, rfl, hv⟩
    cases e with
    | none =>
      obtain ⟨slot', view', qc', p', hq, hm, hv⟩ := he
      exact verifyConfirm_congr hA hm hq ▸ hv
    | some shape => exact he.elim
  | prepare slot view p => exact Agrees.pure _
  | commit slot view qc p => exact Agrees.pure _

theorem agrees_commit (msg : ConsensusMessage K D S) :
    Agrees A c hasWorker (checkCommit A c msg) (verifyCommit A c msg) := by
  cases msg with
  | commit slot view qc p =>
    refine agrees_memo hA (fun e he => ?_) fun hv => ⟨slot, view, qc, p, rfl, rfl, hv⟩
    cases e with
    | none =>
      obtain ⟨slot', view', qc', p', hq, hm, hv⟩ := he
      exact verifyCommit_congr hA hm hq ▸ hv
    | some shape => exact he.elim
  | prepare slot view p => exact Agrees.pure _
  | confirm slot view qc p => exact Agrees.pure _

theorem agrees_proposal (q : Proposal K D S) (lane : K) :
    Agrees A c hasWorker (checkProposal A c q lane) (q.verify A c lane) := by
  rw [checkProposal, Proposal.verify, Proposal.verifyWith, Proposal.verifyWith]
  cases q.classify A c lane with
  | none => exact Agrees.pure _
  | some kind =>
    cases q.poa with
    | none => exact Agrees.pure _
    | some p => exact (agrees_certificate hA p).bind (Agrees.pure _)

theorem agrees_cutShape (p : Cut K D S) (lanes : List K) (shape : CutShape) :
    Agrees A c hasWorker (cutShapeWith (checkProposal A c) p lanes shape)
      (cutShapeWith (m := Id) (fun q lane => pure (q.verify A c lane)) p lanes shape) := by
  induction lanes generalizing shape with
  | nil => exact Agrees.pure _
  | cons lane lanes ih =>
    rw [cutShapeWith, cutShapeWith]
    cases p.lookup lane with
    | none => exact Agrees.pure _
    | some q =>
      refine (agrees_proposal hA q lane).bind ?_
      show Agrees A c hasWorker _ (match q.verify A c lane with
        | none => none
        | some .optimistic => cutShapeWith (m := Id) _ p lanes .hasOptimistic
        | some _ => cutShapeWith (m := Id) _ p lanes shape)
      rcases q.verify A c lane with _ | (_ | _ | _)
      · exact Agrees.pure _
      · exact ih _
      · exact ih _
      · exact ih _

theorem agrees_cut (allow : Bool) (p : Cut K D S) :
    Agrees A c hasWorker (cutIsValid A c allow p) (some (autobahnCutIsValid A c allow p)) := by
  intro g hg
  rw [cutIsValid, autobahnCutIsValid]
  by_cases hsize : Table.size p = c.size
  · simp only [hsize, ne_eq, not_true_eq_false, if_false, decide_true, Bool.true_and]
    cases hl : g.lookup (proposalsDigest A p) with
    | none =>
      obtain ⟨hv, hs⟩ := agrees_cutShape hA p c.sorted .allCertified g hg
      rw [← cutShape] at hv
      generalize cutShapeWith (checkProposal A c) p c.sorted .allCertified g = r at hv hs
      obtain ⟨_ | shape, g'⟩ := r
      · exact ⟨by simp [← hv], hs⟩
      · have hcut : Justified A c hasWorker (.cut _) (some shape) := ⟨p, rfl, hv.symm⟩
        exact ⟨by simp [← hv], hs.record hA hcut⟩
    | some e =>
      have he := hg (.cut _) e hl
      cases e with
      | none => exact he.elim
      | some shape =>
        obtain ⟨q, hq, hshape⟩ := he
        exact ⟨by rw [cutShape_congr hA hq.symm, hshape]; rfl, hg⟩
  · simp [hsize, hg]

theorem agrees_timeout (t : Timeout K D S) :
    Agrees A c hasWorker (checkTimeout A c t) (t.verify A c) := by
  rw [checkTimeout, Timeout.verify, Timeout.verifyWith, Timeout.verifyWith]
  split
  · refine Agrees.map _ ?_
    rw [Timeout.highQcWith, Timeout.highQcWith]
    split
    · exact Agrees.pure _
    · split
      · exact agrees_confirm hA _
      · exact Agrees.pure _
    · exact Agrees.pure _
  · exact Agrees.pure _

theorem agrees_tc (tc : TC K D S) : Agrees A c hasWorker (checkTc A c tc) (tc.verify A c) := by
  have hall : ∀ l : List (Timeout K D S), Agrees A c hasWorker (l.allM (checkTimeout A c))
      (l.allM (m := Id) (Timeout.verify A c)) := by
    intro l
    induction l with
    | nil => exact Agrees.pure _
    | cons t l ih =>
      rw [List.allM, List.allM]
      refine (agrees_timeout hA t).bind ?_
      show Agrees A c hasWorker _ (match t.verify A c with
        | true => l.allM (m := Id) (Timeout.verify A c)
        | false => false)
      cases t.verify A c with
      | true => exact ih
      | false => exact Agrees.pure _
  rw [checkTc, TC.verify, TC.verifyWith, TC.verifyWith]
  split
  · exact Agrees.pure _
  · split
    · exact hall _
    · exact Agrees.pure _

theorem agrees_call (call : Call K D S) (hw : ∀ h, call = .header h → h.signature.isSome →
    h.wellFormed A c hasWorker = true) :
    Agrees A c hasWorker (call.run A c hasWorker) (some (call.verdict A c hasWorker)) := by
  have hsigned : ∀ {pre : Preimage K D S} {k d s}, (∀ e, Justified A c hasWorker pre e ↔
      e = none ∧ signedBy A c k d s = true) →
        Agrees A c hasWorker (memo (A.hash pre) (signedBy A c k d s)) (signedBy A c k d s) :=
    fun hpre => agrees_memo hA (fun e he => ((hpre e).mp he).2) fun hv => (hpre none).mpr ⟨rfl, hv⟩
  cases call with
  | certificate p => exact (agrees_certificate hA p).map some
  | header h => exact (agrees_header hA h (hw h rfl)).map some
  | cut allow p => exact agrees_cut hA allow p
  | proposal q lane => exact (agrees_proposal hA q lane).map fun kind => some kind.isSome
  | confirm msg => exact (agrees_confirm hA msg).map some
  | commit msg => exact (agrees_commit hA msg).map some
  | vote v => exact (hsigned (by rintro (_ | _) <;> simp [Justified])).map some
  | consensusVote v => exact (hsigned (by rintro (_ | _) <;> simp [Justified])).map some
  | consensusRequest r => exact (hsigned (by rintro (_ | _) <;> simp [Justified])).map some
  | timeout t => exact (agrees_timeout hA t).map some
  | tc cert => exact (agrees_tc hA cert).map some
  | advanceIfFull =>
    exact fun g hg => ⟨rfl, fun pre e he => hg pre e (Generations.lookup_advanceIfFull he)⟩

end Soundness

/-! ### Sequences of calls -/

section Runs

variable [LinearOrder K] [LinearOrder D] (A : Crypto K D S) (c : Committee K)
  (hasWorker : K → ℕ → Bool)

/-- The answers to a sequence of calls. -/
def runCalls : List (Call K D S) → StateM (Generations D) (List (Option Bool))
  | [] => pure []
  | call :: calls => do
    let answer ← call.run A c hasWorker
    let answers ← runCalls calls
    pure (answer :: answers)

variable {A c hasWorker}

theorem runCalls_header (h : Header K D S) (calls : List (Call K D S)) (g : Generations D) :
    (runCalls A c hasWorker (.header h :: calls) g).1 = some (checkHeader A c hasWorker h g).1 ::
      (runCalls A c hasWorker calls (checkHeader A c hasWorker h g).2).1 := rfl

/-- The cache is pure memoisation, whatever the calls and its capacity, as long as every signed
header passes the checks that need no signature. -/
theorem run_eq_verdict (hA : A.CollisionFree) (cap : ℕ) (calls : List (Call K D S))
    (hw : ∀ h, .header h ∈ calls → h.signature.isSome → h.wellFormed A c hasWorker = true) :
    (runCalls A c hasWorker calls (.withCapacity cap)).1 =
      calls.map fun call => some (call.verdict A c hasWorker) := by
  have hrun : Agrees A c hasWorker (runCalls A c hasWorker calls)
      (calls.map fun call => some (call.verdict A c hasWorker)) := by
    induction calls with
    | nil => exact Agrees.pure _
    | cons call calls ih =>
      refine (agrees_call hA call fun h hc => hw h (hc ▸ List.mem_cons_self)).bind ?_
      exact (ih fun h hm => hw h (List.mem_cons_of_mem _ hm)).bind (Agrees.pure _)
  refine (hrun _ fun pre e he => ?_).1
  simp [Generations.withCapacity, Generations.lookup] at he

end Runs

section Example

/-- A committee of one member. -/
def one : Committee (Fin 1) := ⟨Finset.univ, fun _ => 1, ⟨0, Finset.mem_univ 0⟩⟩

/-- Every signature is accepted. -/
def trusting : Crypto (Fin 1) ℕ Unit := .numbering fun _ _ _ => true

/-- A car of the one lane on top of the default car. -/
def car (A : Crypto (Fin 1) ℕ Unit) (height : ℕ) : Header (Fin 1) ℕ Unit where
  author := 0
  height := height
  payload := []
  parentCert := ⟨0, genesisDigest A 0, 0, []⟩
  id := A.hash (.header 0 height [] (genesisDigest A 0) none none)
  signature := some ()
  sid := none
  consensusMessages := ∅
  numActiveInstances := 0

theorem trusting_collisionFree : trusting.CollisionFree := Crypto.numbering_collisionFree _

theorem car_wellFormed (height : ℕ) :
    (car trusting height).wellFormed trusting one (fun _ _ => true) = true := by
  simp [Header.wellFormed, car, one, Committee.stake]
  rfl

theorem car_verify (height : ℕ) :
    (car trusting height).verify trusting one (fun _ _ => true) = true :=
  (Bool.and_eq_true _ _).mpr ⟨car_wellFormed height, rfl⟩

/-- A car, a flip of the generations and the car again. -/
theorem run_eq_verdict_car :
    (runCalls trusting one (fun _ _ => true)
      [.header (car trusting 1), .advanceIfFull, .header (car trusting 1)] (.withCapacity 1)).1 =
      [some true, some true, some true] := by
  refine (run_eq_verdict trusting_collisionFree 1 _ fun h hm _ => ?_).trans ?_
  · obtain rfl : h = car trusting 1 := by simpa using hm
    exact car_wellFormed 1
  · simp [Call.verdict, car_verify]

/-- The car at height 1 with its height altered to 2: the check rejects it, the cache accepts it
once the original has been verified. -/
theorem altered_header_accepted :
    (runCalls trusting one (fun _ _ => true)
      [.header (car trusting 1), .header { car trusting 1 with height := 2 }] (.withCapacity 1)).1 =
        [some true, some true] ∧
      Header.verify trusting one (fun _ _ => true) { car trusting 1 with height := 2 } = false := by
  refine ⟨?_, ?_⟩
  · have hmiss : ((Generations.withCapacity 1).lookup
        (trusting.hash (.headerVerified (car trusting 1).id ()))).isSome = false := by
      simp [Generations.withCapacity, Generations.lookup]
    have hhit : (((Generations.withCapacity 1).record
        (trusting.hash (.headerVerified (car trusting 1).id ())) none).lookup
          (trusting.hash (.headerVerified (car trusting 1).id ()))).isSome = true := by
      simp [Generations.record, Generations.lookup]
    have hfirst : checkHeader trusting one (fun _ _ => true) (car trusting 1) (.withCapacity 1) =
        (true, (Generations.withCapacity 1).record
          (trusting.hash (.headerVerified (car trusting 1).id ())) none) := by
      show memo _ _ _ = _
      rw [memo, if_neg (by simp [hmiss]), if_pos (car_verify 1)]
    have hsecond : ∀ g : Generations ℕ,
        (g.lookup (trusting.hash (.headerVerified (car trusting 1).id ()))).isSome = true →
          checkHeader trusting one (fun _ _ => true) { car trusting 1 with height := 2 } g =
            (true, g) := by
      intro g hg
      show memo _ _ _ = _
      rw [memo, if_pos hg]
    rw [runCalls_header, hfirst, runCalls_header, hsecond _ hhit]
    rfl
  · have hd : Header.digest trusting { car trusting 1 with height := 2 } ≠ (car trusting 1).id := by
      intro h
      have := (Preimage.header.inj (trusting_collisionFree.injective h)).2.1
      exact absurd this (by decide)
    simp [Header.verify, Header.wellFormed, hd]

end Example

end Vantage.Autobahn
