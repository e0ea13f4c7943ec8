import Vantage.Autobahn.ViewChange
import Vantage.Autobahn.Verified

/-!
# Lane suffixes in the store

Before a Commit is released to the committer, `getProposals` walks every lane of its cut from the
tip down to the executed height, and remembers in `walkedFloor` how far down a tip has been walked.
Later the committer walks the same lanes by `getAllHeadersForProposal`.

The core hands `getProposals` the car that a message rode in, which passed the cached check of its
signature.  That check accepts an altered car under the `id` and signature of another one.

* `released_executable`: while no altered car is taken for another one, the cars of a released
  Commit are found at consecutive heights, whatever has been stored and executed since;
* `altered_tip_missing`: with an altered car a Commit is released whose tip is not stored.
-/

namespace Vantage.Autobahn

variable {K D S : Type} [LinearOrder K] [LinearOrder D]

/-- Stored cars, each under its digest. -/
structure Store (A : Crypto K D S) where
  get : D → Option (Header K D S)
  digest_eq : ∀ {d h}, get d = some h → h.digest A = d

/-- A store without cars. -/
def Store.empty (A : Crypto K D S) : Store A := ⟨fun _ => none, by simp⟩

/-- A car is written under its digest, over the car that is there. -/
def Store.put {A : Crypto K D S} (h : Header K D S) (store : Store A) : Store A where
  get d := if d = h.digest A then some h else store.get d
  digest_eq := by
    intro d x hx
    split at hx
    · next hd => rw [← Option.some.inj hx, hd]
    · exact store.digest_eq hx

variable (A : Crypto K D S) (c : Committee K)

/-- The default car of a lane. -/
def genesisHeader (lane : K) : Header K D S :=
  ⟨lane, 0, [], ⟨lane, A.zero, 0, []⟩, A.zero, none, none, ∅, 0⟩

variable {A} (store : Store A)

/-- The parent of a car; `none` if it is missing, or the author is a stranger. -/
def getParentHeader (h : Header K D S) : Option (Header K D S) :=
  if h.author ∉ c.authorities then none
  else if h.parentCert.headerDigest = genesisDigest A h.author then some (genesisHeader A h.author)
  else store.get h.parentCert.headerDigest

/-- A car and its ancestors above the stop height, the newest first. -/
def ancestors (stop : ℕ) : ℕ → Header K D S → Option (List (Header K D S))
  | 0, _ => none
  | fuel + 1, h =>
    if h.height ≤ stop then some []
    else if h.height = stop + 1 then some [h]
    else do
      let parent ← getParentHeader c store h
      let rest ← ancestors stop fuel parent
      some (h :: rest)

/-- The suffix of a lane up to a tip, the oldest car first; `none` is a failed unwrap. -/
def getAllHeadersForProposal (fuel : ℕ) (q : Proposal K D S) (stop : ℕ) :
    Option (List (Header K D S)) := do
  let h ← store.get q.headerDigest
  let l ← ancestors c store stop fuel h
  some l.reverse

/-- The car at a coordinate, or the one that came with the message; the outer `none` is an error. -/
def readProposalHeader (lane : K) (d : D) (height : ℕ) (delivered : Header K D S) :
    Option (Option (Header K D S)) :=
  match if d = delivered.id then some delivered else store.get d with
  | none => some none
  | some h => if h.author ≠ lane ∨ h.height ≠ height ∨ h.id ≠ d then none else some (some h)

/-- The walk down a certified lane: the first coordinate that is missing, if any.  Certificates go
through the cache, which answers as their check does. -/
def walkDown (floor : Table D ℕ) (lane : K) (stop : ℕ) (delivered : Header K D S) :
    ℕ → D → Option (Option D)
  | 0, _ => some none
  | n + 1, d =>
    if n + 1 ≤ stop then some none
    else if (floor.lookup d).any (· ≤ stop) then some none
    else match readProposalHeader store lane d (n + 1) delivered with
      | none => none
      | some none => some (some d)
      | some (some h) =>
        if h.parentCert.verify A c = true ∧ h.parentCert.author = lane ∧
            h.parentCert.height + 1 = h.height then
          walkDown floor lane stop delivered n h.parentCert.headerDigest
        else none

/-- The memo is emptied when it is full. -/
def walkedFloorCap : ℕ := 8192

/-- A tip is walked down to the lowest stop height seen. -/
def noteFloor (floor : Table D ℕ) (d : D) (stop : ℕ) : Table D ℕ :=
  let floor := if walkedFloorCap ≤ Table.size floor then ∅ else floor
  floor.insert d (min ((floor.lookup d).getD stop) stop)

/-- A walk that finds everything is remembered. -/
def firstMissingCertified (floor : Table D ℕ) (lane : K) (height : ℕ) (d : D) (stop : ℕ)
    (delivered : Header K D S) : Option (Option D) × Table D ℕ :=
  match walkDown c store floor lane stop delivered height d with
  | some none => (some none, noteFloor floor d stop)
  | r => (r, floor)

/-- One lane of a cut: the digests it waits for, and whether an optimistic tip is missing. -/
def laneCheck (stop : ℕ) (delivered : Header K D S) (floor : Table D ℕ) (lane : K)
    (q : Proposal K D S) : Option (List D × Bool) × Table D ℕ :=
  let certified (r : Option (Option D) × Table D ℕ) : Option (List D × Bool) × Table D ℕ :=
    (r.1.map fun missing => (missing.toList, false), r.2)
  match q.verify A c lane with
  | none => (none, floor)
  | some .genesis => (some ([], false), floor)
  | some .certified =>
    certified (firstMissingCertified c store floor lane q.height q.headerDigest stop delivered)
  | some .optimistic =>
    match readProposalHeader store lane q.headerDigest q.height delivered with
    | none => (none, floor)
    | some none => (some ([q.headerDigest], true), floor)
    | some (some tip) =>
      if tip.parentCert.verify A c = true ∧ tip.parentCert.author = lane ∧
          tip.parentCert.height + 1 = tip.height then
        if stop < tip.parentCert.height then
          certified (firstMissingCertified c store floor lane tip.parentCert.height
            tip.parentCert.headerDigest stop delivered)
        else (some ([], false), floor)
      else (none, floor)

/-- The lanes of a cut in turn; the first error ends it. -/
def lanesCheck (executed : K → ℕ) (delivered : Header K D S) :
    List (Sigma fun _ : K => Proposal K D S) → Table D ℕ → Option (List D × Bool) × Table D ℕ
  | [], floor => (some ([], false), floor)
  | ⟨lane, q⟩ :: lanes, floor =>
    match laneCheck c store (executed lane) delivered floor lane q with
    | (none, floor) => (none, floor)
    | (some r, floor) =>
      let (rest, floor) := lanesCheck executed delivered lanes floor
      (rest.map fun r' => (r.1 ++ r'.1, r.2 || r'.2), floor)

/-- A Prepare waits for optimistic tips that no certificate vouches for, a Commit for everything, a
Confirm for nothing. -/
def getProposals (executed : K → ℕ) (implicit : Bool) (delivered : Header K D S)
    (msg : ConsensusMessage K D S) (floor : Table D ℕ) : Option Bool × Table D ℕ :=
  match msg with
  | .confirm .. => (some true, floor)
  | .prepare _ _ p =>
    let (r, floor) := lanesCheck c store executed delivered p.entries floor
    (r.map fun r => implicit || !r.2, floor)
  | .commit _ _ _ p =>
    let (r, floor) := lanesCheck c store executed delivered p.entries floor
    (r.map fun r => r.1.isEmpty, floor)

/-! ### Core and committer steps -/

/-- What the core and the committer of a replica share: the store, the cache of verified objects,
the cars that have passed their check, those among them that are stored, the executed heights, the
memo of the walks, and the cuts released so far. -/
structure Node (A : Crypto K D S) where
  store : Store A
  verified : Generations D
  accepted : List (Header K D S)
  carried : List (Header K D S)
  executed : K → ℕ
  walkedFloor : Table D ℕ
  released : List (Cut K D S)

variable (hasWorker : K → ℕ → Bool)

/-- A car from outside is checked through the cache. -/
def Node.sanitizeHeader (n : Node A) (h : Header K D S) : Node A :=
  let r := checkHeader A c hasWorker h n.verified
  { n with
    verified := r.2
    accepted := if r.1 then h :: n.accepted else n.accepted }

/-- A car whose payload is there is stored under its digest.  From then on it is handed on with
the messages that ride in it. -/
def Node.write (n : Node A) (h : Header K D S) : Node A :=
  if h.parentCert.verify A c = true ∧ h.parentCert.author = h.author ∧
      h.parentCert.height + 1 = h.height then
    { n with
      store := n.store.put h
      carried := h :: n.carried }
  else n

/-- A message is checked, and a Commit that passes is released. -/
def Node.check (n : Node A) (implicit : Bool) (delivered : Header K D S)
    (msg : ConsensusMessage K D S) : Node A :=
  let (r, floor) := getProposals c n.store n.executed implicit delivered msg n.walkedFloor
  { n with
    walkedFloor := floor
    released := match msg with
      | .commit _ _ _ p => if r = some true then p :: n.released else n.released
      | _ => n.released }

/-- A car arrives, or is built by the own proposer; another object goes through the cache; an
accepted car is processed; a message of its own or of a stored car is checked; the committer
executes a lane up to some height. -/
inductive NodeEvent (K D S : Type)
  | header (h : Header K D S)
  | own (h : Header K D S)
  | consult (call : Call K D S)
  | write (i : ℕ)
  | request (implicit : Bool) (author : K) (msg : ConsensusMessage K D S)
  | check (implicit : Bool) (i : ℕ) (msg : ConsensusMessage K D S)
  | execute (lane : K) (height : ℕ)

/-- A message that rode in no car comes with a default one. -/
def NodeEvent.handle (n : Node A) : NodeEvent K D S → Node A
  | header h => n.sanitizeHeader c hasWorker h
  | own h => { n with accepted := h.new A :: n.accepted }
  | consult call => { n with verified := (call.run A c hasWorker n.verified).2 }
  | write i => (n.accepted[i]?).elim n fun h => n.write c h
  | request implicit author msg => n.check c implicit (genesisHeader A author) msg
  | check implicit i msg => (n.carried[i]?).elim n fun h => n.check c implicit h msg
  | execute lane height =>
    { n with executed := Function.update n.executed lane (max (n.executed lane) height) }

/-- A replica that starts on a store. -/
def Node.init (store : Store A) : Node A := ⟨store, .forCommittee c, [], [], fun _ => 0, ∅, []⟩

/-- The state after a sequence of events. -/
def Node.after (store : Store A) (es : List (NodeEvent K D S)) : Node A :=
  es.foldl (NodeEvent.handle c hasWorker) (.init c store)

/-- A car that the cache would accept for its key has the content that its id names. -/
def NodeEvent.Unaltered (n : Node A) : NodeEvent K D S → Prop
  | header h => h.CachedIn A n.verified → h.digest A = h.id
  | _ => True

/-- The states of the runs whose events all have `Ok`. -/
inductive Node.Reachable (Ok : Node A → NodeEvent K D S → Prop) : Node A → Prop
  | init (store : Store A) : Reachable Ok (.init c store)
  | step {n : Node A} (e : NodeEvent K D S) : Reachable Ok n → Ok n e →
      Reachable Ok (e.handle c hasWorker n)

/-! ### Stored suffixes -/

/-- A digest of some car at the coordinate. -/
def IsCar (A : Crypto K D S) (d : D) (lane : K) (height : ℕ) : Prop :=
  ∃ h : Header K D S, h.digest A = d ∧ h.author = lane ∧ h.height = height

/-- The lane is stored from a coordinate down to `stop`, at consecutive heights. -/
def Present (lane : K) (stop : ℕ) : ℕ → D → Prop
  | 0, _ => True
  | n + 1, d => n + 1 ≤ stop ∨ ∃ h, store.get d = some h ∧ h.author = lane ∧ h.height = n + 1 ∧
    Present lane stop n h.parentCert.headerDigest

/-- The car is the one that its id names and is stored, or it is a default car. -/
def Carrier (h : Header K D S) : Prop :=
  h.digest A = h.id ∧ (store.get h.id).isSome ∨ h.id = A.zero ∧ h.height = 0

/-- Where a tip has been walked to its floor, its lane is stored down to it. -/
def FloorOk (floor : Table D ℕ) : Prop :=
  ∀ {d fl}, floor.lookup d = some fl → ∀ {lane n}, IsCar A d lane n → Present store lane fl n d

variable {c store hasWorker} {lane : K}

section Walk

variable (hA : A.CollisionFree)
include hA

/-- Cars of one digest have one coordinate and one parent. -/
theorem Header.coordinate_of_digest {h h' : Header K D S} (hd : h.digest A = h'.digest A) :
    h.author = h'.author ∧ h.height = h'.height ∧
      h.parentCert.headerDigest = h'.parentCert.headerDigest := by
  obtain ⟨ha, hh, -, hp, -⟩ := Preimage.header.inj (hA.injective hd)
  exact ⟨ha, hh, hp⟩

theorem IsCar.unique {d : D} {lane lane' : K} {n n' : ℕ} (h : IsCar A d lane n)
    (h' : IsCar A d lane' n') : lane = lane' ∧ n = n' := by
  obtain ⟨x, hx, rfl, rfl⟩ := h
  obtain ⟨y, hy, rfl, rfl⟩ := h'
  obtain ⟨ha, hh, -⟩ := Header.coordinate_of_digest hA (hx.trans hy.symm)
  exact ⟨ha, hh⟩

/-- A suffix stays stored while no digest is dropped, even if cars are written over. -/
theorem Present.mono {store' : Store A} {stop stop' n : ℕ} {d : D}
    (hs : ∀ d, (store.get d).isSome → (store'.get d).isSome) (hle : stop ≤ stop')
    (h : Present store lane stop n d) : Present store' lane stop' n d := by
  induction n generalizing d with
  | zero => trivial
  | succ n ih =>
    rcases h with h | ⟨x, hx, ha, hh, hp⟩
    · exact .inl (h.trans hle)
    · obtain ⟨y, hy⟩ := Option.isSome_iff_exists.mp (hs d (by rw [hx]; rfl))
      have hd : y.digest A = x.digest A := (store'.digest_eq hy).trans (store.digest_eq hx).symm
      obtain ⟨ha', hh', hp'⟩ := Header.coordinate_of_digest hA hd
      exact .inr ⟨y, hy, ha'.trans ha, hh'.trans hh, hp' ▸ ih hp⟩

theorem ancestors_of_present (hlane : lane ∈ c.authorities) {stop n fuel : ℕ} {d : D}
    {h : Header K D S} (hd : store.get d = some h) (ha : h.author = lane) (hn : h.height = n)
    (hfuel : n ≤ fuel) (hstop : stop < n) (hp : Present store lane stop n d) :
    ∃ l, ancestors c store stop fuel h = some l ∧
      l.reverse.map Header.height = List.range' (stop + 1) (n - stop) ∧
        ∀ x ∈ l, x.author = lane := by
  induction n generalizing fuel d h with
  | zero => omega
  | succ n ih =>
    obtain ⟨fuel, rfl⟩ : ∃ k, fuel = k + 1 := ⟨fuel - 1, by omega⟩
    rw [ancestors, if_neg (by omega)]
    split
    next heq =>
      obtain rfl : n = stop := by omega
      refine ⟨[h], rfl, ?_, by simpa using ha⟩
      rw [Nat.add_sub_cancel_left]
      simp [hn]
    next hne =>
      obtain ⟨x, hx, -, -, hrest⟩ := hp.resolve_left (by omega)
      obtain rfl : x = h := Option.some.inj (hx.symm.trans hd)
      obtain ⟨m, rfl⟩ : ∃ k, n = k + 1 := ⟨n - 1, by omega⟩
      obtain ⟨y, hy, hya, hyn, -⟩ := hrest.resolve_left (by omega)
      -- a car above height 0 is not the default car
      have hgenesis : x.parentCert.headerDigest ≠ genesisDigest A x.author := fun he => by
        have := (Preimage.header.inj (hA.injective ((store.digest_eq hy).trans he))).2.1
        omega
      have hfuel' : m + 1 ≤ fuel := by omega
      have hstop' : stop < m + 1 := by omega
      obtain ⟨l, hl, hheights, hauthors⟩ := ih hy hya hyn hfuel' hstop' hrest
      refine ⟨x :: l, ?_, ?_, ?_⟩
      · rw [getParentHeader, if_neg (by simpa [ha] using hlane), if_neg hgenesis, hy]
        simp [hl]
      · rw [List.reverse_cons, List.map_append, hheights, List.map_singleton, hn,
          show m + 1 + 1 - stop = m + 1 - stop + 1 by omega, List.range'_concat]
        congr 2
        omega
      · exact List.forall_mem_cons.mpr ⟨ha, hauthors⟩

theorem getAll_of_present (hlane : lane ∈ c.authorities) {stop fuel : ℕ} {q : Proposal K D S}
    (hfuel : q.height ≤ fuel) (hstop : stop < q.height)
    (hp : Present store lane stop q.height q.headerDigest) :
    ∃ l, getAllHeadersForProposal c store fuel q stop = some l ∧
      l.map Header.height = List.range' (stop + 1) (q.height - stop) ∧
        ∀ x ∈ l, x.author = lane := by
  obtain ⟨n, hn⟩ : ∃ k, q.height = k + 1 := ⟨q.height - 1, by omega⟩
  have hp' := hp
  rw [hn] at hp'
  obtain ⟨h, hd, ha, hh, -⟩ := hp'.resolve_left (by omega)
  obtain ⟨l, hl, hheights, hauthors⟩ :=
    ancestors_of_present hA hlane hd ha (hh.trans hn.symm) hfuel hstop hp
  exact ⟨l.reverse, by simp [getAllHeadersForProposal, hd, hl], hheights, by simpa using hauthors⟩

/-- What is read at a coordinate is stored there, up to what its digest leaves open. -/
theorem read_stored {d : D} {height : ℕ} {delivered h : Header K D S} (hc : Carrier store delivered)
    (hpos : 0 < height) (hr : readProposalHeader store lane d height delivered = some (some h)) :
    ∃ x, store.get d = some x ∧ x.author = lane ∧ x.height = height ∧ h.height = height ∧
      x.parentCert.headerDigest = h.parentCert.headerDigest := by
  unfold readProposalHeader at hr
  split at hr
  · cases hr
  next x hx =>
    split at hr
    · cases hr
    next hok =>
      push Not at hok
      obtain rfl : x = h := by simpa using hr
      obtain ⟨rfl, rfl, -⟩ := hok
      split at hx
      next hd =>
        obtain rfl := Option.some.inj hx
        rcases hc with ⟨hid, hc⟩ | ⟨-, hz⟩
        · obtain ⟨y, hy⟩ := Option.isSome_iff_exists.mp hc
          obtain ⟨ha, hh, hp⟩ :=
            Header.coordinate_of_digest hA ((store.digest_eq hy).trans hid.symm)
          exact ⟨y, hd ▸ hy, ha, hh, rfl, hp⟩
        · omega
      next => exact ⟨x, hx, rfl, rfl, rfl, rfl⟩

/-- A verified proof of availability names a car of a member. -/
def CertifiedCars (A : Crypto K D S) (c : Committee K) : Prop :=
  ∀ p : Certificate K D S, p.verify A c = true →
    IsCar A p.headerDigest p.author p.height ∧ p.author ∈ c.authorities

variable (hcars : CertifiedCars A c) {floor : Table D ℕ} {delivered : Header K D S}
include hcars

theorem walkDown_present (hf : FloorOk store floor) (hc : Carrier store delivered) {stop n : ℕ}
    {d : D} (hd : IsCar A d lane n)
    (hw : walkDown c store floor lane stop delivered n d = some none) :
    Present store lane stop n d := by
  induction n generalizing d with
  | zero => trivial
  | succ n ih =>
    rw [walkDown] at hw
    split at hw
    next hle => exact .inl hle
    next =>
      split at hw
      next hhit =>
        obtain ⟨fl, hfl, hle⟩ : ∃ fl, floor.lookup d = some fl ∧ fl ≤ stop := by
          simpa [Option.any_eq_true] using hhit
        exact (hf hfl hd).mono hA (fun _ h => h) hle
      next =>
        split at hw
        · cases hw
        · cases hw
        next h hr =>
          obtain ⟨x, hget, ha, hh, hheight, hparent⟩ := read_stored hA hc (Nat.succ_pos n) hr
          split at hw
          next hp =>
            have hcar := (hcars _ hp.1).1
            rw [hp.2.1, show h.parentCert.height = n by omega] at hcar
            exact .inr ⟨x, hget, ha, hh, hparent ▸ ih hcar hw⟩
          next => cases hw

omit hA hcars in
theorem FloorOk.note (hf : FloorOk store floor) {d : D} {stop : ℕ}
    (hp : ∀ lane n, IsCar A d lane n → Present store lane stop n d) :
    FloorOk store (noteFloor floor d stop) := by
  have hf' : FloorOk store (if walkedFloorCap ≤ Table.size floor then ∅ else floor) := by
    split
    · intro d fl hl
      simp at hl
    · exact hf
  generalize hg : (if walkedFloorCap ≤ Table.size floor then ∅ else floor) = floor' at hf'
  intro d' fl hl lane n hcar
  rw [noteFloor, hg] at hl
  by_cases hd : d' = d
  · subst hd
    obtain rfl : min ((floor'.lookup d').getD stop) stop = fl := by simpa using hl
    cases hold : floor'.lookup d' with
    | none => simpa using hp lane n hcar
    | some old =>
      rcases le_total old stop with hle | hle
      · simpa [min_eq_left hle] using hf' hold hcar
      · simpa [min_eq_right hle] using hp lane n hcar
  · exact hf' (by simpa [AList.lookup_insert_ne hd] using hl) hcar

theorem firstMissingCertified_spec (hf : FloorOk store floor) (hc : Carrier store delivered)
    (stop : ℕ) {n : ℕ} {d : D} (hd : IsCar A d lane n) :
    let r := firstMissingCertified c store floor lane n d stop delivered
    FloorOk store r.2 ∧ (r.1 = some none → Present store lane stop n d) := by
  rw [firstMissingCertified]
  split
  next hw =>
    have hp := walkDown_present hA hcars hf hc hd hw
    refine ⟨?_, fun _ => hp⟩
    exact hf.note fun lane' n' hcar => by
      obtain ⟨rfl, rfl⟩ := hd.unique hA hcar
      exact hp
  next hne => exact ⟨hf, fun h => (hne h).elim⟩

omit hA hcars in
theorem Proposal.verify_spec {q : Proposal K D S} {kind : ProposalKind}
    (h : q.verify A c lane = some kind) :
    match kind with
    | .genesis => q.height = 0
    | .certified => ∃ p : Certificate K D S, p.verify A c = true ∧ p.author = lane ∧
      p.height = q.height ∧ p.headerDigest = q.headerDigest
    | .optimistic => 0 < q.height ∧ 0 < c.stake lane := by
  rw [verify, verifyWith] at h
  cases hk : q.classify A c lane with
  | none => rw [hk] at h; cases h
  | some k =>
    rw [hk] at h
    unfold classify at hk
    cases hp : q.poa with
    | none =>
      rw [hp] at h hk
      obtain rfl := Option.some.inj h
      dsimp only at hk
      split at hk
      next hpos => cases hk; exact hpos
      next => cases hk
    | some p =>
      rw [hp] at h hk
      obtain ⟨hv, rfl⟩ : p.verify A c = true ∧ k = kind := by simpa [pure, bind] using h
      dsimp only at hk
      split at hk
      next => cases hk
      next hlane =>
        split at hk
        next hz =>
          split at hk
          next => cases hk; exact hz
          next => cases hk
        next =>
          split at hk
          next heq => cases hk; exact ⟨p, hv, not_not.mp hlane, heq⟩
          next => cases hk

theorem laneCheck_spec (hf : FloorOk store floor) (hc : Carrier store delivered) (stop : ℕ)
    (lane : K) (q : Proposal K D S) :
    let r := laneCheck c store stop delivered floor lane q
    FloorOk store r.2 ∧ ∀ fetch, r.1 = some ([], fetch) →
      Present store lane stop q.height q.headerDigest ∧ (0 < q.height → lane ∈ c.authorities) := by
  have hnone : ∀ {r : Option (Option D)} {fetch : Bool},
      (r.map fun missing => (missing.toList, false)) = some ([], fetch) → r = some none := by
    rintro (_ | _ | d) fetch h <;> simp_all
  rw [laneCheck]
  split
  next => exact ⟨hf, by simp⟩
  next hk =>
    have hz : q.height = 0 := Proposal.verify_spec hk
    exact ⟨hf, fun _ _ => ⟨by rw [hz]; trivial, by omega⟩⟩
  next hk =>
    obtain ⟨p, hv, rfl, hn, hd⟩ := Proposal.verify_spec hk
    obtain ⟨hcar, hmem⟩ := hcars p hv
    rw [hd, hn] at hcar
    obtain ⟨hf', hp⟩ := firstMissingCertified_spec hA hcars hf hc stop hcar
    exact ⟨hf', fun _ h => ⟨hp (hnone h), fun _ => hmem⟩⟩
  next hk =>
    obtain ⟨hpos, hstake⟩ := Proposal.verify_spec hk
    have hmem : lane ∈ c.authorities := by
      by_contra hno
      simp [Committee.stake, hno] at hstake
    split
    next => exact ⟨hf, by simp⟩
    next => exact ⟨hf, by simp⟩
    next tip hr =>
      obtain ⟨x, hget, ha, hh, hn, hdigest⟩ := read_stored hA hc hpos hr
      split
      next hparent =>
        have htip : Present store lane stop tip.parentCert.height tip.parentCert.headerDigest →
            Present store lane stop q.height q.headerDigest := fun h => by
          rw [show q.height = tip.parentCert.height + 1 by omega]
          exact .inr ⟨x, hget, ha, by omega, hdigest ▸ h⟩
        split
        next =>
          have hcar := (hcars _ hparent.1).1
          rw [hparent.2.1] at hcar
          obtain ⟨hf', hp⟩ := firstMissingCertified_spec hA hcars hf hc stop hcar
          exact ⟨hf', fun _ h => ⟨htip (hp (hnone h)), fun _ => hmem⟩⟩
        next hle =>
          refine ⟨hf, fun _ _ => ⟨htip ?_, fun _ => hmem⟩⟩
          cases hh : tip.parentCert.height with
          | zero => trivial
          | succ n => exact .inl (by omega)
      next => exact ⟨hf, by simp⟩

theorem lanesCheck_spec (hc : Carrier store delivered) (executed : K → ℕ)
    (lanes : List (Sigma fun _ : K => Proposal K D S)) (hf : FloorOk store floor) :
    let r := lanesCheck c store executed delivered lanes floor
    FloorOk store r.2 ∧ ∀ fetch, r.1 = some ([], fetch) → ∀ e ∈ lanes,
      Present store e.1 (executed e.1) e.2.height e.2.headerDigest ∧
        (0 < e.2.height → e.1 ∈ c.authorities) := by
  induction lanes generalizing floor with
  | nil => exact ⟨hf, by simp⟩
  | cons e lanes ih =>
    obtain ⟨lane, q⟩ := e
    have hlane := laneCheck_spec hA hcars hf hc (executed lane) lane q
    rw [lanesCheck]
    split
    next floor' hl => exact ⟨hl ▸ hlane.1, by simp⟩
    next r floor' hl =>
      rw [hl] at hlane
      obtain ⟨hf', hrest⟩ := ih hlane.1
      refine ⟨hf', fun fetch h => ?_⟩
      obtain ⟨r', hr', he⟩ := Option.map_eq_some_iff.mp h
      obtain ⟨he, -⟩ := Prod.mk.inj he
      obtain ⟨hr, hr''⟩ := List.append_eq_nil_iff.mp he
      refine List.forall_mem_cons.mpr ⟨hlane.2 r.2 ?_, hrest r'.2 ?_⟩
      · rw [← hr]
      · rw [hr', ← hr'']

/-- Accepted cars carry their own digest, the handed on ones are stored, the memo means what it
says, and released cuts are stored down to the executed heights. -/
structure NodeOk (c : Committee K) (n : Node A) : Prop where
  accepted : ∀ h ∈ n.accepted, h.digest A = h.id
  carried : ∀ h ∈ n.carried, Carrier n.store h
  floor : FloorOk n.store n.walkedFloor
  released : ∀ p ∈ n.released, ∀ lane q, p.lookup lane = some q →
    Present n.store lane (n.executed lane) q.height q.headerDigest ∧
      (0 < q.height → lane ∈ c.authorities)

omit hcars in
theorem NodeOk.write {n : Node A} (hn : NodeOk c n) {h : Header K D S} (hid : h.digest A = h.id) :
    NodeOk c (n.write c h) := by
  unfold Node.write
  split
  · have hkeep : ∀ d, (n.store.get d).isSome → ((n.store.put h).get d).isSome := by
      intro d hd
      simp only [Store.put]
      split
      · rfl
      · exact hd
    refine ⟨hn.accepted, ?_, fun hl _ _ hcar => (hn.floor hl hcar).mono hA hkeep le_rfl, ?_⟩
    · intro x hx
      rcases List.mem_cons.mp hx with rfl | hx
      · exact .inl ⟨hid, by simp [Store.put, hid]⟩
      · exact (hn.carried x hx).imp_left fun hs => ⟨hs.1, hkeep _ hs.2⟩
    · intro p hp lane q hq
      obtain ⟨hpresent, hmem⟩ := hn.released p hp lane q hq
      exact ⟨hpresent.mono hA hkeep le_rfl, hmem⟩
  · exact hn

theorem NodeOk.check {n : Node A} (hn : NodeOk c n) {implicit : Bool} {h : Header K D S}
    (hc : Carrier n.store h) (msg : ConsensusMessage K D S) :
    NodeOk c (n.check c implicit h msg) := by
  have hlanes := fun p : Cut K D S => lanesCheck_spec hA hcars hc n.executed p.entries hn.floor
  cases msg with
  | prepare slot view p => exact ⟨hn.accepted, hn.carried, (hlanes p).1, hn.released⟩
  | confirm slot view qc p => exact hn
  | commit slot view qc p =>
    refine ⟨hn.accepted, hn.carried, (hlanes p).1, fun p' hp' lane q hq => ?_⟩
    simp only [Node.check] at hp'
    split at hp'
    next hr =>
      obtain ⟨⟨waits, fetch⟩, hr, he⟩ := Option.map_eq_some_iff.mp hr
      obtain rfl : waits = [] := List.isEmpty_iff.mp he
      rcases List.mem_cons.mp hp' with rfl | hp'
      · exact (hlanes p').2 fetch hr ⟨lane, q⟩ (AList.mem_lookup_iff.mp hq)
      · exact hn.released p' hp' lane q hq
    next => exact hn.released p' hp' lane q hq

theorem NodeOk.handle {n : Node A} (hn : NodeOk c n) {e : NodeEvent K D S} (he : e.Unaltered n) :
    NodeOk c (e.handle c hasWorker n) := by
  cases e with
  | header h =>
    refine ⟨fun x hx => ?_, hn.carried, hn.floor, hn.released⟩
    simp only [NodeEvent.handle, Node.sanitizeHeader] at hx
    split at hx
    next hok =>
      rcases List.mem_cons.mp hx with rfl | hx
      · exact digest_of_checkHeader he hok
      · exact hn.accepted x hx
    next => exact hn.accepted x hx
  | own h =>
    refine ⟨fun x hx => ?_, hn.carried, hn.floor, hn.released⟩
    rcases List.mem_cons.mp hx with rfl | hx
    · rfl
    · exact hn.accepted x hx
  | consult call => exact ⟨hn.accepted, hn.carried, hn.floor, hn.released⟩
  | write i =>
    simp only [NodeEvent.handle]
    cases hi : n.accepted[i]? with
    | none => exact hn
    | some h => exact hn.write hA (hn.accepted h (List.mem_of_getElem? hi))
  | request implicit author msg => exact hn.check hA hcars (.inr ⟨rfl, rfl⟩) msg
  | check implicit i msg =>
    simp only [NodeEvent.handle]
    cases hi : n.carried[i]? with
    | none => exact hn
    | some h => exact hn.check hA hcars (hn.carried h (List.mem_of_getElem? hi)) msg
  | execute lane height =>
    refine ⟨hn.accepted, hn.carried, hn.floor, fun p hp lane' q hq => ?_⟩
    obtain ⟨hpresent, hmem⟩ := hn.released p hp lane' q hq
    refine ⟨hpresent.mono hA (fun _ h => h) ?_, hmem⟩
    by_cases hl : lane' = lane
    · subst hl
      simp [NodeEvent.handle]
    · simp [NodeEvent.handle, Function.update_of_ne hl]

theorem Node.Reachable.ok {n : Node A}
    (hrun : Node.Reachable c hasWorker (fun n e => e.Unaltered n) n) : NodeOk c n := by
  induction hrun with
  | init store =>
    exact ⟨by simp [Node.init], by simp [Node.init], fun hl => by simp [Node.init] at hl,
      by simp [Node.init]⟩
  | step e _ he ih => exact ih.handle hA hcars he

end Walk

/-! ### Released Commits are executable -/

theorem certifiedCars (hu : c.UnitStakes) {byzantine : Finset K}
    (hb : (c.authorities ∩ byzantine).card ≤ (Thresholds.fromPartyCount c.size).fParties)
    (hvotes : ∀ {k s lane n d}, (c.faultModel byzantine hb).Correct k →
      A.verifies s (carVoteDigest A lane n d) k = true → IsCar A d lane n ∧ lane ∈ c.authorities) :
    CertifiedCars A c := by
  intro p hp
  simp only [Certificate.verify, Bool.or_eq_true, Bool.and_eq_true, List.all_eq_true] at hp
  rcases hp with hg | ⟨hadm, hsig⟩
  · simp only [Certificate.isGenesisFor, Bool.and_eq_true, decide_eq_true_eq] at hg
    obtain ⟨⟨hstake, -, hd, hn⟩, -⟩ := hg
    refine ⟨⟨genesisHeader A p.author, hd.symm, rfl, hn.symm⟩, ?_⟩
    by_contra hno
    simp [Committee.stake, hno] at hstake
  · obtain ⟨k, hk, hmem⟩ := FaultModel.atLeast_correct (F := c.faultModel byzantine hb)
      (atLeast_of_admits hu hadm) (Committee.fParties_lt_validityThreshold hu)
    obtain ⟨⟨k, s⟩, hv, rfl⟩ := List.mem_map.mp hmem
    exact hvotes hk (hsig _ hv)

/-- **Released Commits are executable.**  In every interleaving of core and committer steps that
takes no altered car for another one, the cars of a released Commit above the heights that are
executed by then are found, at consecutive heights. -/
theorem released_executable (hA : A.CollisionFree) (hu : c.UnitStakes) {byzantine : Finset K}
    (hb : (c.authorities ∩ byzantine).card ≤ (Thresholds.fromPartyCount c.size).fParties)
    (hvotes : ∀ {k s lane n d}, (c.faultModel byzantine hb).Correct k →
      A.verifies s (carVoteDigest A lane n d) k = true → IsCar A d lane n ∧ lane ∈ c.authorities)
    {n : Node A} (hrun : Node.Reachable c hasWorker (fun n e => e.Unaltered n) n) {p : Cut K D S}
    (hp : p ∈ n.released) {lane : K} {q : Proposal K D S} (hq : p.lookup lane = some q)
    (hstop : n.executed lane < q.height) {fuel : ℕ} (hfuel : q.height ≤ fuel) :
    ∃ l, getAllHeadersForProposal c n.store fuel q (n.executed lane) = some l ∧
      l.map Header.height =
        List.range' (n.executed lane + 1) (q.height - n.executed lane) := by
  have hok := hrun.ok hA (certifiedCars hu hb hvotes)
  obtain ⟨hpresent, hmem⟩ := hok.released p hp lane q hq
  obtain ⟨l, hl, hheights, -⟩ := getAll_of_present hA (hmem (by omega)) hfuel hstop hpresent
  exact ⟨l, hl, hheights⟩

theorem Node.mem_released_check {n : Node A} {implicit : Bool} {h : Header K D S} {slot view : ℕ}
    {qc : QC K D S} {p : Cut K D S}
    (hr : (getProposals c n.store n.executed implicit h (.commit slot view qc p) n.walkedFloor).1 =
      some true) : p ∈ (n.check c implicit h (.commit slot view qc p)).released := by
  simp [Node.check, hr]

theorem Node.reachable_after {es : List (NodeEvent K D S)} (store : Store A)
    (hes : ∀ e ∈ es, ∀ n : Node A, e.Unaltered n) :
    Node.Reachable c hasWorker (fun n e => e.Unaltered n) (Node.after c hasWorker store es) := by
  have hfold : ∀ n : Node A, Node.Reachable c hasWorker (fun n e => e.Unaltered n) n →
      Node.Reachable c hasWorker (fun n e => e.Unaltered n)
        (es.foldl (NodeEvent.handle c hasWorker) n) := by
    induction es with
    | nil => exact fun _ hn => hn
    | cons e es ih =>
      obtain ⟨he, hes⟩ := List.forall_mem_cons.mp hes
      exact fun n hn => ih hes _ (.step e hn (he n))
  exact hfold _ (.init store)

section Example

/-- A signature is the name of its author. -/
def Crypto.named : Crypto (Fin 4) ℕ (Fin 4) := .numbering fun sig _ k => sig = k

theorem Crypto.named_collisionFree : Crypto.named.CollisionFree := numbering_collisionFree _

/-- A car of a lane whose parent has the votes of the given members. -/
def laneCar (author : Fin 4) (height : ℕ) (payload : List (ℕ × ℕ)) (parent : ℕ)
    (voters : List (Fin 4)) : Header (Fin 4) ℕ (Fin 4) :=
  Header.new .named ⟨author, height, payload,
    ⟨author, parent, height - 1, voters.map fun k => (k, k)⟩, 0, some author, none, ∅, 0⟩

/-- The first car of lane 1. -/
def firstCar (payload : List (ℕ × ℕ)) : Header (Fin 4) ℕ (Fin 4) :=
  laneCar 1 1 payload (genesisDigest .named 1) []

/-- The second car of lane 1 after the first one with that payload. -/
def secondCar (payload : List (ℕ × ℕ)) : Header (Fin 4) ℕ (Fin 4) :=
  laneCar 1 2 [] (firstCar payload).id [1, 2]

/-- The third car of lane 1. -/
def thirdCar : Header (Fin 4) ℕ (Fin 4) := laneCar 1 3 [(8, 0)] (secondCar []).id [0, 2]

/-- The default tip of a lane. -/
def genesisTip (lane : Fin 4) : Proposal (Fin 4) ℕ (Fin 4) :=
  ⟨genesisDigest .named lane, 0, some ⟨lane, genesisDigest .named lane, 0, []⟩⟩

/-- A cut with a tip for lane 1. -/
def laneCut (tip : Proposal (Fin 4) ℕ (Fin 4)) : Cut (Fin 4) ℕ (Fin 4) :=
  (((AList.singleton 0 (genesisTip 0)).insert 1 tip).insert 2 (genesisTip 2)).insert 3
    (genesisTip 3)

/-- The Commit of a cut in view 1 of a slot, with the Prepare votes of everyone. -/
def laneCommit (slot : ℕ) (tip : Proposal (Fin 4) ℕ (Fin 4)) :
    ConsensusMessage (Fin 4) ℕ (Fin 4) :=
  .commit slot 1 ⟨prepareDigest .named slot 1 (laneCut tip), [(0, 0), (1, 1), (2, 2), (3, 3)]⟩
    (laneCut tip)

/-- Car votes are signed only for the three cars. -/
def Crypto.honest : Crypto (Fin 4) ℕ (Fin 4) :=
  .numbering fun sig d k => sig = k && (d % 16 != 8 ||
    [firstCar [], secondCar [], thirdCar].any fun h =>
      d = carVoteDigest .named h.author h.height h.id)

theorem Crypto.honest_collisionFree : Crypto.honest.CollisionFree := numbering_collisionFree _

theorem isCar_of_honest {k s lane : Fin 4} {n d : ℕ}
    (h : Crypto.honest.verifies s (carVoteDigest Crypto.honest lane n d) k = true) :
    IsCar Crypto.honest d lane n ∧ lane ∈ four.authorities := by
  refine ⟨?_, Finset.mem_univ lane⟩
  have htag : carVoteDigest Crypto.named lane n d % 16 = 8 := by
    simp only [carVoteDigest, Crypto.named, Crypto.numbering, Preimage.tag]
    omega
  have h : (decide (s = k) && (carVoteDigest Crypto.named lane n d % 16 != 8 ||
      [firstCar [], secondCar [], thirdCar].any fun h => decide
        (carVoteDigest Crypto.named lane n d = carVoteDigest .named h.author h.height h.id))) =
      true := h
  simp only [htag, bne_self_eq_false, Bool.false_or, Bool.and_eq_true, List.any_eq_true,
    decide_eq_true_eq] at h
  obtain ⟨-, x, hx, hd⟩ := h
  obtain ⟨rfl, rfl, rfl⟩ := Preimage.carVote.inj (Crypto.named_collisionFree.injective hd)
  refine ⟨x, ?_, rfl, rfl⟩
  simp only [List.mem_cons, List.not_mem_nil, or_false] at hx
  rcases hx with rfl | rfl | rfl <;> rfl

/-- The tip with which the first car is certified. -/
def firstTip : Proposal (Fin 4) ℕ (Fin 4) :=
  ⟨(firstCar []).id, 1, some ⟨1, (firstCar []).id, 1, [(1, 1), (2, 2)]⟩⟩

/-- The third car as an optimistic tip. -/
def thirdTip : Proposal (Fin 4) ℕ (Fin 4) := ⟨thirdCar.id, 3, none⟩

/-- The first slot is committed on the first car and the second one on the third car, which is
walked down to where the first walk began; then the first slot is executed. -/
def twoSlots : List (NodeEvent (Fin 4) ℕ (Fin 4)) :=
  [.header (firstCar []), .write 0, .request false 0 (laneCommit 1 firstTip),
    .header (secondCar []), .write 0, .header thirdCar, .write 0,
    .request false 0 (laneCommit 2 thirdTip), .execute 1 1]

/-- A first car whose payload is withheld. -/
def hiddenTip : Proposal (Fin 4) ℕ (Fin 4) := ⟨(firstCar [(7, 0)]).id, 1, none⟩

/-- The same car without its payload, and with a Commit of the original one. -/
def alteredCar : Header (Fin 4) ℕ (Fin 4) :=
  { firstCar [(7, 0)] with
    payload := []
    consensusMessages :=
      AList.singleton ((laneCommit 1 hiddenTip).digest .named) (laneCommit 1 hiddenTip) }

/-- The original is checked but not stored, and the altered car stands in for it. -/
def alteredRun : List (NodeEvent (Fin 4) ℕ (Fin 4)) :=
  [.header (firstCar [(7, 0)]), .header alteredCar, .write 0,
    .check false 0 (laneCommit 1 hiddenTip)]

/-- **An altered car stands in for a missing tip.**  The Commit is valid and is released, since the
car that it rode in has the id of the tip; the committer does not find the tip. -/
theorem altered_tip_missing : Crypto.named.CollisionFree ∧
    verifyCommit .named four (laneCommit 1 hiddenTip) = true ∧
      ∃ n, n = Node.after four (fun _ _ => true) (.empty .named) alteredRun ∧
        laneCut hiddenTip ∈ n.released ∧ n.executed 1 < hiddenTip.height ∧
          ∀ fuel, getAllHeadersForProposal four n.store fuel hiddenTip (n.executed 1) = none := by
  have hmissing : ((Node.after four (fun _ _ => true) (.empty .named) alteredRun).store.get
      hiddenTip.headerDigest).isNone := by
    decide +kernel
  have hcheck : (getProposals four (Node.after four (fun _ _ => true) (.empty .named)
      (alteredRun.take 3)).store (fun _ => 0) false alteredCar (laneCommit 1 hiddenTip) ∅).1 =
        some true := by
    decide +kernel
  refine ⟨Crypto.named_collisionFree, by decide +kernel, _, rfl, ?_, Nat.one_pos, fun fuel => ?_⟩
  · exact Node.mem_released_check hcheck
  · rw [getAllHeadersForProposal, Option.isNone_iff_eq_none.mp hmissing]
    rfl

/-- The walk of the second slot ends at the memo of the first one, and the committer comes later. -/
theorem released_executable_twoSlots :
    ∃ n, n = Node.after four (fun _ _ => true) (.empty .honest) twoSlots ∧
      laneCut thirdTip ∈ n.released ∧ n.executed 1 = 1 ∧
        n.walkedFloor.lookup (firstCar []).id = some 0 ∧
        ∃ l, getAllHeadersForProposal four n.store 3 thirdTip 1 = some l ∧
          l.map Header.height = [2, 3] := by
  have hb : (four.authorities ∩ {3}).card ≤ (Thresholds.fromPartyCount four.size).fParties := by
    decide
  have hcheck : (getProposals four (Node.after four (fun _ _ => true) (.empty .honest)
      (twoSlots.take 7)).store (fun _ => 0) false (genesisHeader .honest 0) (laneCommit 2 thirdTip)
      (Node.after four (fun _ _ => true) (.empty .honest) (twoSlots.take 7)).walkedFloor).1 =
        some true := by
    decide +kernel
  have hreleased : laneCut thirdTip ∈
      (Node.after four (fun _ _ => true) (.empty .honest) twoSlots).released :=
    Node.mem_released_check hcheck
  have hunaltered : ∀ e ∈ twoSlots, ∀ n : Node .honest, e.Unaltered n := by
    simp only [twoSlots, List.forall_mem_cons, NodeEvent.Unaltered, implies_true, true_and]
    exact ⟨fun _ _ => rfl, fun _ _ => rfl, fun _ _ => rfl, by simp⟩
  have htip : (laneCut thirdTip).lookup 1 = some thirdTip := rfl
  exact ⟨_, rfl, hreleased, rfl, by decide +kernel,
    released_executable Crypto.honest_collisionFree (fun _ _ => rfl) hb
      (fun _ h => isCar_of_honest h) (Node.reachable_after _ hunaltered) hreleased htip (by decide)
      le_rfl⟩

end Example

end Vantage.Autobahn
