import Vantage.Autobahn.Synchronizer
import Vantage.Autobahn.ViewChange
import Vantage.Lib.Procedure

/-!
# Autobahn: votes for cars

A replica votes for the cars of every lane, one for each height, and for a car only after its
parent.  The vote table is cut off at the round of garbage collection, and cars are checked through
the cache of verified objects, which knows a car by its `id` and signature.

A repaired suffix is handled as its cars, one after the other.  The answers of the synchronizer and
of the consensus core are those of the environment; of the messages in a car the tickets matter,
for an error in adopting one ends the call.

* `processHeader`: one car, with the descent to parents that have no vote;
* `car_votes_follow_one_branch`: what holds in runs whose calls stay above the collected rounds and
  take no altered car for another one;
* `collected_height_voted_twice`: a call below a collected round votes twice at one height.
-/

namespace Vantage.Autobahn

open Proc

/-- What a replica keeps for its car votes: the table of votes by height and lane, the round of
garbage collection, the store, the cache of verified objects, the cars handed to the waiter and the
committed slots; and, of the past, the cars it signed votes for and the highest round collected. -/
structure Cars {K D S : Type} [LinearOrder K] [LinearOrder D] (A : Crypto K D S) where
  lastVoted : Table ℕ (Table K D)
  gcRound : ℕ
  store : Store A
  verified : Generations D
  waiting : List (Header K D S)
  committedSlots : Finset ℕ
  signed : List (Header K D S)
  swept : ℕ

/-- What the environment answers during one event: whether payload is missing, or the look-up
fails; whether the tips are updated without an error; the slots of the tickets in the Prepares of a
car that are valid; whether a slot is committed without an error; and the calls of the cache that
are made while the tips are updated. -/
structure Answers (K D S : Type) where
  missingPayload : Header K D S → Option Bool
  tipsUpdated : Header K D S → Bool
  calls : Header K D S → List (Call K D S)
  tickets : Header K D S → List ℕ
  committed : ℕ → Bool

/-- The committee, the workers that its members declare, and the depth of garbage collection. -/
structure LaneRules (K : Type) where
  committee : Committee K
  hasWorker : K → ℕ → Bool
  gcDepth : ℕ

section Model

variable {K D S : Type} [LinearOrder K] [LinearOrder D] {A : Crypto K D S} (cfg : LaneRules K)

namespace Cars

/-- Nothing is stored and nothing voted for. -/
def start : Cars A := ⟨∅, 0, .empty A, .forCommittee cfg.committee, [], ∅, [], 0⟩

/-- The car that has the vote of a lane at a height. -/
def voted (s : Cars A) (height : ℕ) (author : K) : Option D :=
  (s.lastVoted.lookup height).bind fun lanes => lanes.lookup author

/-- The vote of the lane at the height goes to the car. -/
def record (h : Header K D S) (s : Cars A) : Cars A :=
  { s with
    lastVoted := s.lastVoted.insert h.height
      (((s.lastVoted.lookup h.height).getD ∅).insert h.author h.id) }

/-- A vote for the car is signed and sent. -/
def sign (h : Header K D S) (s : Cars A) : Cars A := { s with signed := h :: s.signed }

/-- The car is handed to the waiter, which returns it when what it lacks has arrived. -/
def wait (h : Header K D S) (s : Cars A) : Cars A := { s with waiting := h :: s.waiting }

/-- The car is stored under its digest. -/
def put (h : Header K D S) (s : Cars A) : Cars A := { s with store := s.store.put h }

/-- The slot is entered as committed. -/
def commit (slot : ℕ) (s : Cars A) : Cars A :=
  { s with committedSlots := insert slot s.committedSlots }

/-- Votes below the shared round less the depth are forgotten. -/
def collect (round : ℕ) (s : Cars A) : Cars A :=
  if cfg.gcDepth < round then
    { s with
      lastVoted := Table.retain (fun height => decide (round - cfg.gcDepth ≤ height)) s.lastVoted
      gcRound := round - cfg.gcDepth
      swept := max s.swept (round - cfg.gcDepth) }
  else s

end Cars

/-- A check through the cache. -/
def consult {α : Type} (check : StateM (Generations D) α) : Proc (Cars A) Unit α :=
  ⟨fun s => (.ok (check s.verified).1, { s with verified := (check s.verified).2 })⟩

/-- Commits that come as tickets; the first error ends it. -/
def adoptTickets (ans : Answers K D S) (slots : List ℕ) : Proc (Cars A) Unit Unit :=
  forEach slots fun slot => do
    let s ← get
    if slot ∈ s.committedSlots then pure ()
    else
      modify (Cars.commit slot)
      if ans.committed slot then pure () else fail ()

/-- The vote for a car, unless its height has one.  It is recorded first, and signed after the
messages of the car have been processed. -/
def recordCarVote (ans : Answers K D S) (h : Header K D S) : Proc (Cars A) Unit Unit := do
  let s ← get
  if (s.voted h.height h.author).isSome then pure ()
  else
    modify (Cars.record h)
    adoptTickets ans (ans.tickets h)
    modify (Cars.sign h)

/-- The tips are brought up to date, then the car gets its vote. -/
def voteOnBranch (ans : Answers K D S) (h : Header K D S) : Proc (Cars A) Unit Unit := do
  let _ ← consult (runCalls A cfg.committee cfg.hasWorker (ans.calls h))
  if ans.tipsUpdated h then recordCarVote ans h else fail ()

/-- A car of the given height.  A parent without a vote is checked and processed first, at whatever
height. -/
def processHeader (ans : Answers K D S) : ℕ → Header K D S → Proc (Cars A) Unit Unit
  | 0, _ => fail ()
  | n + 1, h => do
    let s ← get
    if s.voted h.height h.author = some h.id then pure ()
    else
      let poa ← consult (checkCertificate A cfg.committee h.parentCert)
      if !poa ∨ h.parentCert.author ≠ h.author ∨ h.parentCert.height + 1 ≠ h.height then fail ()
      else
        match ans.missingPayload h with
        | none => fail ()
        | some true => modify (Cars.wait h)
        | some false =>
          modify (Cars.put h)
          let s ← get
          match getParentHeader cfg.committee s.store h with
          | none => modify (Cars.wait h)
          | some parent =>
            if parent.height = 0 then voteOnBranch cfg ans h
            else
              match s.voted parent.height parent.author with
              | some d => if d = parent.id then voteOnBranch cfg ans h else pure ()
              | none =>
                let ok ← consult (checkHeader A cfg.committee cfg.hasWorker parent)
                if !ok ∨ parent.author ≠ h.author ∨ parent.height ≠ h.parentCert.height ∨
                    parent.id ≠ h.parentCert.headerDigest then fail ()
                else
                  processHeader ans n parent
                  let s ← get
                  if s.voted parent.height parent.author = some parent.id then
                    voteOnBranch cfg ans h
                  else pure ()

/-- Only a car from outside is checked for its age, and only then for its signature. -/
def sanitizeHeader (h : Header K D S) : Proc (Cars A) Unit Unit := do
  let s ← get
  if s.gcRound ≤ h.height then
    let ok ← consult (checkHeader A cfg.committee cfg.hasWorker h)
    if ok then pure () else fail ()
  else fail ()

/-- What the replica is woken by; a car from the waiter is one that was handed to it.  Other
messages only move the cache. -/
inductive CarEvent (K D S : Type)
  | received (h : Header K D S) (ans : Answers K D S)
  | own (h : Header K D S) (ans : Answers K D S)
  | loopback (i : ℕ) (ans : Answers K D S)
  | other (calls : List (Call K D S))
  | collect (round : ℕ)

/-- The own proposer computes the id of what it builds. -/
def CarEvent.handle : CarEvent K D S → Proc (Cars A) Unit Unit
  | received h ans => do
    sanitizeHeader cfg h
    processHeader cfg ans h.height h
  | own h ans => processHeader cfg ans h.height (h.new A)
  | loopback i ans => do
    let s ← get
    match s.waiting[i]? with
    | none => pure ()
    | some h => processHeader cfg ans h.height h
  | other calls => do
    let _ ← consult (runCalls A cfg.committee cfg.hasWorker calls)
    pure ()
  | collect round => modify (Cars.collect cfg round)

/-- The state after a sequence of events. -/
def Cars.after (es : List (CarEvent K D S)) : Cars A :=
  es.foldl (fun s e => ((e.handle cfg).run s).2) (Cars.start cfg)

end Model

/-! ### Runs in which no call goes too deep -/

section Fits

variable {K D S : Type} [LinearOrder K] [LinearOrder D] {A : Crypto K D S} (cfg : LaneRules K)

/-- The cars that a call goes down to: stored parents, one height below, without a vote. -/
inductive Cars.Descends (s : Cars A) : Header K D S → Header K D S → Prop
  | here (h : Header K D S) : Descends s h h
  | parent {h p q : Header K D S} : getParentHeader cfg.committee s.store h = some p →
      0 < p.height → p.height + 1 = h.height → s.voted p.height p.author = none →
      Descends s p q → Descends s h q

/-- A car of a height that has not been collected, with tickets that are adopted, and with a parent
that is not the default car unless it is the first. -/
structure Cars.Fit (s : Cars A) (ans : Answers K D S) (q : Header K D S) : Prop where
  kept : s.swept ≤ q.height
  tickets : ∀ slot ∈ ans.tickets q, slot ∈ s.committedSlots ∨ ans.committed slot = true
  parent : 1 < q.height → q.parentCert.headerDigest ≠ genesisDigest A q.author

/-- Every car that the call goes down to fits.  Of a received car this is asked only if it is not
too old, and then also that the cache does not take it for another one. -/
def CarEvent.Fits (s : Cars A) : CarEvent K D S → Prop
  | received h ans => s.gcRound ≤ h.height →
    (h.CachedIn A s.verified → h.digest A = h.id) ∧ ∀ q, s.Descends cfg h q → s.Fit ans q
  | own h ans => ∀ q, s.Descends cfg (h.new A) q → s.Fit ans q
  | loopback i ans => ∀ h ∈ s.waiting[i]?, ∀ q, s.Descends cfg h q → s.Fit ans q
  | other _ => True
  | collect _ => True

/-- The states of the runs whose events all have `Ok`. -/
inductive Cars.Reachable (Ok : Cars A → CarEvent K D S → Prop) : Cars A → Prop
  | start : Reachable Ok (Cars.start cfg)
  | step {s : Cars A} (e : CarEvent K D S) : Reachable Ok s → Ok s e →
      Reachable Ok ((e.handle cfg).run s).2

/-- Every car above the first of its lane comes after its parent. -/
def Linked : List (Header K D S) → Prop
  | [] => True
  | h :: rest => (1 < h.height → ∃ p ∈ rest, p.id = h.parentCert.headerDigest) ∧ Linked rest

/-- The vote table agrees with what was signed, above the collected rounds, and stored cars are
under their own names. -/
structure Cars.Sound (s : Cars A) : Prop where
  stored : ∀ {d p}, s.store.get d = some p → p.id = d ∧ 0 < p.height
  waiting : ∀ h ∈ s.waiting, h.digest A = h.id
  recorded : ∀ {height author d}, s.voted height author = some d →
    ∃ h ∈ s.signed, h.height = height ∧ h.author = author ∧ h.id = d
  standing : ∀ h ∈ s.signed, s.swept ≤ h.height → s.voted h.height h.author = some h.id
  once : ∀ h ∈ s.signed, ∀ h' ∈ s.signed, h.author = h'.author → h.height = h'.height → h.id = h'.id
  linked : Linked s.signed

end Fits

/-! ### One call -/

section Call

variable {K D S : Type} [LinearOrder K] [LinearOrder D] {A : Crypto K D S} {cfg : LaneRules K}
  {s : Cars A} {h p q : Header K D S} {ans : Answers K D S}

theorem Cars.voted_record (h : Header K D S) (s : Cars A) (height : ℕ) (author : K) :
    (s.record h).voted height author =
      if height = h.height ∧ author = h.author then some h.id else s.voted height author := by
  by_cases hh : height = h.height
  · subst hh
    by_cases ha : author = h.author
    · subst ha
      simp [voted, record]
    · cases hl : s.lastVoted.lookup h.height <;>
        simp [voted, record, ha, hl, AList.lookup_insert_ne, -AList.insert_empty]
  · simp [voted, record, hh, AList.lookup_insert_ne]

theorem getParentHeader_of_put {c : Committee K} {store : Store A}
    (hp : getParentHeader c (store.put h) q = some p) (hlt : p.height < h.height) :
    getParentHeader c store q = some p := by
  unfold getParentHeader at hp ⊢
  split_ifs at hp ⊢
  · exact hp
  · simp only [Store.put] at hp
    split at hp
    · obtain rfl := Option.some.inj hp
      omega
    · exact hp

/-- A parent other than the default car comes from the store. -/
theorem stored_of_getParentHeader {c : Committee K} {store : Store A}
    (hp : getParentHeader c store h = some p) (hpos : p.height ≠ 0) :
    store.get h.parentCert.headerDigest = some p := by
  unfold getParentHeader at hp
  split_ifs at hp
  · obtain rfl := Option.some.inj hp
    exact absurd rfl hpos
  · exact hp

theorem consult_bind {α β : Type} (check : StateM (Generations D) α) (f : α → Proc (Cars A) Unit β)
    (s : Cars A) : (consult check >>= f).run s =
      (f (check s.verified).1).run { s with verified := (check s.verified).2 } := rfl

theorem sanitizeHeader_snd (cfg : LaneRules K) (s : Cars A) (h : Header K D S) :
    ∃ g, ((sanitizeHeader cfg h).run s).2 = { s with verified := g } := by
  unfold sanitizeHeader
  rw [get_bind]
  split
  · rw [consult_bind]
    split <;> exact ⟨_, rfl⟩
  · exact ⟨s.verified, rfl⟩

theorem sanitizeHeader_ok {u : Unit} (hok : ((sanitizeHeader cfg h).run s).1 = .ok u) :
    s.gcRound ≤ h.height ∧
      (checkHeader A cfg.committee cfg.hasWorker h s.verified).1 = true := by
  unfold sanitizeHeader at hok
  rw [get_bind] at hok
  split at hok
  next hage =>
    rw [consult_bind] at hok
    split at hok
    next haccept => exact ⟨hage, haccept⟩
    next => cases hok
  next => cases hok

theorem Cars.Descends.of_cached {g : Generations D}
    (hd : ({ s with verified := g } : Cars A).Descends cfg h q) : s.Descends cfg h q := by
  induction hd with
  | here h => exact .here h
  | parent hr hpos hheight hvote _ ih => exact .parent hr hpos hheight hvote ih

theorem Cars.Descends.of_put (hd : (s.put h).Descends cfg p q) (hlt : p.height < h.height) :
    s.Descends cfg p q := by
  induction hd with
  | here p => exact .here p
  | parent hr hpos hheight hvote _ ih =>
    exact .parent (getParentHeader_of_put hr (by omega)) hpos hheight hvote (ih (by omega))

theorem Cars.Sound.put (hs : s.Sound) (hid : h.digest A = h.id) (hpos : 0 < h.height) :
    (s.put h).Sound where
  stored := by
    intro d p hp
    simp only [Cars.put, Store.put] at hp
    split at hp
    · next hd =>
      obtain rfl := Option.some.inj hp
      exact ⟨by rw [hd, hid], hpos⟩
    · exact hs.stored hp
  waiting := hs.waiting
  recorded := hs.recorded
  standing := hs.standing
  once := hs.once
  linked := hs.linked

theorem Cars.Sound.wait (hs : s.Sound) (hid : h.digest A = h.id) : (s.wait h).Sound where
  stored := hs.stored
  waiting := by
    intro x hx
    rcases List.mem_cons.mp hx with rfl | hx
    · exact hid
    · exact hs.waiting x hx
  recorded := hs.recorded
  standing := hs.standing
  once := hs.once
  linked := hs.linked

theorem Cars.Sound.cast (hs : s.Sound) (hfree : s.voted h.height h.author = none)
    (hkept : s.swept ≤ h.height)
    (hparent : 1 < h.height → ∃ p ∈ s.signed, p.id = h.parentCert.headerDigest) :
    ((s.record h).sign h).Sound := by
  have hvoted : ∀ height author, ((s.record h).sign h).voted height author =
      if height = h.height ∧ author = h.author then some h.id else s.voted height author :=
    fun height author => voted_record h s height author
  -- no earlier vote is for this lane and height, for it would still be in the table
  have hnew : ∀ x ∈ s.signed, x.author = h.author → x.height ≠ h.height := by
    intro x hx ha hh
    have := hs.standing x hx (hh ▸ hkept)
    rw [ha, hh, hfree] at this
    cases this
  refine ⟨hs.stored, hs.waiting, ?_, ?_, ?_, hparent, hs.linked⟩
  · intro height author d hd
    rw [hvoted] at hd
    split at hd
    · next heq => exact ⟨h, List.mem_cons_self, heq.1.symm, heq.2.symm, Option.some.inj hd⟩
    · obtain ⟨x, hx, hrest⟩ := hs.recorded hd
      exact ⟨x, List.mem_cons_of_mem h hx, hrest⟩
  · intro x hx hle
    rw [hvoted]
    rcases List.mem_cons.mp hx with rfl | hx
    · rw [if_pos ⟨rfl, rfl⟩]
    · rw [if_neg fun heq => hnew x hx heq.2 heq.1]
      exact hs.standing x hx hle
  · intro x hx y hy ha hh
    rcases List.mem_cons.mp hx with rfl | hx <;> rcases List.mem_cons.mp hy with rfl | hy
    · rfl
    · exact absurd hh.symm (hnew y hy ha.symm)
    · exact absurd hh (hnew x hx ha)
    · exact hs.once x hx y hy ha hh

theorem Cars.Sound.collect (hs : s.Sound) (round : ℕ) : (s.collect cfg round).Sound := by
  unfold Cars.collect
  split
  · have hvoted : ∀ height author,
        ({ s with
            lastVoted := Table.retain (fun height => decide (round - cfg.gcDepth ≤ height))
              s.lastVoted
            gcRound := round - cfg.gcDepth
            swept := max s.swept (round - cfg.gcDepth) } : Cars A).voted height author =
          if round - cfg.gcDepth ≤ height then s.voted height author else none := by
      intro height author
      simp only [voted, Table.lookup_retain, decide_eq_true_eq]
      split <;> rfl
    refine ⟨hs.stored, hs.waiting, ?_, ?_, hs.once, hs.linked⟩
    · intro height author d hd
      rw [hvoted] at hd
      split at hd
      · exact hs.recorded hd
      · cases hd
    · intro x hx hle
      rw [hvoted, if_pos (le_trans (le_max_right _ _) hle)]
      exact hs.standing x hx (le_trans (le_max_left _ _) hle)
  · exact hs

theorem Cars.Sound.commits (hs : s.Sound) (slots : Finset ℕ) :
    ({ s with committedSlots := slots } : Cars A).Sound :=
  { hs with }

theorem Cars.Sound.cached (hs : s.Sound) (g : Generations D) :
    ({ s with verified := g } : Cars A).Sound :=
  { hs with }

theorem adoptTickets_run {slots : List ℕ}
    (hslots : ∀ slot ∈ slots, slot ∈ s.committedSlots ∨ ans.committed slot = true) :
    ∃ committed, s.committedSlots ⊆ committed ∧
      (adoptTickets ans slots).run s = (.ok (), { s with committedSlots := committed }) := by
  induction slots generalizing s with
  | nil => exact ⟨s.committedSlots, subset_rfl, rfl⟩
  | cons slot slots ih =>
    have hrest : ∀ x ∈ slots, x ∈ s.committedSlots ∨ ans.committed x = true :=
      fun x hx => hslots x (List.mem_cons_of_mem slot hx)
    by_cases hslot : slot ∈ s.committedSlots
    · obtain ⟨committed, hsub, hrun⟩ := ih hrest
      refine ⟨committed, hsub, hrun ▸ bind_ok (a := ()) ?_⟩
      rw [get_bind, if_pos hslot]
      rfl
    · have hok := (hslots slot List.mem_cons_self).resolve_left hslot
      obtain ⟨committed, hsub, hrun⟩ := ih (s := s.commit slot) fun x hx =>
        (hrest x hx).imp_left Finset.mem_insert_of_mem
      refine ⟨committed, (Finset.subset_insert _ _).trans hsub,
        hrun ▸ bind_ok (a := ()) ?_⟩
      rw [get_bind, if_neg hslot, modify_bind, if_pos hok]
      rfl

/-- Sound, with the collected rounds of another state and its committed slots. -/
def Cars.SoundLike (s₀ s : Cars A) : Prop :=
  s.Sound ∧ s.swept = s₀.swept ∧ s₀.committedSlots ⊆ s.committedSlots

theorem Cars.SoundLike.cached {s₀ : Cars A} (hs : s₀.SoundLike s) (g : Generations D) :
    s₀.SoundLike { s with verified := g } :=
  ⟨hs.1.cached g, hs.2⟩

theorem recordCarVote_soundLike {s₀ : Cars A} (hs : s₀.SoundLike s) (hfit : s₀.Fit ans h)
    (hparent : 1 < h.height → ∃ p ∈ s.signed, p.id = h.parentCert.headerDigest) :
    s₀.SoundLike ((recordCarVote ans h).run s).2 := by
  have hs' := hs
  obtain ⟨hsound, hswept, hslots⟩ := hs
  unfold recordCarVote
  rw [get_bind]
  split
  · exact hs'
  · next hfree =>
    have htickets : ∀ slot ∈ ans.tickets h,
        slot ∈ (s.record h).committedSlots ∨ ans.committed slot = true :=
      fun slot hslot => (hfit.tickets slot hslot).imp_left (@hslots slot)
    obtain ⟨committed, hsub, hrun⟩ := adoptTickets_run htickets
    rw [modify_bind, bind_ok hrun]
    have hcast := (hsound.commits committed).cast (h := h)
      (show s.voted h.height h.author = none by simpa using hfree) (hswept ▸ hfit.kept) hparent
    exact ⟨hcast, hswept, hslots.trans hsub⟩

theorem voteOnBranch_soundLike {s₀ : Cars A} (hs : s₀.SoundLike s) (hfit : s₀.Fit ans h)
    (hparent : 1 < h.height → ∃ p ∈ s.signed, p.id = h.parentCert.headerDigest) :
    s₀.SoundLike ((voteOnBranch cfg ans h).run s).2 := by
  unfold voteOnBranch
  rw [consult_bind]
  split
  · exact recordCarVote_soundLike (hs.cached _) hfit hparent
  · exact hs.cached _

theorem processHeader_soundLike {s₀ : Cars A} (n : ℕ) (hn : h.height = n)
    (hid : h.digest A = h.id) (hs : s₀.SoundLike s)
    (hfit : ∀ q, s.Descends cfg h q → s₀.Fit ans q) :
    s₀.SoundLike ((processHeader cfg ans n h).run s).2 := by
  induction n generalizing h s with
  | zero => exact hs
  | succ n ih =>
    have hfits := hfit h (.here h)
    unfold processHeader
    rw [get_bind]
    split
    · exact hs
    rw [consult_bind]
    generalize (checkCertificate A cfg.committee h.parentCert s.verified).1 = poa
    -- the cache plays no further role, since an accepted parent comes from the store
    replace hfit := fun q hq => hfit q (Cars.Descends.of_cached
      (g := (checkCertificate A cfg.committee h.parentCert s.verified).2) hq)
    replace hs := hs.cached (checkCertificate A cfg.committee h.parentCert s.verified).2
    generalize ({ s with
      verified := (checkCertificate A cfg.committee h.parentCert s.verified).2 } : Cars A) = s
      at hs hfit ⊢
    split
    · exact hs
    next hshape =>
    simp only [not_or, not_not] at hshape
    cases ans.missingPayload h with
    | none => exact hs
    | some missing =>
    cases missing with
    | true => exact ⟨hs.1.wait hid, hs.2⟩
    | false =>
    have hput : s₀.SoundLike (s.put h) := ⟨hs.1.put hid (by omega), hs.2⟩
    simp only [modify_bind, get_bind]
    cases hp : getParentHeader cfg.committee (s.put h).store h with
    | none => exact ⟨hput.1.wait hid, hput.2⟩
    | some parent =>
    -- a parent other than the default car is stored under its own name
    have hstored : 1 < h.height → parent.id = h.parentCert.headerDigest ∧ 0 < parent.height := by
      intro hlt
      unfold getParentHeader at hp
      rw [if_neg (hfits.parent hlt)] at hp
      split at hp
      · cases hp
      · exact hput.1.stored hp
    have hvote : ∀ t : Cars A, s₀.SoundLike t →
        (1 < h.height → t.voted parent.height parent.author = some parent.id) →
        s₀.SoundLike ((voteOnBranch cfg ans h).run t).2 := by
      refine fun t ht hv => voteOnBranch_soundLike ht hfits fun hlt => ?_
      obtain ⟨x, hx, -, -, hxid⟩ := ht.1.recorded (hv hlt)
      exact ⟨x, hx, hxid.trans (hstored hlt).1⟩
    dsimp only
    split
    · next hzero => exact hvote _ hput fun hlt => absurd hzero (hstored hlt).2.ne'
    next hnonzero =>
    cases hv : (s.put h).voted parent.height parent.author with
    | some d =>
      dsimp only
      split
      · next hd => exact hvote _ hput fun _ => hd ▸ hv
      · exact hput
    | none =>
      dsimp only
      rw [consult_bind]
      have hchecked := hput.cached
        (checkHeader A cfg.committee cfg.hasWorker parent (s.put h).verified).2
      split
      · exact hchecked
      next hcheck =>
      simp only [not_or, not_not] at hcheck
      obtain ⟨-, -, hheight, -⟩ := hcheck
      have hget := stored_of_getParentHeader hp hnonzero
      have hpid : parent.digest A = parent.id :=
        ((s.put h).store.digest_eq hget).trans (hput.1.stored hget).1.symm
      have hdown : ∀ q, (s.put h).Descends cfg parent q → s.Descends cfg h q := fun q hq =>
        .parent (getParentHeader_of_put hp (by omega)) (by omega) (by omega) hv
          (hq.of_put (by omega))
      have hrec := ih (h := parent) (by omega) hpid hchecked
        fun q hq => hfit q (hdown q hq.of_cached)
      refine bind_snd hrec fun _ _ => ?_
      rw [get_bind]
      split
      · next hv' => exact hvote _ hrec fun _ => hv'
      · exact hrec

end Call

/-! ### Runs -/

section Runs

variable {K D S : Type} [LinearOrder K] [LinearOrder D] {A : Crypto K D S} {cfg : LaneRules K}
  {s : Cars A}

theorem Cars.sound_start : (Cars.start cfg : Cars A).Sound :=
  ⟨by simp [start, Store.empty], by simp [start], by simp [start, voted], by simp [start],
    by simp [start], trivial⟩

theorem CarEvent.handle_sound {e : CarEvent K D S} (hs : s.Sound) (hfits : e.Fits cfg s) :
    ((e.handle cfg).run s).2.Sound := by
  have hlike : s.SoundLike s := ⟨hs, rfl, subset_rfl⟩
  cases e with
  | received h ans =>
    obtain ⟨g, hg⟩ := sanitizeHeader_snd cfg s h
    refine bind_snd (hg ▸ hs.cached g) fun _ hok => ?_
    obtain ⟨hage, haccept⟩ := sanitizeHeader_ok hok
    obtain ⟨hcached, hfits⟩ := hfits hage
    rw [hg]
    exact (processHeader_soundLike _ rfl (digest_of_checkHeader hcached haccept)
      (hlike.cached g) fun q hq => hfits q hq.of_cached).1
  | own h ans => exact (processHeader_soundLike _ rfl rfl hlike hfits).1
  | other calls => exact hs.cached _
  | loopback i ans =>
    simp only [handle, get_bind]
    cases hi : s.waiting[i]? with
    | none => exact hs
    | some h =>
      exact (processHeader_soundLike _ rfl (hs.waiting h (List.mem_of_getElem? hi)) hlike
        (hfits h hi)).1
  | collect round => exact hs.collect round

theorem Cars.Reachable.sound (hs : Cars.Reachable cfg (fun s e => e.Fits cfg s) s) : s.Sound := by
  induction hs with
  | start => exact sound_start
  | step e _ hfits ih => exact e.handle_sound ih hfits

/-- **Car votes follow one branch.**  While no call goes below a collected round, a lane and height
get a vote for one digest only, and a car above the first gets it after its parent. -/
theorem car_votes_follow_one_branch (hs : Cars.Reachable cfg (fun s e => e.Fits cfg s) s) :
    (∀ h ∈ s.signed, ∀ h' ∈ s.signed, h.author = h'.author → h.height = h'.height → h.id = h'.id) ∧
      ∀ later h earlier, s.signed = later ++ h :: earlier → 1 < h.height →
        ∃ p ∈ earlier, p.id = h.parentCert.headerDigest := by
  refine ⟨hs.sound.once, fun later h earlier heq => ?_⟩
  have hlinked := heq ▸ hs.sound.linked
  clear heq
  induction later with
  | nil => exact hlinked.1
  | cons x later ih => exact ih hlinked.2

end Runs

/-! ### Runs on a lane of three cars -/

section Lane

theorem Cars.Descends.eq_or_lt {K D S : Type} [LinearOrder K] [LinearOrder D] {A : Crypto K D S}
    {cfg : LaneRules K} {s : Cars A} {h q : Header K D S} (hd : s.Descends cfg h q) :
    q = h ∨ q.height < h.height := by
  induction hd with
  | here => exact .inl rfl
  | parent _ _ hheight _ _ ih =>
    rcases ih with rfl | hlt
    · exact .inr (by omega)
    · exact .inr (by omega)

/-- Nothing is missing and no tickets ride along. -/
def Answers.plain : Answers (Fin 4) ℕ (Fin 4) :=
  ⟨fun _ => some false, fun _ => true, fun _ => [], fun _ => [], fun _ => true⟩

/-- The tips cannot be updated. -/
def Answers.refusing : Answers (Fin 4) ℕ (Fin 4) :=
  { Answers.plain with tipsUpdated := fun _ => false }

/-- Votes are kept for one round. -/
def shallow : LaneRules (Fin 4) := ⟨four, fun _ _ => true, 1⟩

/-- The first car is stored without a vote and gets it with the second one; then votes are collected
and the third car arrives. -/
def threeCars : List (CarEvent (Fin 4) ℕ (Fin 4)) :=
  [.received (firstCar []) .refusing, .received (secondCar []) .plain, .collect 2,
    .received thirdCar .plain]

theorem threeCars_reachable : Cars.Reachable shallow (fun s e => e.Fits shallow s)
    (Cars.after shallow threeCars : Cars .named) := by
  have hnone : ∀ (s : Cars .named) (q : Header (Fin 4) ℕ (Fin 4)), ∀ slot ∈ Answers.plain.tickets q,
      slot ∈ s.committedSlots ∨ Answers.plain.committed slot = true := by
    simp [Answers.plain]
  refine .step (.received thirdCar .plain) (.step (.collect 2) (.step (.received (secondCar [])
    .plain) (.step (.received (firstCar []) .refusing) .start ?_) ?_) trivial) ?_
  · refine fun _ => ⟨fun _ => rfl, fun q hq => ⟨Nat.zero_le _, hnone _ q, fun hlt => ?_⟩⟩
    rcases hq.eq_or_lt with rfl | hq
    · exact absurd hlt (by decide +kernel)
    · exact absurd (hlt.trans hq) (by decide +kernel)
  · refine fun _ => ⟨fun _ => rfl, fun q hq => ⟨Nat.zero_le _, hnone _ q, fun hlt => ?_⟩⟩
    rcases hq.eq_or_lt with rfl | hq
    · decide +kernel
    · exact absurd hlt (Nat.not_lt.mpr (Nat.lt_succ_iff.mp hq))
  · refine fun _ => ⟨fun _ => rfl, fun q hq => ?_⟩
    cases hq with
    | here => exact ⟨by decide +kernel, hnone _ _, fun _ => by decide +kernel⟩
    | @parent _ p _ hp _ _ hvote _ =>
      -- the parent of the third car has its vote, so the call goes no further down
      have hcoord : (getParentHeader four (Cars.after shallow (threeCars.take 3) :
          Cars .named).store thirdCar).map (fun p => (p.height, p.author)) = some (2, 1) := by
        decide +kernel
      have hvoted : ((Cars.after shallow (threeCars.take 3) : Cars .named).voted 2 1).isSome := by
        decide +kernel
      have hp : getParentHeader four (Cars.after shallow (threeCars.take 3) : Cars .named).store
          thirdCar = some p := hp
      have hvote : (Cars.after shallow (threeCars.take 3) : Cars .named).voted p.height p.author =
          none := hvote
      rw [hp] at hcoord
      obtain ⟨hheight, hauthor⟩ := Prod.mk.inj (Option.some.inj hcoord)
      rw [hheight, hauthor] at hvote
      rw [hvote] at hvoted
      cases hvoted

theorem car_votes_follow_one_branch_threeCars :
    (Cars.after shallow threeCars : Cars .named).signed.map (·.height) = [3, 2, 1] ∧
      ∀ later h earlier, (Cars.after shallow threeCars : Cars .named).signed =
        later ++ h :: earlier → 1 < h.height → ∃ p ∈ earlier, p.id = h.parentCert.headerDigest :=
  ⟨by decide +kernel, (car_votes_follow_one_branch threeCars_reachable).2⟩

/-- The second of two first cars is stored without a vote.  After collection the vote for the first
is forgotten, and a call for a car of height 2 goes down to the other one and votes for it. -/
theorem collected_height_voted_twice : Crypto.named.CollisionFree ∧
    ∃ h ∈ (Cars.after shallow [.received (firstCar []) .plain, .received (firstCar [(7, 0)]) .plain,
        .collect 3, .received (secondCar [(7, 0)]) .plain] : Cars .named).signed,
      ∃ h' ∈ (Cars.after shallow [.received (firstCar []) .plain,
        .received (firstCar [(7, 0)]) .plain, .collect 3,
        .received (secondCar [(7, 0)]) .plain] : Cars .named).signed,
      h.author = h'.author ∧ h.height = h'.height ∧ h.id ≠ h'.id :=
  ⟨Crypto.named_collisionFree, by decide +kernel⟩

/-- The first car, altered to stand at height 2 on top of the original. -/
def raisedCar : Header (Fin 4) ℕ (Fin 4) :=
  { firstCar [] with
    height := 2
    parentCert := ⟨1, (firstCar []).id, 1, [(1, 1), (2, 2)]⟩ }

-- a car on top of an altered one is signed although nothing of its parent's name was
example : (Cars.after shallow [.received (firstCar []) .plain, .received raisedCar .plain,
      .received (laneCar 1 3 [] (raisedCar.digest .named) [1, 2]) .plain] :
        Cars .named).signed.map (·.height) = [3, 2, 1] ∧
    ∀ p ∈ (Cars.after shallow [.received (firstCar []) .plain, .received raisedCar .plain,
      .received (laneCar 1 3 [] (raisedCar.digest .named) [1, 2]) .plain] : Cars .named).signed,
      p.id ≠ raisedCar.digest .named := by
  decide +kernel

end Lane

end Vantage.Autobahn
