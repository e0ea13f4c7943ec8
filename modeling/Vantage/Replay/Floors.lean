import Vantage.Lib.Table
import Vantage.Replay.Outbox

/-!
# Floors of dropped broadcasts

Broadcasts are recorded in the outbox and handed to a transport that may drop them.  The transport
reports a drop by lowering the entry of the peer's address in a shared map; the node sweeps the
map into one floor for each peer, and serves a peer that asks from the lower of its own hint and
that floor on.  A served peer's floor is raised to the end of the page, or removed.

* `ReplayFloors.step`: the events of the node and of the transport, in any order; the hint of a
  peer, the budget, the marker of a live stream and the admission of a stream are inputs;
* `Owes`: the entry of the map or the floor of the peer is low enough for a key;
* `Owed`: a recorded message is owed, or has left the outbox for good;
* `owed_step`: only a stream that contains the message ends this.
-/

namespace Vantage

/-- Where the peers are reached. The addresses of the committee are distinct, so each one leads
back to its peer. -/
structure PeerAddresses (P Addr : Type) where
  addr : P → Addr
  addrToPeer : Addr → Option P
  known : ∀ p, addrToPeer (addr p) = some p

/-- The outbox with the floors of what may be missing at the peers. -/
structure ReplayFloors (P Addr : Type) {M : Type} (len : M → ℕ) where
  outbox : Outbox len
  watermark : ℕ
  dirtyMap : Table Addr ℕ
  pendingLow : Table P ℕ

/-- A peer asks for a replay; what the node finds when it answers. -/
structure ResumeHello (P : Type) where
  peer : P
  floor : ℕ
  inFlight : Bool
  remaining : ℕ
  enqueued : Bool

/-- A stream that was admitted, with the fields of its closing frame. -/
structure ReplayStream (M : Type) where
  msgs : List M
  endKey : ℕ
  complete : Bool
  clamped : Bool

/-- What a node does about replays. -/
inductive ReplayEvent (P M : Type)
  | raiseWatermark (view : ℕ)
  | broadcastRecorded (m : M)
  | drop (peer : P) (key : ℕ)
  | sweepDirtyMap
  | serve (hello : ResumeHello P)
  | collectGarbage

def lowerTo {α : Type} [DecidableEq α] (t : Table α ℕ) (a : α) (key : ℕ) : Table α ℕ :=
  t.insert a ((t.lookup a).elim key (min · key))

namespace ReplayFloors

variable {P Addr M : Type} [DecidableEq P] [DecidableEq Addr] {len : M → ℕ}

def init (maxBytes : ℕ) : ReplayFloors P Addr len := ⟨.new maxBytes, 2, ∅, ∅⟩

variable (peers : PeerAddresses P Addr) (replayHistoryViews : ℕ) (s : ReplayFloors P Addr len)

def sweepEntry (t : Table P ℕ) (e : Addr × ℕ) : Table P ℕ :=
  (peers.addrToPeer e.1).elim t fun p => lowerTo t p e.2

def sweepDirtyMap : ReplayFloors P Addr len :=
  { s with
    dirtyMap := ∅
    pendingLow := (Table.pairs s.dirtyMap).foldl (sweepEntry peers) s.pendingLow }

/-- The lower of the hint and the floor of the peer. -/
def rawFrom (hello : ResumeHello P) : ℕ :=
  (s.pendingLow.lookup hello.peer).elim hello.floor (min hello.floor)

def servedFrom (hello : ResumeHello P) : ℕ := max (s.rawFrom hello) s.outbox.floor

/-- What follows the sweep in the answer to a hello. -/
def serve (hello : ResumeHello P) : ReplayFloors P Addr len × Option (ReplayStream M) :=
  if hello.inFlight then (s, none)
  else if hello.remaining = 0 ∧ s.outbox.sliceFrom (s.servedFrom hello) ≠ [] then (s, none)
  else
    let (msgs, endKey, complete) :=
      s.outbox.takeBudgetedSlice (s.servedFrom hello) hello.remaining
    if hello.enqueued = false then (s, none)
    else
      ({ s with
          pendingLow :=
            if complete then s.pendingLow.erase hello.peer
            else
              s.pendingLow.insert hello.peer
                ((s.pendingLow.lookup hello.peer).elim endKey (max · endKey)) },
        some ⟨msgs, endKey, complete, decide (s.rawFrom hello < s.servedFrom hello)⟩)

/-- Discard old views, and raise the floors that lie below what is left. -/
def collectGarbage : ReplayFloors P Addr len :=
  let outboxFloor := max (s.watermark - replayHistoryViews) 1
  { s with
    outbox := s.outbox.pruneBelow outboxFloor
    pendingLow := Table.filterMap
      (fun _ low => some (if low < outboxFloor then outboxFloor else low)) s.pendingLow }

def step : ReplayEvent P M → ReplayFloors P Addr len
  | .raiseWatermark view => { s with watermark := max s.watermark view }
  | .broadcastRecorded m => { s with outbox := s.outbox.record s.watermark m }
  | .drop peer key => { s with dirtyMap := lowerTo s.dirtyMap (peers.addr peer) key }
  | .sweepDirtyMap => s.sweepDirtyMap peers
  | .serve hello => (s.serve hello).1
  | .collectGarbage => s.collectGarbage replayHistoryViews

def run (events : List (ReplayEvent P M)) : ReplayFloors P Addr len :=
  events.foldl (step peers replayHistoryViews) s

def recordedBy : ReplayEvent P M → List (ℕ × M)
  | .broadcastRecorded m => [(s.watermark, m)]
  | _ => []

def recorded : ReplayFloors P Addr len → List (ReplayEvent P M) → List (ℕ × M)
  | _, [] => []
  | s, e :: events => s.recordedBy e ++ recorded (s.step peers replayHistoryViews e) events

variable {peers replayHistoryViews s}

/-! ### The outbox along a run -/

/-- The outbox holds the recorded messages from its floor on, and neither a key nor the floor lies
above the watermark. -/
structure Sound (s : ReplayFloors P Addr len) (history : List (ℕ × M)) : Prop where
  outbox : s.outbox.Sound history
  history : ∀ e ∈ history, e.1 ≤ s.watermark
  floor : s.outbox.floor ≤ s.watermark
  watermark : 1 ≤ s.watermark

variable {history : List (ℕ × M)}

omit [DecidableEq P] [DecidableEq Addr] in
theorem sound_init (maxBytes : ℕ) : (init maxBytes : ReplayFloors P Addr len).Sound [] where
  outbox := Outbox.sound_new maxBytes
  history e he := by cases he
  floor := Nat.zero_le _
  watermark := Nat.le_succ 1

theorem evict_floor_le {maxBytes bound : ℕ} {views : List (ViewGroup M)} {totalBytes floor : ℕ}
    (hs : Increasing views) (hb : ∀ g ∈ views, g.1 ≤ bound) (hf : floor ≤ bound) :
    (Outbox.evict len maxBytes views totalBytes floor).2.2 ≤ bound := by
  induction views generalizing totalBytes floor with
  | nil => exact hf
  | cons oldest views ih =>
    cases views with
    | nil => exact hf
    | cons next views =>
      obtain ⟨hlt, hrest⟩ := List.pairwise_cons.mp hs
      unfold Outbox.evict
      split
      · have hnext := hb next (by simp)
        have hold := hlt next (by simp)
        refine ih hrest (fun g hg => hb g (List.mem_cons_of_mem _ hg)) ?_
        omega
      · exact hf

theorem record_floor_le {o : Outbox len} {key : ℕ} {m : M} (hlast : ∀ g ∈ o.views, g.1 ≤ key)
    (hfloor : o.floor ≤ key) : (o.record key m).floor ≤ key := by
  refine evict_floor_le o.increasing.pushAt (fun g hg => ?_) hfloor
  rcases mem_keys_pushAt hg with h | ⟨g', hg', h⟩
  · exact h.le
  · exact h ▸ hlast g' hg'

theorem floor_pruneBelow (o : Outbox len) (floor : ℕ) :
    (o.pruneBelow floor).floor = max o.floor floor := by
  unfold Outbox.pruneBelow
  split
  · next h => exact (max_eq_left h).symm
  · next h => exact (max_eq_right (Nat.le_of_not_le h)).symm

omit [DecidableEq Addr] in
theorem serve_outbox (s : ReplayFloors P Addr len) (hello : ResumeHello P) :
    (s.serve hello).1.outbox = s.outbox ∧ (s.serve hello).1.watermark = s.watermark ∧
      (s.serve hello).1.dirtyMap = s.dirtyMap := by
  unfold serve
  split
  · exact ⟨rfl, rfl, rfl⟩
  · split
    · exact ⟨rfl, rfl, rfl⟩
    · simp only
      split <;> exact ⟨rfl, rfl, rfl⟩

theorem Sound.step (hs : s.Sound history) (e : ReplayEvent P M) :
    (s.step peers replayHistoryViews e).Sound (history ++ s.recordedBy e) := by
  cases e with
  | broadcastRecorded m =>
    have hlast := hs.outbox.key_le hs.history
    refine ⟨hs.outbox.record hlast hs.floor, fun e he => ?_, record_floor_le hlast hs.floor,
      hs.watermark⟩
    rcases List.mem_append.mp he with he | he
    · exact hs.history e he
    · rw [List.mem_singleton.mp he]
      exact le_rfl
  | raiseWatermark view =>
    simp only [recordedBy, List.append_nil]
    exact ⟨hs.outbox, fun e he => (hs.history e he).trans (le_max_left _ _),
      hs.floor.trans (le_max_left _ _), hs.watermark.trans (le_max_left _ _)⟩
  | drop peer key => simpa only [recordedBy, List.append_nil] using ⟨hs.1, hs.2, hs.3, hs.4⟩
  | sweepDirtyMap => simpa only [recordedBy, List.append_nil] using ⟨hs.1, hs.2, hs.3, hs.4⟩
  | serve hello =>
    obtain ⟨ho, hw, -⟩ := s.serve_outbox hello
    simp only [recordedBy, List.append_nil]
    exact ⟨ho ▸ hs.1, fun e he => hw ▸ hs.2 e he, ho ▸ hw ▸ hs.3, hw ▸ hs.4⟩
  | collectGarbage =>
    simp only [recordedBy, List.append_nil]
    refine ⟨hs.outbox.pruneBelow _, hs.history, ?_, hs.watermark⟩
    have h₁ := hs.floor
    have h₂ := hs.watermark
    simp only [ReplayFloors.step, ReplayFloors.collectGarbage, floor_pruneBelow]
    omega

theorem Sound.run (hs : s.Sound history) (events : List (ReplayEvent P M)) :
    (run peers replayHistoryViews s events).Sound
      (history ++ recorded peers replayHistoryViews s events) := by
  induction events generalizing s history with
  | nil => rwa [recorded, List.append_nil]
  | cons e events ih =>
    rw [recorded, ← List.append_assoc]
    exact ih (hs.step e)

/-! ### What is owed -/

section Low

variable {α : Type} [DecidableEq α]

/-- The entry is low enough for a key. -/
def Low (t : Table α ℕ) (a : α) (key : ℕ) : Prop := ∃ low, t.lookup a = some low ∧ low ≤ key

theorem low_lowerTo_self {t : Table α ℕ} {a : α} {low key : ℕ} (h : low ≤ key) :
    Low (lowerTo t a low) a key := by
  refine ⟨_, AList.lookup_insert _, ?_⟩
  cases t.lookup a with
  | none => exact h
  | some old => exact (min_le_right _ _).trans h

theorem Low.lowerTo {t : Table α ℕ} {a : α} {key : ℕ} (h : Low t a key) (b : α) (low : ℕ) :
    Low (lowerTo t b low) a key := by
  obtain ⟨old, hold, hle⟩ := h
  by_cases hab : a = b
  · subst hab
    exact ⟨_, AList.lookup_insert _, by rw [hold]; exact (min_le_left _ _).trans hle⟩
  · exact ⟨old, by rw [Vantage.lowerTo, AList.lookup_insert_ne hab, hold], hle⟩

end Low

omit [DecidableEq Addr] in
theorem Low.sweep {t : Table P ℕ} {p : P} {key : ℕ} (h : Low t p key) (l : List (Addr × ℕ)) :
    Low (l.foldl (sweepEntry peers) t) p key := by
  induction l generalizing t with
  | nil => exact h
  | cons e l ih =>
    refine ih ?_
    unfold sweepEntry
    cases peers.addrToPeer e.1 with
    | none => exact h
    | some q => exact h.lowerTo q e.2

omit [DecidableEq Addr] in
theorem low_sweep_of_mem {t : Table P ℕ} {p : P} {low key : ℕ} {l : List (Addr × ℕ)}
    (hmem : (peers.addr p, low) ∈ l) (h : low ≤ key) :
    Low (l.foldl (sweepEntry peers) t) p key := by
  induction l generalizing t with
  | nil => cases hmem
  | cons e l ih =>
    rcases List.mem_cons.mp hmem with rfl | hmem
    · refine Low.sweep (?_ : Low (sweepEntry peers t _) p key) l
      rw [sweepEntry, peers.known]
      exact low_lowerTo_self h
    · exact ih hmem

/-- The transport's report or the floor of the peer lies at or below the key. -/
def Owes (peers : PeerAddresses P Addr) (s : ReplayFloors P Addr len) (p : P) (key : ℕ) : Prop :=
  Low s.dirtyMap (peers.addr p) key ∨ Low s.pendingLow p key

/-- A message with this key is owed, or its key has left the outbox. -/
def Owed (peers : PeerAddresses P Addr) (s : ReplayFloors P Addr len) (p : P) (key : ℕ) : Prop :=
  s.outbox.floor ≤ key → s.Owes peers p key

/-- The message is in the views of the outbox, the first ones of the slice asked for, of which a
serve makes its stream. -/
def Carries (s : ReplayFloors P Addr len) (hello : ResumeHello P) (e : ℕ × M) : Prop :=
  ∃ (stream : ReplayStream M) (views : List (ViewGroup M)),
    (s.serve hello).2 = some stream ∧ views <+: s.outbox.sliceFrom (s.servedFrom hello) ∧
      stream.msgs = Outbox.messages views ∧ e ∈ entries views

theorem mem_entries_sliceFrom {o : Outbox len} {start : ℕ} {e : ℕ × M} :
    e ∈ entries (o.sliceFrom start) ↔ e ∈ entries o.views ∧ start ≤ e.1 := by
  rw [Outbox.sliceFrom, entries_filter (fun key => decide (start ≤ key)), List.mem_filter,
    decide_eq_true_eq]

theorem mem_page_or_endOf_le {o : Outbox len} {start : ℕ} {taken rest : List (ViewGroup M)}
    (h : o.sliceFrom start = taken ++ rest) {e : ℕ × M} (he : e ∈ entries o.views)
    (hstart : start ≤ e.1) : e ∈ entries taken ∨ rest ≠ [] ∧ Outbox.endOf start taken ≤ e.1 := by
  have hmem := mem_entries_sliceFrom.mpr ⟨he, hstart⟩
  rw [h, entries, List.flatMap_append, List.mem_append] at hmem
  refine hmem.imp_right fun hrest => ⟨fun hnil => ?_, ?_⟩
  · rw [hnil] at hrest
    cases hrest
  · by_cases hne : taken = []
    · subst hne
      exact hstart
    · rw [← Outbox.sliceFrom_endOf h hne] at hrest
      exact (mem_entries_sliceFrom.mp hrest).2

theorem owed_serve (hs : s.Sound history) {p : P} {e : ℕ × M} (he : e ∈ history)
    (h : s.Owed peers p e.1) (hello : ResumeHello P)
    (hc : hello.peer = p → ¬ s.Carries hello e) : (s.serve hello).1.Owed peers p e.1 := by
  intro hfloor
  obtain ⟨ho, -, hd⟩ := s.serve_outbox hello
  rw [ho] at hfloor
  refine (h hfloor).imp (fun hlow => hd ▸ hlow) fun hlow => ?_
  have hmem : e ∈ entries s.outbox.views := by
    rw [hs.outbox.kept]
    exact List.mem_filter.mpr ⟨he, decide_eq_true hfloor⟩
  -- the floor only matters for the peer that is served
  by_cases hp : hello.peer = p
  swap
  · obtain ⟨low, hl, hle⟩ := hlow
    refine ⟨low, ?_, hle⟩
    unfold serve
    split
    · exact hl
    · split
      · exact hl
      · simp only
        split
        · exact hl
        · simp only
          split
          · rw [AList.lookup_erase_ne (Ne.symm hp), hl]
          · rw [AList.lookup_insert_ne (Ne.symm hp), hl]
  subst hp
  have hc := hc rfl
  obtain ⟨low, hl, hle⟩ := hlow
  have hstart : s.servedFrom hello ≤ e.1 := by
    refine max_le ?_ hfloor
    rw [rawFrom, hl]
    exact (min_le_right _ _).trans hle
  obtain ⟨taken, rest, hsplit, htake, -⟩ :=
    Outbox.takeBudgetedSlice_spec hs.outbox.groups (s.servedFrom hello) hello.remaining
  unfold Carries at hc
  unfold serve at hc ⊢
  split at hc
  · next hb => rw [if_pos hb]; exact ⟨low, hl, hle⟩
  · next hb =>
    rw [if_neg hb]
    split at hc
    · next hg => rw [if_pos hg]; exact ⟨low, hl, hle⟩
    · next hg =>
      rw [if_neg hg]
      simp only [htake] at hc ⊢
      split at hc
      · next hq => rw [if_pos hq]; exact ⟨low, hl, hle⟩
      · next hq =>
        rw [if_neg hq]
        rcases mem_page_or_endOf_le hsplit hmem hstart with hin | ⟨hrest, hend⟩
        · exact absurd ⟨_, taken, rfl, ⟨rest, hsplit.symm⟩, rfl, hin⟩ hc
        · have hcomplete : rest.isEmpty = false := by simpa using hrest
          refine ⟨max low (Outbox.endOf (s.servedFrom hello) taken), ?_, max_le hle hend⟩
          simp [hcomplete, hl]

theorem owed_step (hs : s.Sound history) {p : P} {e : ℕ × M} (he : e ∈ history)
    (h : s.Owed peers p e.1) (event : ReplayEvent P M)
    (hc : ∀ hello, event = .serve hello → hello.peer = p → ¬ s.Carries hello e) :
    (s.step peers replayHistoryViews event).Owed peers p e.1 := by
  cases event with
  | raiseWatermark view => exact h
  | broadcastRecorded m =>
    -- a record can only raise the floor
    intro hfloor
    refine h (le_trans ?_ hfloor)
    have hkeys : ∀ g ∈ pushAt s.watermark m s.outbox.views, s.outbox.floor ≤ g.1 := by
      intro g hg
      rcases mem_keys_pushAt hg with hg | ⟨g', hg', hg⟩
      · exact hg ▸ hs.floor
      · exact hg ▸ hs.outbox.floor g' hg'
    exact (Outbox.evicted s.outbox.increasing.pushAt (by
      rw [viewBytes_pushAt, hs.outbox.total]) hkeys).floor_le
  | drop peer key => exact fun hfloor => (h hfloor).imp_left fun hlow => hlow.lowerTo _ _
  | sweepDirtyMap =>
    refine fun hfloor => .inr ?_
    rcases h hfloor with ⟨low, hl, hle⟩ | hlow
    · exact low_sweep_of_mem (((Table.enumerates_pairs _).mem _ _).mpr hl) hle
    · exact hlow.sweep _
  | serve hello => exact owed_serve hs he h hello (hc hello rfl)
  | collectGarbage =>
    intro hfloor
    have hfloor : max s.outbox.floor (max (s.watermark - replayHistoryViews) 1) ≤ e.1 := by
      rw [← floor_pruneBelow]
      exact hfloor
    refine (h ((le_max_left _ _).trans hfloor)).imp_right ?_
    rintro ⟨low, hl, hle⟩
    let floor := max (s.watermark - replayHistoryViews) 1
    refine ⟨if low < floor then floor else low, ?_, ?_⟩
    · rw [ReplayFloors.step, ReplayFloors.collectGarbage, Table.lookup_filterMap, hl]
      rfl
    · have := (le_max_right _ _).trans hfloor
      split <;> omega

theorem owed_run (hs : s.Sound history) {p : P} {e : ℕ × M} (he : e ∈ history)
    (h : s.Owed peers p e.1) (events : List (ReplayEvent P M))
    (hc : ∀ before hello after, events = before ++ .serve hello :: after → hello.peer = p →
      ¬ (run peers replayHistoryViews s before).Carries hello e) :
    (run peers replayHistoryViews s events).Owed peers p e.1 := by
  induction events generalizing s history with
  | nil => exact h
  | cons event events ih =>
    refine ih (hs.step event) (List.mem_append_left _ he) (owed_step hs he h event ?_) ?_
    · rintro hello rfl hp
      exact hc [] hello events rfl hp
    · rintro before hello after rfl hp
      exact hc (event :: before) hello after rfl hp

/-- After any run in which a recorded message is dropped for a peer, the message is no longer in
the outbox, or the drop map or the floor of the peer still reaches down to its key, or a stream
that was admitted for the peer after the drop contains it.  A drop may be reported under a lower
key, as it is for a frame that holds several messages. -/
theorem dropped_broadcast_not_forgotten (peers : PeerAddresses P Addr)
    (replayHistoryViews maxBytes : ℕ) (len : M → ℕ) (before after : List (ReplayEvent P M)) (p : P)
    (e : ℕ × M) (key : ℕ)
    (hrecorded : e ∈ recorded peers replayHistoryViews
      (init maxBytes : ReplayFloors P Addr len) before)
    (hkey : key ≤ e.1) :
    let s : List (ReplayEvent P M) → ReplayFloors P Addr len := run peers replayHistoryViews
      (init maxBytes)
    e ∉ entries (s (before ++ .drop p key :: after)).outbox.views ∨
      (s (before ++ .drop p key :: after)).Owes peers p e.1 ∨
      ∃ served hello later, after = served ++ .serve hello :: later ∧ hello.peer = p ∧
        (s (before ++ .drop p key :: served)).Carries hello e := by
  intro s
  by_cases hc : ∃ served hello later, after = served ++ .serve hello :: later ∧ hello.peer = p ∧
      (s (before ++ .drop p key :: served)).Carries hello e
  · exact .inr (.inr hc)
  have hrun : ∀ events, (s events).Sound (recorded peers replayHistoryViews
      (init maxBytes : ReplayFloors P Addr len) events) := fun events => (sound_init maxBytes).run _
  have happ : ∀ l, s (before ++ .drop p key :: l) = run peers replayHistoryViews
      ((s before).step peers replayHistoryViews (.drop p key)) l := fun l => List.foldl_append ..
  have howed : ((s before).step peers replayHistoryViews (.drop p key)).Owed peers p e.1 :=
    fun _ => .inl (low_lowerTo_self hkey)
  have hend := owed_run ((hrun before).step _) (List.mem_append_left _ hrecorded) howed after
    fun served hello later hsplit hp hcarry => hc ⟨served, hello, later, hsplit, hp, by rwa [happ]⟩
  rw [← happ] at hend
  by_cases hfloor : (s (before ++ .drop p key :: after)).outbox.floor ≤ e.1
  · exact .inr (.inl (hend hfloor))
  · left
    rw [(hrun _).outbox.kept, List.mem_filter, decide_eq_true_eq]
    exact fun h => hfloor h.2

def onePeer : PeerAddresses Unit ℕ where
  addr _ := 80
  addrToPeer a := if a = 80 then some () else none
  known _ := rfl

/-- A broadcast that is dropped, swept and then replayed. -/
theorem dropped_broadcast_not_forgotten_onePeer :
    let s : List (ReplayEvent Unit ℕ) → ReplayFloors Unit ℕ id := run onePeer 10 (init 100)
    let after := [.sweepDirtyMap, .serve ⟨(), 9, false, 50, true⟩]
    (2, 7) ∉ entries (s ([.broadcastRecorded 7] ++ .drop () 2 :: after)).outbox.views ∨
      (s ([.broadcastRecorded 7] ++ .drop () 2 :: after)).Owes onePeer () 2 ∨
      ∃ served hello later, after = served ++ .serve hello :: later ∧ hello.peer = () ∧
        (s ([.broadcastRecorded 7] ++ .drop () 2 :: served)).Carries hello (2, 7) :=
  dropped_broadcast_not_forgotten onePeer 10 100 id [.broadcastRecorded 7] _ () (2, 7) 2
    (List.mem_singleton_self _) le_rfl

end ReplayFloors

end Vantage
