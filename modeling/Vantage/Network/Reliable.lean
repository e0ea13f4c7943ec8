import Mathlib.Algebra.GroupWithZero.Nat
import Mathlib.Data.Finset.Insert
import Mathlib.Data.List.Perm.Basic
import Mathlib.Data.List.Nodup
import Mathlib.Order.Nat

/-!
# The reliable sender

One task keeps the connection to a peer.  A durable message is sent again in every session until it
is acknowledged or its handler is dropped; a volatile one is given up with its session, and the
smallest key that was given up is recorded.  Messages wait in the buffer, in two coalescers when
batching is on, in a queue of delayed frames when the destination has an extra latency, and among
the frames that await a reply.

* `Connection.step`: the events of the task; `requeue` is what every end of a session does.  The two
  session loops differ in the delay queue only, which stays empty in the immediate one.  A frame is
  modelled by the messages it holds and by whether it is a bundle.
-/

namespace Vantage.ReliableSender

/-- How long a message is kept. -/
inductive SendClass
  | durable
  | durableDetached
  | volatile (key : ℕ)
  deriving DecidableEq

/-- A message, numbered in the order of the sends; a durable one has the handler of its number. -/
structure Message where
  id : ℕ
  len : ℕ
  kind : SendClass
  deriving DecidableEq

/-- A message or a frame in a queue, with the handlers that wait for it. -/
structure BufferedEntry where
  framed : Bool
  messages : List Message
  handlers : List ℕ
  key : Option ℕ

/-- The settings of a sender. -/
structure SenderConfig where
  batch : Bool
  maxBytes : ℕ
  delayed : Bool

/-- The queues of one connection. -/
structure Connection where
  live : Bool
  buffer : List BufferedEntry
  delayQueue : List BufferedEntry
  pendingReplies : List BufferedEntry
  durable : List (Message × ℕ)
  volatile : List (Message × ℕ)
  dropMap : Option ℕ
  /-- The handlers that were dropped. -/
  closed : Finset ℕ
  /-- The handlers that were notified. -/
  resolved : List ℕ
  /-- The frames written in this session, and those of them that were acknowledged. -/
  written : List BufferedEntry
  answered : List BufferedEntry
  /-- All acknowledged frames, and all messages. -/
  acknowledged : List BufferedEntry
  arrived : List Message

/-- The events of a connection task. -/
inductive SenderEvent
  | connect
  | send (len : ℕ) (kind : SendClass)
  | shed (len key : ℕ)
  | cancel (handler : ℕ)
  | pump (ok : Bool)
  | release (ok : Bool)
  | flushDurable
  | flushVolatile
  | ack
  | lose

def mergeMinKey (acc : Option ℕ) (key : ℕ) : Option ℕ := some (acc.elim key (min · key))

def reportDropped (dropMap minKey : Option ℕ) : Option ℕ :=
  minKey.elim dropMap (mergeMinKey dropMap)

/-- The three kinds of entries: durable messages with their handlers, a detached one, and volatile
messages with a key that is not above theirs.  Without batching a frame is a single message. -/
inductive BufferedEntry.Shaped (batch : Bool) : BufferedEntry → Prop
  | durable {ms : List Message} (hne : ms ≠ []) (hone : batch = false → ms.length = 1)
      (h : ∀ m ∈ ms, m.kind = .durable) : Shaped batch ⟨batch, ms, ms.map Message.id, none⟩
  | detached {m : Message} (h : m.kind = .durableDetached) : Shaped batch ⟨batch, [m], [], none⟩
  | volatile {ms : List Message} {key : ℕ} (hone : batch = false → ms.length = 1)
      (h : ∀ m ∈ ms, ∃ key', m.kind = .volatile key' ∧ key ≤ key') :
      Shaped batch ⟨batch, ms, [], some key⟩

namespace Connection

def init : Connection := ⟨false, [], [], [], [], [], none, ∅, [], [], [], [], []⟩

variable (cfg : SenderConfig) (s : Connection)

def allClosed (e : BufferedEntry) : Bool :=
  !e.handlers.isEmpty && e.handlers.all fun h => decide (h ∈ s.closed)

def bytes {T : Type} (items : List (Message × T)) : ℕ := (items.map fun c => c.1.len).sum

def durableBundle : BufferedEntry := ⟨true, s.durable.map Prod.fst, s.durable.map Prod.snd, none⟩

def volatileBundle : BufferedEntry :=
  ⟨true, s.volatile.map Prod.fst, [], (s.volatile.map Prod.snd).min?⟩

def flushDurable : Connection :=
  { s with
    buffer := s.buffer ++ [s.durableBundle]
    durable := [] }

def flushVolatile : Connection :=
  { s with
    buffer := s.buffer ++ [s.volatileBundle]
    volatile := [] }

def onArrival (m : Message) : Connection :=
  match m.kind with
  | .durableDetached => { s with buffer := s.buffer ++ [⟨cfg.batch, [m], [], none⟩] }
  | .durable =>
    if cfg.batch then
      let s := { s with durable := s.durable ++ [(m, m.id)] }
      if cfg.maxBytes ≤ bytes s.durable then s.flushDurable else s
    else { s with buffer := s.buffer ++ [⟨false, [m], [m.id], none⟩] }
  | .volatile key =>
    if cfg.batch then
      let s := { s with volatile := s.volatile ++ [(m, key)] }
      if cfg.maxBytes ≤ bytes s.volatile then s.flushVolatile else s
    else { s with buffer := s.buffer ++ [⟨false, [m], [], some key⟩] }

/-- A message that arrives while the task waits to connect again. -/
def onArrivalWaiting (m : Message) : Connection :=
  let push (handlers : List ℕ) : Connection :=
    let buffer : List BufferedEntry := s.buffer ++ [⟨cfg.batch, [m], handlers, none⟩]
    { s with buffer := buffer.filter fun e => !s.allClosed e }
  match m.kind with
  | .durable => push [m.id]
  | .durableDetached => push []
  | .volatile key => { s with dropMap := reportDropped s.dropMap (some key) }

/-- An entry goes back to the front of the buffer, or its key is merged. -/
def requeueEntry (e : BufferedEntry) (acc : List BufferedEntry × Option ℕ) :
    List BufferedEntry × Option ℕ :=
  match e.key with
  | some key => (acc.1, mergeMinKey acc.2 key)
  | none => (e :: acc.1, acc.2)

/-- The end of a session. The entries are taken from the back of each queue. -/
def requeue : Connection :=
  let (buffer, low) := s.delayQueue.foldr requeueEntry
    (s.pendingReplies.foldr requeueEntry (s.buffer, none))
  let buffer := if s.durable = [] then buffer else s.durableBundle :: buffer
  let low := (s.volatile.map Prod.snd).foldl mergeMinKey low
  let low := buffer.foldl (fun low e => e.key.elim low (mergeMinKey low)) low
  { s with
    live := false
    buffer := buffer.filter fun e => e.key.isNone
    delayQueue := []
    pendingReplies := []
    durable := []
    volatile := []
    written := []
    answered := []
    dropMap := reportDropped s.dropMap low }

def lose : Connection := if s.live then s.requeue else s

def write (e : BufferedEntry) : Connection :=
  { s with
    pendingReplies := s.pendingReplies ++ [e]
    written := s.written ++ [e] }

def pump (ok : Bool) : Connection :=
  match s.live, s.buffer with
  | true, e :: buffer =>
    if s.allClosed e then { s with buffer }
    else if cfg.delayed then { s with buffer, delayQueue := s.delayQueue ++ [e] }
    else if ok then write { s with buffer } e
    else requeue { s with buffer := e :: buffer }
  | _, _ => s

def release (ok : Bool) : Connection :=
  match s.live, s.delayQueue with
  | true, e :: delayQueue =>
    if s.allClosed e then { s with delayQueue }
    else if ok then write { s with delayQueue } e
    else requeue { s with delayQueue, buffer := e :: s.buffer }
  | _, _ => s

def ack : Connection :=
  match s.live, s.pendingReplies with
  | true, e :: pendingReplies =>
    { s with
      pendingReplies
      resolved := s.resolved ++ e.handlers
      answered := s.answered ++ [e]
      acknowledged := s.acknowledged ++ [e] }
  | _, _ => s.lose

def step : SenderEvent → Connection
  | .connect => { s with live := true }
  | .send len kind =>
    let m : Message := ⟨s.arrived.length, len, kind⟩
    let s := { s with arrived := s.arrived ++ [m] }
    if s.live then s.onArrival cfg m else s.onArrivalWaiting cfg m
  | .shed len key =>
    { s with
      arrived := s.arrived ++ [⟨s.arrived.length, len, .volatile key⟩]
      dropMap := reportDropped s.dropMap (some key) }
  | .cancel handler => { s with closed := insert handler s.closed }
  | .pump ok => s.pump cfg ok
  | .release ok => s.release ok
  | .flushDurable => if s.durable = [] then s else s.flushDurable
  | .flushVolatile => if s.volatile = [] then s else s.flushVolatile
  | .ack => s.ack
  | .lose => s.lose

def run (events : List SenderEvent) : Connection := events.foldl (step cfg) s

/-! ### Places and excuses -/

def messagesOf (entries : List BufferedEntry) : List Message :=
  entries.flatMap BufferedEntry.messages

def held : List Message :=
  messagesOf s.pendingReplies ++ (messagesOf s.delayQueue ++ (s.durable.map Prod.fst ++
    (s.volatile.map Prod.fst ++ messagesOf s.buffer)))

variable {cfg s}

/-- The recorded minimum lies at or below a key. -/
def Low (o : Option ℕ) (key : ℕ) : Prop := ∃ low, o = some low ∧ low ≤ key

theorem low_mergeMinKey {o : Option ℕ} {low key : ℕ} (h : low ≤ key) :
    Low (mergeMinKey o low) key := by
  refine ⟨_, rfl, ?_⟩
  cases o with
  | none => exact h
  | some old => exact (min_le_right _ _).trans h

theorem Low.mergeMinKey {o : Option ℕ} {key : ℕ} (h : Low o key) (low : ℕ) :
    Low (mergeMinKey o low) key := by
  obtain ⟨old, rfl, hle⟩ := h
  exact ⟨_, rfl, (min_le_left _ _).trans hle⟩

theorem Low.reportDropped {o : Option ℕ} {key : ℕ} (h : Low o key) (low : Option ℕ) :
    Low (reportDropped o low) key := by
  cases low with
  | none => exact h
  | some low => exact h.mergeMinKey low

theorem low_reportDropped {o low : Option ℕ} {key : ℕ} (h : Low low key) :
    Low (reportDropped o low) key := by
  obtain ⟨low, rfl, hle⟩ := h
  exact low_mergeMinKey hle

/-- A message may be given up: its handler is dropped, or its key is recorded. -/
def Excused (s : Connection) (m : Message) : Prop :=
  match m.kind with
  | .durable => m.id ∈ s.closed
  | .durableDetached => False
  | .volatile key => Low s.dropMap key

theorem Excused.mono {s' : Connection} {m : Message} (h : Excused s m)
    (hc : s.closed ⊆ s'.closed) (hd : ∀ key, Low s.dropMap key → Low s'.dropMap key) :
    Excused s' m := by
  unfold Excused at h ⊢
  split
  · next hk => exact hc (by simpa [hk] using h)
  · next hk => simp [hk] at h
  · next key hk => exact hd key (by simpa [hk] using h)

/-- What an event does with the messages: some are acknowledged, some given up with an excuse, the
others are kept. -/
structure Moves (s s' : Connection) (gained : Option Message) : Prop where
  arrived : s'.arrived = s.arrived ++ gained.toList
  excused : ∀ m, Excused s m → Excused s' m
  split : ∃ acked dropped, (s.held ++ gained.toList).Perm (s'.held ++ (acked ++ dropped)) ∧
    messagesOf s'.acknowledged = messagesOf s.acknowledged ++ acked ∧ ∀ m ∈ dropped, Excused s' m

theorem Moves.trans {s₁ s₂ s₃ : Connection} {gained : Option Message} (h : Moves s₁ s₂ gained)
    (h' : Moves s₂ s₃ none) : Moves s₁ s₃ gained := by
  obtain ⟨acked, dropped, hp, ha, hd⟩ := h.split
  obtain ⟨acked', dropped', hp', ha', hd'⟩ := h'.split
  refine ⟨by rw [h'.arrived, h.arrived]; simp, fun m hm => h'.excused m (h.excused m hm),
    acked ++ acked', dropped ++ dropped', ?_, by rw [ha', ha, List.append_assoc], fun m hm => ?_⟩
  · rw [List.perm_iff_count] at hp hp' ⊢
    intro m
    have h₁ := hp m
    have h₂ := hp' m
    simp only [List.count_append, Option.toList_none, List.count_nil] at h₁ h₂ ⊢
    omega
  · rcases List.mem_append.mp hm with hm | hm
    · exact h'.excused m (hd m hm)
    · exact hd' m hm

theorem Moves.of_perm {s' : Connection} {gained : Option Message}
    (harr : s'.arrived = s.arrived ++ gained.toList) (hc : s.closed ⊆ s'.closed)
    (hd : s'.dropMap = s.dropMap) (hack : s'.acknowledged = s.acknowledged)
    (hp : (s.held ++ gained.toList).Perm s'.held) : Moves s s' gained :=
  ⟨harr, fun _ hm => hm.mono hc (by rw [hd]; exact fun _ => id), [], [], by simpa using hp,
    by rw [hack, List.append_nil], fun _ hm => by cases hm⟩

/-- Every message is in one place, acknowledged, or excused. -/
structure Owned (s : Connection) : Prop where
  ids : ∀ (i : ℕ) (m : Message), s.arrived[i]? = some m → m.id = i
  known : ∀ m ∈ s.held ++ messagesOf s.acknowledged, m ∈ s.arrived
  nodup : (s.held ++ messagesOf s.acknowledged).Nodup
  accounted : ∀ m ∈ s.arrived, m ∈ s.held ∨ m ∈ messagesOf s.acknowledged ∨ Excused s m

theorem Owned.id_lt (h : Owned s) {m : Message} (hm : m ∈ s.arrived) : m.id < s.arrived.length := by
  obtain ⟨i, hi⟩ := List.mem_iff_getElem?.mp hm
  rw [h.ids i m hi]
  exact (List.getElem?_eq_some_iff.mp hi).1

theorem Owned.moves {s' : Connection} {gained : Option Message} (h : Owned s)
    (hm : Moves s s' gained) (hg : ∀ m ∈ gained, m.id = s.arrived.length) : Owned s' := by
  obtain ⟨acked, dropped, hp, ha, hd⟩ := hm.split
  have hall : (s.held ++ messagesOf s.acknowledged ++ gained.toList).Perm
      (s'.held ++ messagesOf s'.acknowledged ++ dropped) := by
    rw [ha]
    rw [List.perm_iff_count] at hp ⊢
    intro m
    have := hp m
    simp only [List.count_append] at this ⊢
    omega
  have hfresh : ∀ m ∈ gained.toList, m ∉ s.held ++ messagesOf s.acknowledged := by
    intro m hmem hold
    have hid := hg m (Option.mem_toList.mp hmem)
    exact absurd (h.id_lt (h.known m hold)) (by omega)
  refine ⟨fun i m him => ?_, fun m hmem => ?_, ?_, fun m hmem => ?_⟩
  · rw [hm.arrived, List.getElem?_append] at him
    split at him
    · exact h.ids i m him
    · next hlt =>
      obtain ⟨hi, hget⟩ := List.getElem?_eq_some_iff.mp him
      have hlen : gained.toList.length ≤ 1 := by cases gained <;> simp
      rw [hg m (Option.mem_toList.mp (List.mem_of_getElem? him))]
      omega
  · rw [hm.arrived]
    rcases List.mem_append.mp (hall.symm.subset (List.mem_append_left _ hmem)) with hmem | hmem
    · exact List.mem_append_left _ (h.known m hmem)
    · exact List.mem_append_right _ hmem
  · have hnodup : (s.held ++ messagesOf s.acknowledged ++ gained.toList).Nodup := by
      refine List.nodup_append.mpr ⟨h.nodup, by cases gained <;> simp, ?_⟩
      rintro a ha b hb rfl
      exact hfresh a hb ha
    exact (hall.nodup_iff.mp hnodup).sublist (List.sublist_append_left _ _)
  · have hcase : m ∈ s.held ++ messagesOf s.acknowledged ++ gained.toList ∨ Excused s m := by
      rw [hm.arrived] at hmem
      simp only [List.mem_append] at hmem ⊢
      rcases hmem with hmem | hmem
      · have := h.accounted m hmem
        tauto
      · exact .inl (.inr hmem)
    rcases hcase with hmem | hex
    · have := hall.subset hmem
      simp only [List.mem_append] at this
      rcases this with (h | h) | h
      · exact .inl h
      · exact .inr (.inl h)
      · exact .inr (.inr (hd m h))
    · exact .inr (.inr (hm.excused m hex))

/-! ### Frames, handlers and keys -/

/-- The entries of all queues are of the form that the setting asks for. -/
structure Shaped (cfg : SenderConfig) (s : Connection) : Prop where
  buffer : ∀ e ∈ s.buffer, e.Shaped cfg.batch
  delayQueue : ∀ e ∈ s.delayQueue, e.Shaped cfg.batch
  pendingReplies : ∀ e ∈ s.pendingReplies, e.Shaped cfg.batch
  acknowledged : ∀ e ∈ s.acknowledged, e.Shaped cfg.batch
  durable : ∀ c ∈ s.durable, cfg.batch = true ∧ c.2 = c.1.id ∧ c.1.kind = .durable
  volatile : ∀ c ∈ s.volatile, cfg.batch = true ∧ c.1.kind = .volatile c.2
  resolved : s.resolved = s.acknowledged.flatMap BufferedEntry.handlers
  written : s.written = s.answered ++ s.pendingReplies
  immediate : cfg.delayed = false → s.delayQueue = []
  idle : s.live = false →
    s.pendingReplies = [] ∧ s.delayQueue = [] ∧ s.durable = [] ∧ s.volatile = []

theorem excused_of_allClosed {e : BufferedEntry} (he : e.Shaped cfg.batch)
    (h : s.allClosed e = true) : ∀ m ∈ e.messages, Excused s m := by
  intro m hm
  cases he with
  | @durable ms hne hone hk =>
    have hall : ∀ m ∈ ms, m.id ∈ s.closed := by simpa [allClosed, hne] using h
    simpa [Excused, hk m hm] using hall m hm
  | detached hk => simp [allClosed] at h
  | volatile hone hk => simp [allClosed] at h

theorem Shaped.durableBundle (hs : Shaped cfg s) (hne : s.durable ≠ []) :
    s.durableBundle.Shaped cfg.batch := by
  have hbatch : cfg.batch = true := by
    obtain ⟨c, l, hc⟩ := List.exists_cons_of_ne_nil hne
    exact (hs.durable c (by simp [hc])).1
  have hids : s.durable.map Prod.snd = (s.durable.map Prod.fst).map Message.id := by
    rw [List.map_map]
    exact List.map_congr_left fun c hc => (hs.durable c hc).2.1
  rw [Connection.durableBundle, hids, hbatch]
  refine .durable (by simpa using hne) (fun h => by cases h) fun m hm => ?_
  obtain ⟨c, hc, rfl⟩ := List.mem_map.mp hm
  exact (hs.durable c hc).2.2

theorem Shaped.volatileBundle (hs : Shaped cfg s) (hne : s.volatile ≠ []) :
    s.volatileBundle.Shaped cfg.batch := by
  have hbatch : cfg.batch = true := by
    obtain ⟨c, l, hc⟩ := List.exists_cons_of_ne_nil hne
    exact (hs.volatile c (by simp [hc])).1
  obtain ⟨key, hkey⟩ : ∃ key, (s.volatile.map Prod.snd).min? = some key := by
    refine Option.ne_none_iff_exists'.mp fun h => hne ?_
    simpa using List.min?_eq_none_iff.mp h
  rw [Connection.volatileBundle, hkey, hbatch]
  refine .volatile (fun h => by cases h) fun m hm => ?_
  obtain ⟨c, hc, rfl⟩ := List.mem_map.mp hm
  exact ⟨c.2, (hs.volatile c hc).2, (List.min?_eq_some_iff.mp hkey).2 c.2 (List.mem_map_of_mem hc)⟩

/-! ### The end of a session -/

theorem low_foldl {o : Option ℕ} {key : ℕ} (h : Low o key) (keys : List ℕ) :
    Low (keys.foldl mergeMinKey o) key := by
  induction keys generalizing o with
  | nil => exact h
  | cons k keys ih => exact ih (h.mergeMinKey k)

theorem low_foldl_of_mem {o : Option ℕ} {k key : ℕ} {keys : List ℕ} (hk : k ∈ keys)
    (h : k ≤ key) : Low (keys.foldl mergeMinKey o) key := by
  induction keys generalizing o with
  | nil => cases hk
  | cons k' keys ih =>
    rcases List.mem_cons.mp hk with rfl | hk
    · exact low_foldl (low_mergeMinKey h) keys
    · exact ih hk

theorem foldr_requeueEntry (es buf : List BufferedEntry) (low : Option ℕ) :
    es.foldr requeueEntry (buf, low) = (es.filter (fun e => e.key.isNone) ++ buf,
      (es.filterMap BufferedEntry.key).reverse.foldl mergeMinKey low) := by
  induction es with
  | nil => rfl
  | cons e es ih =>
    rw [List.foldr_cons, ih, requeueEntry]
    cases hk : e.key with
    | none => simp [hk]
    | some key => simp [hk, List.foldl_append]

theorem foldl_keys (es : List BufferedEntry) (low : Option ℕ) :
    es.foldl (fun low e => e.key.elim low (mergeMinKey low)) low =
      (es.filterMap BufferedEntry.key).foldl mergeMinKey low := by
  induction es generalizing low with
  | nil => rfl
  | cons e es ih =>
    rw [List.foldl_cons, ih]
    cases hk : e.key <;> simp [hk]

theorem requeue_buffer (s : Connection) : s.requeue.buffer =
    (if s.durable = [] then [] else [s.durableBundle]) ++
      (s.delayQueue.filter (fun e => e.key.isNone) ++
        (s.pendingReplies.filter (fun e => e.key.isNone) ++
          s.buffer.filter fun e => e.key.isNone)) := by
  unfold requeue
  simp only [foldr_requeueEntry]
  split
  · simp
  · simp [Connection.durableBundle]

/-- Whatever is given up is recorded. -/
theorem requeue_low {s : Connection} {key : ℕ}
    (h : (∃ e ∈ s.pendingReplies ++ (s.delayQueue ++ s.buffer), ∃ k, e.key = some k ∧ k ≤ key) ∨
      ∃ c ∈ s.volatile, c.2 ≤ key) : Low s.requeue.dropMap key := by
  refine low_reportDropped ?_
  simp only [foldr_requeueEntry, foldl_keys]
  rcases h with ⟨e, he, k, hk, hle⟩ | ⟨c, hc, hle⟩
  · simp only [List.mem_append] at he
    rcases he with he | he | he
    · refine low_foldl (low_foldl (low_foldl (low_foldl_of_mem ?_ hle) _) _) _
      exact List.mem_reverse.mpr (List.mem_filterMap.mpr ⟨e, he, hk⟩)
    · refine low_foldl (low_foldl (low_foldl_of_mem ?_ hle) _) _
      exact List.mem_reverse.mpr (List.mem_filterMap.mpr ⟨e, he, hk⟩)
    · refine low_foldl_of_mem (List.mem_filterMap.mpr ⟨e, ?_, hk⟩) hle
      split <;> simp [he]
  · exact low_foldl (low_foldl_of_mem (List.mem_map_of_mem hc) hle) _

theorem low_requeue {key : ℕ} (h : Low s.dropMap key) : Low s.requeue.dropMap key :=
  h.reportDropped _

theorem messagesOf_perm (p : BufferedEntry → Bool) (es : List BufferedEntry) :
    (messagesOf es).Perm (messagesOf (es.filter p) ++ messagesOf (es.filter fun e => !p e)) := by
  rw [messagesOf, messagesOf, messagesOf, ← List.flatMap_append]
  exact ((List.filter_append_perm p es).symm).flatMap_right _

theorem mem_messagesOf {m : Message} {es : List BufferedEntry} :
    m ∈ messagesOf es ↔ ∃ e ∈ es, m ∈ e.messages := List.mem_flatMap

theorem Shaped.requeue (hs : Shaped cfg s) : Shaped cfg s.requeue where
  buffer e he := by
    rw [requeue_buffer] at he
    simp only [List.mem_append, List.mem_filter] at he
    rcases he with he | ⟨he, -⟩ | ⟨he, -⟩ | ⟨he, -⟩
    · split at he
      · cases he
      · next hne =>
        rw [List.mem_singleton.mp he]
        exact hs.durableBundle hne
    · exact hs.delayQueue e he
    · exact hs.pendingReplies e he
    · exact hs.buffer e he
  delayQueue _ h := by cases h
  pendingReplies _ h := by cases h
  acknowledged := hs.acknowledged
  durable _ h := by cases h
  volatile _ h := by cases h
  resolved := hs.resolved
  written := rfl
  immediate _ := rfl
  idle _ := ⟨rfl, rfl, rfl, rfl⟩

theorem Shaped.moves_requeue (hs : Shaped cfg s) : Moves s s.requeue none := by
  let gone : List BufferedEntry → List Message := fun es =>
    messagesOf (es.filter fun e => !e.key.isNone)
  -- volatile entries carry volatile messages, whose keys are not below theirs
  have hgone : ∀ es : List BufferedEntry, (∀ e ∈ es, e.Shaped cfg.batch) →
      (∀ e ∈ es, e ∈ s.pendingReplies ++ (s.delayQueue ++ s.buffer)) →
      ∀ m ∈ gone es, Excused s.requeue m := by
    intro es hshape hsub m hm
    obtain ⟨e, he, hme⟩ := mem_messagesOf.mp hm
    obtain ⟨he, hkey⟩ := List.mem_filter.mp he
    have hsub := hsub e he
    cases hshape e he with
    | durable => simp at hkey
    | detached => simp at hkey
    | volatile hone hk =>
      obtain ⟨key', hkind, hle⟩ := hk m hme
      simpa [Excused, hkind] using requeue_low (.inl ⟨_, hsub, _, rfl, hle⟩)
  refine ⟨by simp [Connection.requeue], fun m hm => hm.mono subset_rfl fun _ => low_requeue, [],
    gone s.pendingReplies ++ (gone s.delayQueue ++ (gone s.buffer ++ s.volatile.map Prod.fst)), ?_,
    by simp [Connection.requeue], fun m hm => ?_⟩
  · have h₁ := (messagesOf_perm (fun e => e.key.isNone) s.pendingReplies)
    have h₂ := (messagesOf_perm (fun e => e.key.isNone) s.delayQueue)
    have h₃ := (messagesOf_perm (fun e => e.key.isNone) s.buffer)
    have hdur : messagesOf (if s.durable = [] then [] else [s.durableBundle]) =
        s.durable.map Prod.fst := by
      split
      · next hnil => simp [messagesOf, hnil]
      · simp [messagesOf, Connection.durableBundle]
    have hheld : s.requeue.held = s.durable.map Prod.fst ++
        (messagesOf (s.delayQueue.filter fun e => e.key.isNone) ++
          (messagesOf (s.pendingReplies.filter fun e => e.key.isNone) ++
            messagesOf (s.buffer.filter fun e => e.key.isNone))) := by
      rw [← hdur]
      simp only [messagesOf, ← List.flatMap_append, ← requeue_buffer]
      rfl
    rw [hheld, held]
    rw [List.perm_iff_count] at h₁ h₂ h₃ ⊢
    intro m
    have c₁ := h₁ m
    have c₂ := h₂ m
    have c₃ := h₃ m
    simp only [List.count_append, Option.toList_none, List.count_nil, gone] at c₁ c₂ c₃ ⊢
    omega
  · simp only [List.mem_append] at hm
    rcases hm with hm | hm | hm | hm
    · exact hgone _ hs.pendingReplies (fun e he => by simp [he]) m hm
    · exact hgone _ hs.delayQueue (fun e he => by simp [he]) m hm
    · exact hgone _ hs.buffer (fun e he => by simp [he]) m hm
    · obtain ⟨c, hc, rfl⟩ := List.mem_map.mp hm
      simpa [Excused, (hs.volatile c hc).2] using requeue_low (.inr ⟨c, hc, le_rfl⟩)

/-! ### The other events -/

theorem moves_skip {s' : Connection} {e : BufferedEntry} (he : e.Shaped cfg.batch)
    (hclosed : s.allClosed e = true) (harr : s'.arrived = s.arrived) (hc : s'.closed = s.closed)
    (hd : s'.dropMap = s.dropMap) (hack : s'.acknowledged = s.acknowledged)
    (hp : s.held.Perm (s'.held ++ e.messages)) : Moves s s' none := by
  have hmono : ∀ m, Excused s m → Excused s' m := fun m hm =>
    hm.mono hc.ge (by rw [hd]; exact fun _ => id)
  exact ⟨by simpa using harr, hmono, [], e.messages, by simpa using hp, by simp [hack],
    fun m hm => hmono m (excused_of_allClosed he hclosed m hm)⟩

theorem moves_flushDurable (s : Connection) : Moves s s.flushDurable none := by
  refine .of_perm (by simp [flushDurable]) subset_rfl rfl rfl ?_
  rw [List.perm_iff_count]
  intro m
  simp [held, flushDurable, durableBundle, messagesOf]
  omega

theorem moves_flushVolatile (s : Connection) : Moves s s.flushVolatile none := by
  refine .of_perm (by simp [flushVolatile]) subset_rfl rfl rfl ?_
  rw [List.perm_iff_count]
  intro m
  simp [held, flushVolatile, volatileBundle, messagesOf]
  omega

theorem moves_push {m : Message} {handlers : List ℕ} {key : Option ℕ} {framed : Bool} :
    Moves s { s with
      arrived := s.arrived ++ [m]
      buffer := s.buffer ++ [⟨framed, [m], handlers, key⟩] } (some m) := by
  refine .of_perm rfl subset_rfl rfl rfl ?_
  rw [List.perm_iff_count]
  intro m'
  simp [held, messagesOf]

theorem moves_onArrival (m : Message) :
    Moves s (onArrival cfg { s with arrived := s.arrived ++ [m] } m) (some m) := by
  unfold onArrival
  split
  · exact moves_push
  · split
    · have hadd : Moves s { s with
          arrived := s.arrived ++ [m]
          durable := s.durable ++ [(m, m.id)] } (some m) := by
        refine .of_perm rfl subset_rfl rfl rfl ?_
        rw [List.perm_iff_count]
        intro m'
        simp [held, messagesOf, List.count_cons]
        omega
      simp only
      split
      · exact hadd.trans (moves_flushDurable _)
      · exact hadd
    · exact moves_push
  · next key _ =>
    split
    · have hadd : Moves s { s with
          arrived := s.arrived ++ [m]
          volatile := s.volatile ++ [(m, key)] } (some m) := by
        refine .of_perm rfl subset_rfl rfl rfl ?_
        rw [List.perm_iff_count]
        intro m'
        simp [held, messagesOf, List.count_cons]
      simp only
      split
      · exact hadd.trans (moves_flushVolatile _)
      · exact hadd
    · exact moves_push

theorem Shaped.push (hs : Shaped cfg s) {e : BufferedEntry} (he : e.Shaped cfg.batch) :
    Shaped cfg { s with buffer := s.buffer ++ [e] } :=
  { hs with
    buffer := fun e' he' => by
      rcases List.mem_append.mp he' with he' | he'
      · exact hs.buffer e' he'
      · rw [List.mem_singleton.mp he']
        exact he }

theorem Shaped.flushDurable (hs : Shaped cfg s) (hne : s.durable ≠ []) :
    Shaped cfg s.flushDurable :=
  { hs.push (hs.durableBundle hne) with
    durable := fun _ h => by cases h
    idle := fun h => let ⟨hp, hq, _, hv⟩ := hs.idle h; ⟨hp, hq, rfl, hv⟩ }

theorem Shaped.flushVolatile (hs : Shaped cfg s) (hne : s.volatile ≠ []) :
    Shaped cfg s.flushVolatile :=
  { hs.push (hs.volatileBundle hne) with
    volatile := fun _ h => by cases h
    idle := fun h => let ⟨hp, hq, hd, _⟩ := hs.idle h; ⟨hp, hq, hd, rfl⟩ }

theorem Shaped.with_ghosts (hs : Shaped cfg s) (arrived : List Message) (closed : Finset ℕ)
    (dropMap : Option ℕ) : Shaped cfg { s with arrived, closed, dropMap } :=
  ⟨hs.1, hs.2, hs.3, hs.4, hs.5, hs.6, hs.7, hs.8, hs.9, hs.10⟩

theorem shaped_durable {m : Message} (hk : m.kind = .durable) (batch : Bool) :
    BufferedEntry.Shaped batch ⟨batch, [m], [m.id], none⟩ :=
  .durable (List.cons_ne_nil _ _) (fun _ => rfl) (by simpa using hk)

theorem Shaped.onArrival (hs : Shaped cfg s) (hlive : s.live = true) (m : Message) :
    Shaped cfg (s.onArrival cfg m) := by
  have hidle : ¬ s.live = false := by simp [hlive]
  unfold Connection.onArrival
  split
  · next hk => exact hs.push (.detached hk)
  · next hk =>
    split
    · next hb =>
      have hadd : Shaped cfg { s with durable := s.durable ++ [(m, m.id)] } :=
        { hs with
          durable := fun c hc => by
            rcases List.mem_append.mp hc with hc | hc
            · exact hs.durable c hc
            · rw [List.mem_singleton.mp hc]
              exact ⟨hb, rfl, hk⟩
          idle := fun h => absurd h hidle }
      simp only
      split
      · exact hadd.flushDurable (by simp)
      · exact hadd
    · next hb =>
      have hb : cfg.batch = false := by simpa using hb
      exact hs.push (hb ▸ shaped_durable hk false)
  · next key hk =>
    split
    · next hb =>
      have hadd : Shaped cfg { s with volatile := s.volatile ++ [(m, key)] } :=
        { hs with
          volatile := fun c hc => by
            rcases List.mem_append.mp hc with hc | hc
            · exact hs.volatile c hc
            · rw [List.mem_singleton.mp hc]
              exact ⟨hb, hk⟩
          idle := fun h => absurd h hidle }
      simp only
      split
      · exact hadd.flushVolatile (by simp)
      · exact hadd
    · next hb =>
      have hb : cfg.batch = false := by simpa using hb
      refine hs.push (hb ▸ .volatile (fun _ => rfl) fun m' hm' => ⟨key, ?_, le_rfl⟩)
      rw [List.mem_singleton.mp hm', hk]

theorem Shaped.retain (hs : Shaped cfg s) :
    Moves s { s with buffer := s.buffer.filter fun e => !s.allClosed e } none ∧
      Shaped cfg { s with buffer := s.buffer.filter fun e => !s.allClosed e } := by
  refine ⟨⟨by simp, fun _ => id, [], messagesOf (s.buffer.filter s.allClosed), ?_, by simp,
    fun m hm => ?_⟩, { hs with buffer := fun e he => hs.buffer e (List.mem_filter.mp he).1 }⟩
  · have h := messagesOf_perm s.allClosed s.buffer
    rw [List.perm_iff_count] at h ⊢
    intro m
    have := h m
    simp only [held, List.count_append, Option.toList_none, List.count_nil] at this ⊢
    omega
  · obtain ⟨e, he, hme⟩ := mem_messagesOf.mp hm
    obtain ⟨he, hc⟩ := List.mem_filter.mp he
    exact excused_of_allClosed (hs.buffer e he) hc m hme

theorem moves_report {m : Message} {key : ℕ} (hk : m.kind = .volatile key) :
    Moves s { s with
      arrived := s.arrived ++ [m]
      dropMap := reportDropped s.dropMap (some key) } (some m) := by
  have hlow : ∀ k, Low s.dropMap k → Low (reportDropped s.dropMap (some key)) k := fun _ h =>
    h.reportDropped _
  refine ⟨rfl, fun m' hm' => hm'.mono subset_rfl hlow, [], [m], List.Perm.refl _, by simp,
    fun m' hm' => ?_⟩
  rw [List.mem_singleton.mp hm']
  unfold Excused
  simp only [hk]
  exact low_mergeMinKey le_rfl

theorem Shaped.onArrivalWaiting (hs : Shaped cfg s) (m : Message) :
    Moves s (onArrivalWaiting cfg { s with arrived := s.arrived ++ [m] } m) (some m) ∧
      Shaped cfg (onArrivalWaiting cfg { s with arrived := s.arrived ++ [m] } m) := by
  have hpush : ∀ handlers, BufferedEntry.Shaped cfg.batch ⟨cfg.batch, [m], handlers, none⟩ →
      Shaped cfg { s with
        arrived := s.arrived ++ [m]
        buffer := s.buffer ++ [⟨cfg.batch, [m], handlers, none⟩] } := fun handlers he =>
    (hs.push he).with_ghosts _ _ _
  unfold Connection.onArrivalWaiting
  split
  · next hk =>
    have h := (hpush _ (shaped_durable hk _)).retain
    exact ⟨moves_push.trans h.1, h.2⟩
  · next hk =>
    have h := (hpush _ (.detached hk)).retain
    exact ⟨moves_push.trans h.1, h.2⟩
  · next key hk => exact ⟨moves_report hk, hs.with_ghosts _ _ _⟩

theorem Shaped.write {s' : Connection} (hs : Shaped cfg s') {e : BufferedEntry}
    (he : e.Shaped cfg.batch) (hlive : s'.live = true) : Shaped cfg (s'.write e) :=
  { hs with
    pendingReplies := fun e' he' => by
      rcases List.mem_append.mp he' with he' | he'
      · exact hs.pendingReplies e' he'
      · rw [List.mem_singleton.mp he']
        exact he
    written := by rw [Connection.write, hs.written, List.append_assoc]
    idle := fun h => absurd h (by simp [Connection.write, hlive]) }

theorem Shaped.pump (hs : Shaped cfg s) (ok : Bool) :
    Moves s (s.pump cfg ok) none ∧ Shaped cfg (s.pump cfg ok) := by
  unfold Connection.pump
  split
  · next e buffer hlive hb =>
    have he : e.Shaped cfg.batch := hs.buffer e (by simp [hb])
    have hrest : Shaped cfg { s with buffer } :=
      { hs with buffer := fun e' he' => hs.buffer e' (by simp [hb, he']) }
    split
    · next hclosed =>
      refine ⟨moves_skip he hclosed rfl rfl rfl rfl ?_, hrest⟩
      rw [List.perm_iff_count]
      intro m
      simp [held, messagesOf, hb]
      omega
    · split
      · refine ⟨.of_perm (by simp) subset_rfl rfl rfl ?_,
          { hrest with
            delayQueue := fun e' he' => by
              rcases List.mem_append.mp he' with he' | he'
              · exact hs.delayQueue e' he'
              · rw [List.mem_singleton.mp he']
                exact he
            immediate := fun h => by simp_all
            idle := fun h => by simp [hlive] at h }⟩
        rw [List.perm_iff_count]
        intro m
        simp [held, messagesOf, hb]
        omega
      · split
        · refine ⟨.of_perm (by simp [Connection.write]) subset_rfl rfl rfl ?_,
            hrest.write he hlive⟩
          rw [List.perm_iff_count]
          intro m
          simp [held, messagesOf, hb, Connection.write]
          omega
        · rw [← hb]
          exact ⟨hs.moves_requeue, hs.requeue⟩
  · exact ⟨.of_perm (by simp) subset_rfl rfl rfl (by simp), hs⟩

theorem Shaped.release (hs : Shaped cfg s) (ok : Bool) :
    Moves s (s.release ok) none ∧ Shaped cfg (s.release ok) := by
  unfold Connection.release
  split
  · next e delayQueue hlive hq =>
    have he : e.Shaped cfg.batch := hs.delayQueue e (by simp [hq])
    have hrest : Shaped cfg { s with delayQueue } :=
      { hs with
        delayQueue := fun e' he' => hs.delayQueue e' (by simp [hq, he'])
        immediate := fun h => by simpa [hq] using hs.immediate h
        idle := fun h => by simp [hlive] at h }
    split
    · next hclosed =>
      refine ⟨moves_skip he hclosed rfl rfl rfl rfl ?_, hrest⟩
      rw [List.perm_iff_count]
      intro m
      simp [held, messagesOf, hq]
      omega
    · split
      · refine ⟨.of_perm (by simp [Connection.write]) subset_rfl rfl rfl ?_, hrest.write he hlive⟩
        rw [List.perm_iff_count]
        intro m
        simp [held, messagesOf, hq, Connection.write]
      · -- the entry is first put back at the front of the buffer
        have hback : Shaped cfg { s with delayQueue, buffer := e :: s.buffer } :=
          { hrest with
            buffer := fun e' he' => by
              rcases List.mem_cons.mp he' with rfl | he'
              · exact he
              · exact hs.buffer e' he' }
        have hmove : Moves s { s with delayQueue, buffer := e :: s.buffer } none := by
          refine .of_perm (by simp) subset_rfl rfl rfl ?_
          rw [List.perm_iff_count]
          intro m
          simp [held, messagesOf, hq]
          omega
        exact ⟨hmove.trans hback.moves_requeue, hback.requeue⟩
  · exact ⟨.of_perm (by simp) subset_rfl rfl rfl (by simp), hs⟩

theorem Shaped.lose (hs : Shaped cfg s) : Moves s s.lose none ∧ Shaped cfg s.lose := by
  unfold Connection.lose
  split
  · exact ⟨hs.moves_requeue, hs.requeue⟩
  · exact ⟨.of_perm (by simp) subset_rfl rfl rfl (by simp), hs⟩

theorem Shaped.ack (hs : Shaped cfg s) : Moves s s.ack none ∧ Shaped cfg s.ack := by
  unfold Connection.ack
  split
  · next e pendingReplies hlive hp =>
    have he : e.Shaped cfg.batch := hs.pendingReplies e (by simp [hp])
    refine ⟨⟨by simp, fun _ => id, e.messages, [], ?_, by simp [messagesOf],
      fun m hm => by cases hm⟩,
      { hs with
        pendingReplies := fun e' he' => hs.pendingReplies e' (by simp [hp, he'])
        acknowledged := fun e' he' => by
          rcases List.mem_append.mp he' with he' | he'
          · exact hs.acknowledged e' he'
          · rw [List.mem_singleton.mp he']
            exact he
        resolved := by simp [hs.resolved]
        written := by simp [hs.written, hp]
        idle := fun h => by simp [hlive] at h }⟩
    rw [List.perm_iff_count]
    intro m
    simp [held, messagesOf, hp]
    omega
  · exact hs.lose

/-! ### Runs -/

theorem Shaped.step (hs : Shaped cfg s) (e : SenderEvent) :
    (∃ gained, Moves s (s.step cfg e) gained ∧ ∀ m ∈ gained, m.id = s.arrived.length) ∧
      Shaped cfg (s.step cfg e) := by
  have hnone : ∀ s', Moves s s' none →
      ∃ gained, Moves s s' gained ∧ ∀ m ∈ gained, m.id = s.arrived.length := fun s' h =>
    ⟨none, h, by simp⟩
  cases e with
  | connect =>
    exact ⟨hnone _ (.of_perm (by simp [Connection.step]) subset_rfl rfl rfl
      (by simp [Connection.step, held])), { hs with idle := fun h => by cases h }⟩
  | send len kind =>
    unfold Connection.step
    simp only
    split
    · next hlive =>
      exact ⟨⟨_, moves_onArrival _, by simp⟩,
        (hs.with_ghosts (s.arrived ++ [⟨s.arrived.length, len, kind⟩]) s.closed
          s.dropMap).onArrival hlive _⟩
    · obtain ⟨hmove, hshape⟩ := hs.onArrivalWaiting ⟨s.arrived.length, len, kind⟩
      exact ⟨⟨_, hmove, by simp⟩, hshape⟩
  | shed len key => exact ⟨⟨_, moves_report rfl, by simp⟩, hs.with_ghosts _ _ _⟩
  | cancel handler =>
    exact ⟨hnone _ (.of_perm (by simp [Connection.step]) (Finset.subset_insert _ _) rfl rfl
      (by simp [Connection.step, held])), hs.with_ghosts _ _ _⟩
  | pump ok => exact ⟨hnone _ (hs.pump ok).1, (hs.pump ok).2⟩
  | release ok => exact ⟨hnone _ (hs.release ok).1, (hs.release ok).2⟩
  | flushDurable =>
    unfold Connection.step
    simp only
    split
    · exact ⟨hnone _ (.of_perm (by simp) subset_rfl rfl rfl (by simp)), hs⟩
    · next hne => exact ⟨hnone _ (moves_flushDurable s), hs.flushDurable hne⟩
  | flushVolatile =>
    unfold Connection.step
    simp only
    split
    · exact ⟨hnone _ (.of_perm (by simp) subset_rfl rfl rfl (by simp)), hs⟩
    · next hne => exact ⟨hnone _ (moves_flushVolatile s), hs.flushVolatile hne⟩
  | ack => exact ⟨hnone _ hs.ack.1, hs.ack.2⟩
  | lose => exact ⟨hnone _ hs.lose.1, hs.lose.2⟩

theorem sound_init : Owned init ∧ Shaped cfg init := by
  refine ⟨⟨by simp [init], by simp [init, held, messagesOf], by simp [init, held, messagesOf],
    by simp [init]⟩,
    ⟨?_, ?_, ?_, ?_, ?_, ?_, rfl, rfl, fun _ => rfl, fun _ => ⟨rfl, rfl, rfl, rfl⟩⟩⟩
  all_goals simp [init]

theorem sound_run (cfg : SenderConfig) (events : List SenderEvent) :
    Owned (run cfg init events) ∧ Shaped cfg (run cfg init events) := by
  induction events using List.reverseRecOn with
  | nil => exact sound_init
  | append_singleton events e ih =>
    rw [run, List.foldl_append]
    obtain ⟨⟨gained, hmove, hid⟩, hshape⟩ := ih.2.step e
    exact ⟨ih.1.moves hmove hid, hshape⟩

end Connection

end Vantage.ReliableSender
