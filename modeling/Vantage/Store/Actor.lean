import Mathlib.Algebra.BigOperators.Group.List.Basic
import Mathlib.Logic.Function.Basic
import Vantage.Lib.Handler
import Vantage.Lib.Table

/-!
# The store actor

One task owns the database. Writes are staged in an overlay that reads consult first, the overlay
is flushed by a timer or when it holds too many bytes, and readers that ask to be notified of a
missing key wait until it is written.

The database is a correct map: a batch puts its entries over what was stored. A reply goes to the
channel of the command it answers, and channels are numbered.
-/

namespace Vantage

namespace StoreActor

/-- The bytes of a key. -/
abbrev Key : Type := List UInt8

/-- The bytes of a value. -/
abbrev Value : Type := List UInt8

/-- The staged bytes at which a write triggers a flush. -/
def maxPendingBytes : ℕ := 32 * 1024 * 1024

/-- What reaches the actor. -/
inductive StoreCommand
  | write (key : Key) (value : Value)
  | writeMany (entries : List (Key × Value))
  | read (key : Key) (sender : ℕ)
  | readMany (keys : List Key) (sender : ℕ)
  | notifyRead (key : Key) (sender : ℕ)
  deriving DecidableEq

/-- One turn of the loop: a command, or the flush timer. -/
inductive Event
  | command (c : StoreCommand)
  | tick
  deriving DecidableEq

/-- What the actor answers. -/
inductive Reply
  | read (sender : ℕ) (value : Option Value)
  | readMany (sender : ℕ) (values : List (Option Value))
  | notified (sender : ℕ) (value : Value)
  deriving DecidableEq

/-- The overlay with its byte counter, the database and the waiting readers of each key. -/
structure State where
  pending : Table Key Value
  pendingBytes : ℕ
  db : Key → Option Value
  obligations : Table Key (List ℕ)

def State.open (db : Key → Option Value) : State := ⟨∅, 0, db, ∅⟩

/-! ### The loop -/

def flushPending (s : State) : State :=
  if s.pending.keys = [] then s
  else
    { s with
      pending := ∅
      pendingBytes := 0
      db := fun key => (s.pending.lookup key).or (s.db key) }

/-- Add one write to the overlay and resolve the waiters of its key. -/
def stageWrite (key : Key) (value : Value) : Handler State Reply := fun s =>
  ({ s with
      obligations := s.obligations.erase key
      pending := s.pending.insert key value
      pendingBytes := s.pendingBytes -
        (s.pending.lookup key).elim 0 (fun previous => key.length + previous.length) +
        (key.length + value.length) },
    ((s.obligations.lookup key).getD []).map (Reply.notified · value))

def flushIfFull (s : State) : State :=
  if maxPendingBytes ≤ s.pendingBytes then flushPending s else s

def write (key : Key) (value : Value) : Handler State Reply :=
  (stageWrite key value).seq (Handler.modify flushIfFull)

def get (s : State) (key : Key) : Option Value :=
  match s.pending.lookup key with
  | some value => some value
  | none => s.db key

def misses (pending : Table Key Value) : ℕ → List Key → List (ℕ × Key)
  | _, [] => []
  | i, key :: keys =>
    match pending.lookup key with
    | some _ => misses pending (i + 1) keys
    | none => (i, key) :: misses pending (i + 1) keys

/-- Answer a batch from the overlay and fill the missing positions from the database. -/
def getMany (s : State) (keys : List Key) : List (Option Value) :=
  (misses s.pending 0 keys).foldl (fun out miss => out.set miss.1 (s.db miss.2))
    (keys.map fun key => s.pending.lookup key)

/-- Answer a reader of a present key at once and let the others wait. -/
def notifyRead (key : Key) (sender : ℕ) : Handler State Reply := fun s =>
  match get s key with
  | some value => (s, [.notified sender value])
  | none =>
    ({ s with
        obligations := s.obligations.insert key
          ((s.obligations.lookup key).getD [] ++ [sender]) }, [])

def step : Event → Handler State Reply
  | .command (.write key value) => write key value
  | .command (.writeMany entries) => Handler.forEach entries fun e => write e.1 e.2
  | .command (.read key sender) => fun s => (s, [.read sender (get s key)])
  | .command (.readMany keys sender) => fun s => (s, [.readMany sender (getMany s keys)])
  | .command (.notifyRead key sender) => notifyRead key sender
  | .tick => Handler.modify flushPending

/-- A run of the actor from an existing database, with everything it answers. -/
def run (db : Key → Option Value) (events : List Event) : State × List Reply :=
  Handler.forEach events step (State.open db)

/-! ### The watched map -/

/-- A map with readers that wait for keys. -/
structure Watched where
  current : Key → Option Value
  waiting : Key → List ℕ

namespace Watched

def write (key : Key) (value : Value) : Handler Watched Reply := fun w =>
  (⟨Function.update w.current key (some value), Function.update w.waiting key []⟩,
    (w.waiting key).map (Reply.notified · value))

def notifyRead (key : Key) (sender : ℕ) : Handler Watched Reply := fun w =>
  match w.current key with
  | some value => (w, [.notified sender value])
  | none =>
    ({ w with waiting := Function.update w.waiting key (w.waiting key ++ [sender]) }, [])

def step : Event → Handler Watched Reply
  | .command (.write key value) => write key value
  | .command (.writeMany entries) => Handler.forEach entries fun e => write e.1 e.2
  | .command (.read key sender) => fun w => (w, [.read sender (w.current key)])
  | .command (.readMany keys sender) => fun w => (w, [.readMany sender (keys.map w.current)])
  | .command (.notifyRead key sender) => notifyRead key sender
  | .tick => Handler.skip

def run (db : Key → Option Value) (events : List Event) : Watched × List Reply :=
  Handler.forEach events step ⟨db, fun _ => []⟩

end Watched

/-! ### The bytes of the overlay -/

def entryBytes (entries : List (Sigma fun _ : Key => Value)) : ℕ :=
  (entries.map fun e => e.1.length + e.2.length).sum

def overlayBytes (pending : Table Key Value) : ℕ := entryBytes pending.entries

theorem entryBytes_kerase (key : Key) (entries : List (Sigma fun _ : Key => Value)) :
    entryBytes (entries.kerase key) +
      (entries.dlookup key).elim 0 (fun value => key.length + value.length) =
      entryBytes entries := by
  induction entries with
  | nil => rfl
  | cons e entries ih =>
    obtain ⟨k, value⟩ := e
    by_cases hk : key = k
    · subst hk
      have hkerase : List.kerase key (⟨key, value⟩ :: entries) = entries := List.kerase_cons_eq rfl
      rw [hkerase, List.dlookup_cons_eq]
      simp only [entryBytes, List.map_cons, List.sum_cons, Option.elim_some]
      omega
    · rw [List.kerase_cons_ne hk, List.dlookup_cons_ne _ _ hk]
      simp only [entryBytes, List.map_cons, List.sum_cons] at ih ⊢
      omega

theorem overlayBytes_insert (pending : Table Key Value) (key : Key) (value : Value) :
    overlayBytes (pending.insert key value) = overlayBytes pending -
      (pending.lookup key).elim 0 (fun previous => key.length + previous.length) +
      (key.length + value.length) := by
  have h := entryBytes_kerase key pending.entries
  have hins : overlayBytes (pending.insert key value) =
      key.length + value.length + entryBytes (pending.entries.kerase key) := by
    rw [overlayBytes, AList.entries_insert]
    simp [entryBytes]
  rw [hins, overlayBytes, AList.lookup]
  omega

/-! ### Refinement -/

/-- The actor holds the watched map; no key is both present and awaited. -/
structure Refines (s : State) (w : Watched) : Prop where
  current : ∀ key, w.current key = (s.pending.lookup key).or (s.db key)
  waiting : ∀ key, w.waiting key = (s.obligations.lookup key).getD []
  missing : ∀ key, w.waiting key ≠ [] → w.current key = none
  bytes : s.pendingBytes = overlayBytes s.pending

variable {s : State} {w : Watched}

theorem get_eq_or (s : State) (key : Key) : get s key = (s.pending.lookup key).or (s.db key) := by
  unfold get
  cases s.pending.lookup key <;> rfl

theorem Refines.flushPending (h : Refines s w) : Refines (flushPending s) w := by
  unfold StoreActor.flushPending
  split
  · exact h
  · exact ⟨fun key => by rw [h.current, AList.lookup_empty, Option.none_or], h.waiting, h.missing,
      rfl⟩

theorem write_simulates (key : Key) (value : Value) :
    Handler.Simulates Refines (write key value) (Watched.write key value) := by
  intro s w h
  have hstage : Refines (stageWrite key value s).1 (Watched.write key value w).1 := by
    refine ⟨fun k => ?_, fun k => ?_, fun k hk => ?_, ?_⟩
    · by_cases hkey : k = key
      · subst hkey
        simp [Watched.write, stageWrite]
      · simp [Watched.write, stageWrite, hkey, AList.lookup_insert_ne hkey, h.current]
    · by_cases hkey : k = key
      · subst hkey
        simp [Watched.write, stageWrite]
      · simp [Watched.write, stageWrite, hkey, AList.lookup_erase_ne hkey, h.waiting]
    · by_cases hkey : k = key
      · subst hkey
        simp [Watched.write] at hk
      · simp only [Watched.write, Function.update_of_ne hkey] at hk ⊢
        exact h.missing k hk
    · rw [stageWrite, overlayBytes_insert, h.bytes]
  constructor
  · change Refines (flushIfFull (stageWrite key value s).1) _
    unfold flushIfFull
    split
    · exact hstage.flushPending
    · exact hstage
  · simp [write, stageWrite, Watched.write, h.waiting]

theorem notifyRead_simulates (key : Key) (sender : ℕ) :
    Handler.Simulates Refines (notifyRead key sender) (Watched.notifyRead key sender) := by
  intro s w h
  unfold notifyRead Watched.notifyRead
  rw [get_eq_or, ← h.current]
  cases hc : w.current key with
  | some value => exact ⟨h, rfl⟩
  | none =>
    refine ⟨⟨h.current, fun k => ?_, fun k hk => ?_, h.bytes⟩, rfl⟩
    · by_cases hkey : k = key
      · subst hkey
        simp [h.waiting]
      · simp [hkey, AList.lookup_insert_ne hkey, h.waiting]
    · by_cases hkey : k = key
      · subst hkey
        exact hc
      · simp only [Function.update_of_ne hkey] at hk
        exact h.missing k hk

theorem foldl_misses (s : State) (keys : List Key) (done : List (Option Value)) :
    (misses s.pending done.length keys).foldl (fun out miss => out.set miss.1 (s.db miss.2))
      (done ++ keys.map fun key => s.pending.lookup key) = done ++ keys.map (get s) := by
  induction keys generalizing done with
  | nil => rfl
  | cons key keys ih =>
    have hlen : ∀ value, done.length + 1 = (done ++ [value] : List (Option Value)).length := by simp
    have hsplit : ∀ (value : Option Value) (rest : List (Option Value)),
        done ++ value :: rest = done ++ [value] ++ rest := by simp
    cases hl : s.pending.lookup key with
    | some value =>
      have hget : get s key = some value := by rw [get, hl]
      rw [misses, hl, List.map_cons, List.map_cons, hl, hget, hsplit, hlen (some value), ih,
        ← hsplit]
    | none =>
      have hget : get s key = s.db key := by rw [get, hl]
      rw [misses, hl, List.foldl_cons, List.map_cons, List.map_cons, hl, hget]
      have hset : (done ++ none :: keys.map fun key => s.pending.lookup key).set done.length
          (s.db key) = done ++ [s.db key] ++ keys.map fun key => s.pending.lookup key := by
        simp
      rw [hset, hlen (s.db key), ih, ← hsplit]

theorem getMany_eq_map (s : State) (keys : List Key) : getMany s keys = keys.map (get s) :=
  foldl_misses s keys []

/-- One turn of the actor is one turn of the watched map. -/
theorem step_simulates (e : Event) : Handler.Simulates Refines (step e) (Watched.step e) := by
  have hget : ∀ {s w}, Refines s w → get s = w.current := fun h => by
    funext key
    rw [get_eq_or, h.current]
  cases e with
  | tick => exact fun s w h => ⟨h.flushPending, rfl⟩
  | command c =>
    cases c with
    | write key value => exact write_simulates key value
    | writeMany entries => exact .forEach (fun e => write_simulates e.1 e.2) entries
    | read key sender => exact fun s w h => ⟨h, by simp [step, Watched.step, hget h]⟩
    | readMany keys sender =>
      exact fun s w h => ⟨h, by simp [step, Watched.step, getMany_eq_map, hget h]⟩
    | notifyRead key sender => exact notifyRead_simulates key sender

theorem run_refines (db : Key → Option Value) (events : List Event) :
    Refines (run db events).1 (Watched.run db events).1 ∧
      (run db events).2 = (Watched.run db events).2 := by
  refine Handler.Simulates.forEach step_simulates events _ _ ⟨fun key => ?_, fun _ => rfl, ?_, rfl⟩
  · rfl
  · exact fun key h => absurd rfl h

/-! ### What the watched map answers -/

def Event.writes : Event → List (Key × Value)
  | .command (.write key value) => [(key, value)]
  | .command (.writeMany entries) => entries
  | _ => []

/-- The channel of a turn that asks to be notified. -/
def Event.watcher : Event → Option ℕ
  | .command (.notifyRead _ sender) => some sender
  | _ => none

/-- The last value written under a key, or what the database held. -/
def lastWritten (db : Key → Option Value) (events : List Event) (key : Key) : Option Value :=
  (events.flatMap Event.writes).foldl
    (fun value e => if e.1 = key then some e.2 else value) (db key)

def firstWritten (events : List Event) (key : Key) : Option Value :=
  ((events.flatMap Event.writes).find? fun e => decide (e.1 = key)).map Prod.snd

/-- The values sent on a channel that asked to be notified. -/
def notifications (sender : ℕ) (replies : List Reply) : List Value :=
  replies.filterMap fun r =>
    match r with
    | .notified sender' value => if sender' = sender then some value else none
    | _ => none

namespace Watched

theorem notifications_append (sender : ℕ) (r r' : List Reply) :
    notifications sender (r ++ r') = notifications sender r ++ notifications sender r' :=
  List.filterMap_append

theorem notifications_map_notified (sender : ℕ) (value : Value) (waiting : List ℕ) :
    notifications sender (waiting.map (Reply.notified · value)) =
      List.replicate (waiting.count sender) value := by
  induction waiting with
  | nil => rfl
  | cons x xs ih =>
    rw [List.map_cons, notifications, List.filterMap_cons]
    by_cases hx : x = sender
    · simp only [if_pos hx]
      rw [← notifications, ih, hx, List.count_cons_self, List.replicate_succ]
    · simp only [if_neg hx]
      rw [← notifications, ih, List.count_cons_of_ne hx]

theorem current_forEach_write (entries : List (Key × Value)) (w : Watched) (key : Key) :
    (Handler.forEach entries (fun e => write e.1 e.2) w).1.current key =
      entries.foldl (fun value e => if e.1 = key then some e.2 else value) (w.current key) := by
  induction entries generalizing w with
  | nil => rfl
  | cons e entries ih =>
    rw [Handler.forEach, Handler.seq_apply, ih, List.foldl_cons]
    simp only [write, Function.update_apply, eq_comm]

theorem current_step (e : Event) (w : Watched) (key : Key) : (step e w).1.current key =
    e.writes.foldl (fun value e => if e.1 = key then some e.2 else value) (w.current key) := by
  cases e with
  | tick => rfl
  | command c =>
    cases c with
    | write k value => exact current_forEach_write [(k, value)] w key
    | writeMany entries => exact current_forEach_write entries w key
    | read k sender => rfl
    | readMany keys sender => rfl
    | notifyRead k sender =>
      change (notifyRead k sender w).1.current key = w.current key
      unfold notifyRead
      split <;> rfl

theorem current_run (db : Key → Option Value) (events : List Event) (key : Key) :
    (run db events).1.current key = lastWritten db events key := by
  have h : ∀ (events : List Event) (w : Watched),
      (Handler.forEach events step w).1.current key = (events.flatMap Event.writes).foldl
        (fun value e => if e.1 = key then some e.2 else value) (w.current key) := by
    intro events
    induction events with
    | nil => exact fun w => rfl
    | cons e events ih =>
      intro w
      rw [Handler.forEach, Handler.seq_apply, ih, current_step, List.flatMap_cons,
        List.foldl_append]
  exact h events _

/-! ### One waiter -/

/-- The channel waits for `key` once, or not at all. -/
def Waits (w : Watched) (sender : ℕ) (key : Option Key) : Prop :=
  ∀ k, (w.waiting k).count sender = if key = some k then 1 else 0

/-- What is left to wait for after some writes. -/
def stillWaits (entries : List (Key × Value)) (key : Option Key) : Option Key :=
  key.filter fun k => (entries.find? fun e => decide (e.1 = k)).isNone

/-- What a channel that waits for `key` receives from some writes. -/
def received (entries : List (Key × Value)) (key : Option Key) : List Value :=
  (key.bind fun k => (entries.find? fun e => decide (e.1 = k)).map Prod.snd).toList

variable {sender : ℕ} {key : Option Key}

theorem Waits.forEach_write (h : w.Waits sender key) (entries : List (Key × Value)) :
    (Handler.forEach entries (fun e => write e.1 e.2) w).1.Waits sender
        (stillWaits entries key) ∧
      notifications sender (Handler.forEach entries (fun e => write e.1 e.2) w).2 =
        received entries key := by
  induction entries generalizing w key with
  | nil => cases key <;> exact ⟨h, rfl⟩
  | cons e entries ih =>
    obtain ⟨k, value⟩ := e
    rw [Handler.forEach, Handler.seq_apply, notifications_append]
    by_cases hk : key = some k
    · -- this write answers the channel, and nothing later can
      subst hk
      have hw : (write k value w).1.Waits sender none := by
        intro k'
        by_cases hk' : k' = k
        · subst hk'
          simp [write]
        · have := h k'
          simp only [Option.some.injEq, Ne.symm hk', if_false] at this
          simpa [write, hk'] using this
      have hn : notifications sender (write k value w).2 = [value] := by
        rw [write, notifications_map_notified, h k, if_pos rfl, List.replicate_one]
      obtain ⟨h₁, h₂⟩ := ih hw
      have hfind : ((k, value) :: entries).find? (fun e => decide (e.1 = k)) = some (k, value) :=
        List.find?_cons_of_pos (decide_eq_true rfl)
      constructor
      · rw [show stillWaits ((k, value) :: entries) (some k) = stillWaits entries none by
          simp [stillWaits]]
        exact h₁
      · rw [hn, h₂]
        simp [received, hfind]
    · have hw : (write k value w).1.Waits sender key := by
        intro k'
        by_cases hk' : k' = k
        · subst hk'
          simp [write, hk]
        · simpa [write, hk'] using h k'
      have hn : notifications sender (write k value w).2 = [] := by
        rw [write, notifications_map_notified, h k, if_neg hk, List.replicate_zero]
      obtain ⟨h₁, h₂⟩ := ih hw
      have hfind : ∀ k', key = some k' → ((k, value) :: entries).find?
          (fun e => decide (e.1 = k')) = entries.find? fun e => decide (e.1 = k') := by
        intro k' hk'
        refine List.find?_cons_of_neg ?_
        simpa using fun he : k = k' => hk (he ▸ hk')
      cases key with
      | none => exact ⟨h₁, by rw [hn, h₂]; rfl⟩
      | some k' =>
        constructor
        · simpa only [stillWaits, Option.filter_some, hfind k' rfl] using h₁
        · rw [hn, h₂, List.nil_append]
          simp only [received, Option.bind_some, hfind k' rfl]

theorem Waits.step (h : w.Waits sender key) {e : Event} (he : e.watcher ≠ some sender) :
    (Watched.step e w).1.Waits sender (stillWaits e.writes key) ∧
      notifications sender (Watched.step e w).2 = received e.writes key := by
  have hnil : w.Waits sender (stillWaits [] key) ∧ [] = received [] key :=
    h.forEach_write []
  cases e with
  | tick => exact hnil
  | command c =>
    cases c with
    | write k value =>
      have hone := h.forEach_write [(k, value)]
      simp only [Handler.forEach, Handler.seq_apply, Handler.skip_apply, List.append_nil] at hone
      exact hone
    | writeMany entries => exact h.forEach_write entries
    | read k sender' => exact hnil
    | readMany keys sender' => exact hnil
    | notifyRead k sender' =>
      have hne : sender' ≠ sender := fun hs => he (by rw [hs]; rfl)
      change (notifyRead k sender' w).1.Waits sender (stillWaits [] key) ∧
        notifications sender (notifyRead k sender' w).2 = received [] key
      unfold notifyRead
      split
      · refine ⟨hnil.1, ?_⟩
        rw [← hnil.2]
        simp [notifications, hne]
      · refine ⟨fun k' => ?_, hnil.2⟩
        rw [← hnil.1 k']
        by_cases hk' : k' = k
        · subst hk'
          simp [hne]
        · simp [hk']

theorem received_append (entries entries' : List (Key × Value)) :
    received (entries ++ entries') key =
      received entries key ++ received entries' (stillWaits entries key) := by
  cases key with
  | none => rfl
  | some k =>
    simp only [received, stillWaits, Option.bind_some, Option.filter_some, List.find?_append]
    cases hf : entries.find? fun e => decide (e.1 = k) <;> simp

theorem Waits.run {events : List Event} (h : w.Waits sender key)
    (he : ∀ e ∈ events, e.watcher ≠ some sender) :
    notifications sender (Handler.forEach events Watched.step w).2 =
      received (events.flatMap Event.writes) key := by
  induction events generalizing w key with
  | nil => exact (h.forEach_write []).2
  | cons e events ih =>
    obtain ⟨h₁, h₂⟩ := h.step (he e List.mem_cons_self)
    rw [Handler.forEach, Handler.seq_apply, notifications_append, h₂,
      ih h₁ fun e' he' => he e' (List.mem_cons_of_mem _ he'), List.flatMap_cons, received_append]

theorem waits_none_run {events : List Event} (h : w.Waits sender none)
    (he : ∀ e ∈ events, e.watcher ≠ some sender) :
    (Handler.forEach events Watched.step w).1.Waits sender none := by
  induction events generalizing w with
  | nil => exact h
  | cons e events ih =>
    exact ih (h.step (he e List.mem_cons_self)).1 fun e' he' => he e' (List.mem_cons_of_mem _ he')

theorem Waits.notifyRead_run (h : w.Waits sender none) {later : List Event}
    (he : ∀ e ∈ later, e.watcher ≠ some sender) (key : Key) :
    notifications sender (Handler.forEach (.command (.notifyRead key sender) :: later)
      Watched.step w).2 = ((w.current key).or (firstWritten later key)).toList := by
  rw [Handler.forEach, Handler.seq_apply, notifications_append]
  change notifications sender (notifyRead key sender w).2 ++
    notifications sender (Handler.forEach later Watched.step (notifyRead key sender w).1).2 = _
  unfold notifyRead
  cases w.current key with
  | some value =>
    simp only
    rw [h.run he]
    simp [notifications, received]
  | none =>
    have hwait : Waits ⟨w.current, Function.update w.waiting key (w.waiting key ++ [sender])⟩
        sender (some key) := by
      intro k
      have hk := h k
      by_cases hkey : k = key
      · subst hkey
        simpa using hk
      · simpa [hkey, Ne.symm hkey] using hk
    simp only
    rw [hwait.run he]
    rfl

end Watched

/-- The actor answers as the watched map does. A read returns the last value written before it,
a batch of reads in the order of its keys; a reader that asks to be notified receives one value,
at once if the key is present and with the first later write of the key otherwise; and the byte
counter is the size of the unflushed entries. -/
theorem store_refines_watched_map (db : Key → Option Value) (events : List Event) :
    (run db events).2 = (Watched.run db events).2 ∧
      (∀ key sender, (run db (events ++ [.command (.read key sender)])).2 =
        (run db events).2 ++ [.read sender (lastWritten db events key)]) ∧
      (∀ keys sender, (run db (events ++ [.command (.readMany keys sender)])).2 =
        (run db events).2 ++ [.readMany sender (keys.map (lastWritten db events))]) ∧
      (∀ key sender later, (∀ e ∈ events ++ later, e.watcher ≠ some sender) →
        notifications sender
            (run db (events ++ .command (.notifyRead key sender) :: later)).2 =
          ((lastWritten db events key).or (firstWritten later key)).toList) ∧
      (run db events).1.pendingBytes = overlayBytes (run db events).1.pending := by
  have href := run_refines db events
  have hlast : (Watched.run db events).1.current = lastWritten db events := by
    funext key
    exact Watched.current_run db events key
  have hcat : ∀ later, (run db (events ++ later)).2 = (run db events).2 ++
      (Handler.forEach later Watched.step (Watched.run db events).1).2 := by
    intro later
    rw [(run_refines db (events ++ later)).2, href.2, Watched.run, Handler.forEach_append]
    rfl
  refine ⟨href.2, fun key sender => ?_, fun keys sender => ?_, fun key sender later hs => ?_,
    href.1.bytes⟩
  · rw [hcat, ← hlast]
    rfl
  · rw [hcat, ← hlast]
    rfl
  · have hpre : ∀ e ∈ events, e.watcher ≠ some sender := fun e he =>
      hs e (List.mem_append_left _ he)
    have hlater : ∀ e ∈ later, e.watcher ≠ some sender := fun e he =>
      hs e (List.mem_append_right _ he)
    have hidle : (⟨db, fun _ => []⟩ : Watched).Waits sender none := fun k => rfl
    have hbefore : notifications sender (run db events).2 = [] := by
      rw [href.2]
      exact hidle.run hpre
    have hw : (Watched.run db events).1.Waits sender none := Watched.waits_none_run hidle hpre
    rw [hcat, Watched.notifications_append, hbefore, List.nil_append, hw.notifyRead_run hlater,
      hlast]

end StoreActor

end Vantage
