import Vantage.Lib.Table
import Mathlib.Data.List.Infix

/-!
# The replay sender

Callers of `try_send` reserve the bytes of a stream against a common bound and then put it into a
bounded channel, or give the reservation back; one task takes streams out of the channel, sends one
chunk of the first stream at a time, rotates through the unfinished ones, and releases the bytes of
a stream after its closing frame.

* `ReplaySender.step`: every access to the shared counter, the channel and the markers of live
  streams is a step of its own, so runs of `step` are the interleavings of the callers and the
  task.  The marker of a stream is set when it is offered and removed by whoever ends it.
-/

namespace Vantage

variable {P M F : Type}

/-- A replay for one peer, with the bytes reserved for it. -/
structure ReplaySend (P M F : Type) where
  peer : P
  generation : ℕ
  msgs : List M
  done : F
  reservedBytes : ℕ
  reserved_pos : 0 < reservedBytes

/-- A frame of a replay. -/
inductive ReplayFrame (M F : Type)
  | replay (m : M)
  | done (f : F)

def ReplaySend.frames (x : ReplaySend P M F) : List (ReplayFrame M F) :=
  x.msgs.map .replay ++ [.done x.done]

/-- How far a caller has come: it has set the marker, it has reserved, its stream did not fit into
the channel, it holds nothing any more. -/
inductive CallStage
  | offered
  | reserved
  | failed
  | refused
  deriving DecidableEq

def CallStage.holds : CallStage → Bool
  | reserved | failed => true
  | offered | refused => false

/-- The replays under way and the bytes they hold. -/
structure ReplaySender (P M F : Type) where
  reservedBytes : ℕ
  inFlight : Table P ℕ
  nextGeneration : ℕ
  callers : List (CallStage × ReplaySend P M F)
  queue : List (ReplaySend P M F)
  streams : List (ReplaySend P M F)
  /-- The stream whose closing frame is sent and whose bytes are not released yet. -/
  finishing : Option (ReplaySend P M F)
  /-- The frames sent so far, each with the generation of its stream. -/
  sent : List (ℕ × ReplayFrame M F)
  /-- The frames of the streams that were put into the channel, by generation. -/
  admitted : ℕ → Option (List (ReplayFrame M F))

/-- The steps of callers, of the task and of expiry. -/
inductive SenderEvent (P M F : Type)
  | offer (peer : P) (msgs : List M) (done : F)
  | advance (i : ℕ) (room : Bool)
  | expire (peer : P)
  | ingress
  | tick
  | release

namespace ReplaySender

variable [DecidableEq P]

def init : ReplaySender P M F := ⟨0, ∅, 1, [], [], [], none, [], fun _ => none⟩

variable (len : M → ℕ) (doneLen : F → ℕ) (maxReservedBytes chunkBytes : ℕ)

/-- Addition of machine words that stops at the largest one. -/
def saturatingAdd (a b : ℕ) : ℕ := min (a + b) (2 ^ 64 - 1)

def replayReservedSize (msgs : List M) (done : F) : ℕ :=
  max (saturatingAdd (msgs.foldl (fun total m => saturatingAdd total (len m)) 0) (doneLen done)) 1

def takeReplayChunk : ℕ → List M → List M × List M
  | _, [] => ([], [])
  | sent, m :: msgs =>
    if sent < chunkBytes then
      let (chunk, left) := takeReplayChunk (saturatingAdd sent (len m)) msgs
      (m :: chunk, left)
    else ([], m :: msgs)

/-- The marker goes only if it still is that of the generation. -/
def removeInFlightGeneration (inFlight : Table P ℕ) (peer : P) (generation : ℕ) : Table P ℕ :=
  if inFlight.lookup peer = some generation then inFlight.erase peer else inFlight

variable (s : ReplaySender P M F)

def offer (peer : P) (msgs : List M) (done : F) : ReplaySender P M F :=
  { s with
    nextGeneration := s.nextGeneration + 1
    inFlight := s.inFlight.insert peer s.nextGeneration
    callers := s.callers ++ [(.offered,
      ⟨peer, s.nextGeneration, msgs, done, replayReservedSize len doneLen msgs done,
        Nat.lt_of_lt_of_le Nat.zero_lt_one (le_max_right _ _)⟩)] }

/-- The next access of one caller to the shared state. -/
def advance (i : ℕ) (room : Bool) : ReplaySender P M F :=
  match s.callers[i]? with
  | none => s
  | some (.offered, x) =>
    if (s.reservedBytes = 0 ∧ maxReservedBytes < x.reservedBytes) ∨
        s.reservedBytes + x.reservedBytes ≤ maxReservedBytes then
      { s with
        reservedBytes := s.reservedBytes + x.reservedBytes
        callers := s.callers.set i (.reserved, x) }
    else { s with callers := s.callers.set i (.refused, x) }
  | some (.reserved, x) =>
    if room then
      { s with
        callers := s.callers.eraseIdx i
        queue := s.queue ++ [x]
        admitted := Function.update s.admitted x.generation (some x.frames) }
    else { s with callers := s.callers.set i (.failed, x) }
  | some (.failed, x) =>
    { s with
      reservedBytes := s.reservedBytes - x.reservedBytes
      callers := s.callers.set i (.refused, x) }
  | some (.refused, x) =>
    { s with
      callers := s.callers.eraseIdx i
      inFlight := removeInFlightGeneration s.inFlight x.peer x.generation }

def ingress : ReplaySender P M F :=
  match s.finishing, s.queue with
  | none, x :: queue => { s with queue, streams := s.streams ++ [x] }
  | _, _ => s

def tick : ReplaySender P M F :=
  match s.finishing, s.streams with
  | none, x :: streams =>
    let (chunk, left) := takeReplayChunk len (max chunkBytes 1) 0 x.msgs
    let sent := s.sent ++ chunk.map fun m => (x.generation, .replay m)
    if left = [] then
      { s with
        streams
        sent := sent ++ [(x.generation, .done x.done)]
        inFlight := removeInFlightGeneration s.inFlight x.peer x.generation
        finishing := some x }
    else { s with sent, streams := streams ++ [{ x with msgs := left }] }
  | _, _ => s

def release : ReplaySender P M F :=
  match s.finishing with
  | none => s
  | some x => { s with reservedBytes := s.reservedBytes - x.reservedBytes, finishing := none }

def step : SenderEvent P M F → ReplaySender P M F
  | .offer peer msgs done => s.offer len doneLen peer msgs done
  | .advance i room => s.advance maxReservedBytes i room
  | .expire peer => { s with inFlight := s.inFlight.erase peer }
  | .ingress => s.ingress
  | .tick => s.tick len chunkBytes
  | .release => s.release

def run (events : List (SenderEvent P M F)) : ReplaySender P M F :=
  events.foldl (step len doneLen maxReservedBytes chunkBytes) s

variable {len doneLen maxReservedBytes chunkBytes s}

/-! ### What a caller does -/

/-- The outcomes of one access, with the caller singled out. -/
inductive Advances (maxReservedBytes : ℕ) (s : ReplaySender P M F) : ReplaySender P M F → Prop
  | stay : Advances maxReservedBytes s s
  | reserve {a b x} (h : s.callers = a ++ (.offered, x) :: b)
      (hfits : (s.reservedBytes = 0 ∧ maxReservedBytes < x.reservedBytes) ∨
        s.reservedBytes + x.reservedBytes ≤ maxReservedBytes) :
      Advances maxReservedBytes s
        { s with
          reservedBytes := s.reservedBytes + x.reservedBytes
          callers := a ++ (.reserved, x) :: b }
  | refuse {a b x} (h : s.callers = a ++ (.offered, x) :: b) :
      Advances maxReservedBytes s { s with callers := a ++ (.refused, x) :: b }
  | enqueue {a b x} (h : s.callers = a ++ (.reserved, x) :: b) :
      Advances maxReservedBytes s
        { s with
          callers := a ++ b
          queue := s.queue ++ [x]
          admitted := Function.update s.admitted x.generation (some x.frames) }
  | fail {a b x} (h : s.callers = a ++ (.reserved, x) :: b) :
      Advances maxReservedBytes s { s with callers := a ++ (.failed, x) :: b }
  | rollBack {a b x} (h : s.callers = a ++ (.failed, x) :: b) :
      Advances maxReservedBytes s
        { s with
          reservedBytes := s.reservedBytes - x.reservedBytes
          callers := a ++ (.refused, x) :: b }
  | leave {a b x} (h : s.callers = a ++ (.refused, x) :: b) :
      Advances maxReservedBytes s
        { s with
          callers := a ++ b
          inFlight := removeInFlightGeneration s.inFlight x.peer x.generation }

theorem advances (i : ℕ) (room : Bool) :
    Advances maxReservedBytes s (s.advance maxReservedBytes i room) := by
  unfold advance
  cases hi : s.callers[i]? with
  | none => exact .stay
  | some c =>
    obtain ⟨hlt, hget⟩ := List.getElem?_eq_some_iff.mp hi
    have hsplit : s.callers = s.callers.take i ++ c :: s.callers.drop (i + 1) := by
      rw [← hget, List.getElem_cons_drop, List.take_append_drop]
    have hset : ∀ c', s.callers.set i c' = s.callers.take i ++ c' :: s.callers.drop (i + 1) := by
      intro c'
      rw [List.set_eq_take_append_cons_drop, if_pos hlt]
    have herase := List.eraseIdx_eq_take_drop_succ s.callers i
    obtain ⟨stage, x⟩ := c
    cases stage with
    | offered =>
      simp only [hset]
      split
      · next hfits => exact .reserve hsplit hfits
      · exact .refuse hsplit
    | reserved =>
      simp only [hset, herase]
      split
      · exact .enqueue hsplit
      · exact .fail hsplit
    | failed =>
      simp only [hset]
      exact .rollBack hsplit
    | refused =>
      simp only [herase]
      exact .leave hsplit

/-! ### Accounting -/

def charge (c : CallStage × ReplaySend P M F) : ℕ := if c.1.holds then c.2.reservedBytes else 0

def callerBytes (s : ReplaySender P M F) : ℕ := (s.callers.map charge).sum

def admittedBytes (s : ReplaySender P M F) : ℕ :=
  (s.queue.map ReplaySend.reservedBytes).sum + (s.streams.map ReplaySend.reservedBytes).sum +
    s.finishing.elim 0 ReplaySend.reservedBytes

def holders (s : ReplaySender P M F) : ℕ :=
  (s.callers.countP fun c => c.1.holds) + s.queue.length + s.streams.length +
    s.finishing.elim 0 fun _ => 1

omit [DecidableEq P] in
theorem length_le_sum (l : List (ReplaySend P M F)) :
    l.length ≤ (l.map ReplaySend.reservedBytes).sum := by
  induction l with
  | nil => exact le_rfl
  | cons x l ih =>
    have := x.reserved_pos
    simp only [List.length_cons, List.map_cons, List.sum_cons]
    omega

omit [DecidableEq P] in
theorem countP_le_sum (l : List (CallStage × ReplaySend P M F)) :
    (l.countP fun c => c.1.holds) ≤ (l.map charge).sum := by
  induction l with
  | nil => exact le_rfl
  | cons c l ih =>
    have := c.2.reserved_pos
    rw [List.countP_cons, List.map_cons, List.sum_cons, charge]
    split <;> omega

omit [DecidableEq P] in
theorem holders_le (s : ReplaySender P M F) : s.holders ≤ s.callerBytes + s.admittedBytes := by
  have h₁ := countP_le_sum s.callers
  have h₂ := length_le_sum s.queue
  have h₃ := length_le_sum s.streams
  have h₄ : (s.finishing.elim 0 fun _ => 1) ≤ s.finishing.elim 0 ReplaySend.reservedBytes := by
    cases s.finishing with
    | none => exact le_rfl
    | some x => exact x.reserved_pos
  unfold holders callerBytes admittedBytes
  omega

omit [DecidableEq P] in
theorem callerBytes_eq_zero (h : ∀ c ∈ s.callers, c.1.holds = false) : s.callerBytes = 0 := by
  refine List.sum_eq_zero fun n hn => ?_
  obtain ⟨c, hc, rfl⟩ := List.mem_map.mp hn
  simp [charge, h c hc]

omit [DecidableEq P] in
theorem holders_pos (h : 0 < s.callerBytes + s.admittedBytes) : 0 < s.holders := by
  by_contra hn
  have hzero : s.holders = 0 := Nat.eq_zero_of_not_pos hn
  simp only [holders, Nat.add_eq_zero_iff, List.countP_eq_zero, List.length_eq_zero_iff] at hzero
  obtain ⟨⟨⟨hc, hq⟩, hst⟩, hf⟩ := hzero
  have hf : s.finishing = none := by
    cases hx : s.finishing with
    | none => rfl
    | some x =>
      rw [hx] at hf
      cases hf
  rw [callerBytes_eq_zero fun c hcm => by simpa using hc c hcm, admittedBytes, hq, hst, hf] at h
  exact lt_irrefl _ h

/-- The counter is the sum of what is held, and passes the bound for a single holder only. -/
structure Accounted (maxReservedBytes : ℕ) (s : ReplaySender P M F) : Prop where
  exact : s.reservedBytes = s.callerBytes + s.admittedBytes
  bound : s.reservedBytes ≤ maxReservedBytes ∨ s.holders ≤ 1

omit [DecidableEq P] in
theorem Accounted.of_le {s' : ReplaySender P M F} (h : Accounted maxReservedBytes s)
    (he : s'.reservedBytes = s'.callerBytes + s'.admittedBytes)
    (hb : s'.reservedBytes ≤ s.reservedBytes) (hh : s'.holders ≤ s.holders) :
    Accounted maxReservedBytes s' :=
  ⟨he, h.bound.imp hb.trans hh.trans⟩

theorem Accounted.advances {s' : ReplaySender P M F} (h : Accounted maxReservedBytes s)
    (ha : Advances maxReservedBytes s s') : Accounted maxReservedBytes s' := by
  have hex := h.exact
  unfold callerBytes admittedBytes at hex
  cases ha with
  | stay => exact h
  | @reserve a b x hc hfits =>
    have hle := s.holders_le
    rw [← h.exact] at hle
    have hholders : holders { s with
        reservedBytes := s.reservedBytes + x.reservedBytes
        callers := a ++ (.reserved, x) :: b } = s.holders + 1 := by
      simp [holders, hc, CallStage.holds]
      omega
    refine ⟨?_, ?_⟩
    · simp [hc, charge, CallStage.holds] at hex
      simp [callerBytes, admittedBytes, charge, CallStage.holds]
      omega
    · rw [hholders]
      simp only
      omega
  | refuse hc =>
    refine h.of_le ?_ le_rfl ?_
    · simpa [callerBytes, admittedBytes, charge, CallStage.holds, hc] using hex
    · simp [holders, hc, CallStage.holds]
  | enqueue hc =>
    refine h.of_le ?_ le_rfl ?_
    · simp [hc, charge, CallStage.holds] at hex
      simp [callerBytes, admittedBytes]
      omega
    · simp [holders, hc, CallStage.holds]
      omega
  | fail hc =>
    refine h.of_le ?_ le_rfl ?_
    · simpa [callerBytes, admittedBytes, charge, CallStage.holds, hc] using hex
    · simp [holders, hc, CallStage.holds]
  | rollBack hc =>
    refine h.of_le ?_ (Nat.sub_le _ _) ?_
    · simp [hc, charge, CallStage.holds] at hex
      simp [callerBytes, admittedBytes, charge, CallStage.holds]
      omega
    · simp [holders, hc, CallStage.holds]
  | leave hc =>
    refine h.of_le ?_ le_rfl ?_
    · simpa [callerBytes, admittedBytes, charge, CallStage.holds, hc] using hex
    · simp [holders, hc, CallStage.holds]

variable (len chunkBytes) in
theorem tick_cases (s : ReplaySender P M F) :
    ((∃ x, s.finishing = some x) ∨ s.streams = []) ∧ s.tick len chunkBytes = s ∨
    ∃ x streams chunk left, s.finishing = none ∧ s.streams = x :: streams ∧
      x.msgs = chunk ++ left ∧ (left ≠ [] → left.length < x.msgs.length) ∧
      (left = [] ∧ s.tick len chunkBytes =
          { s with
            streams
            sent := s.sent ++ x.frames.map fun f => (x.generation, f)
            inFlight := removeInFlightGeneration s.inFlight x.peer x.generation
            finishing := some x } ∨
        left ≠ [] ∧ s.tick len chunkBytes =
          { s with
            sent := s.sent ++ chunk.map fun m => (x.generation, .replay m)
            streams := streams ++ [{ x with msgs := left }] }) := by
  have happend : ∀ sent (msgs : List M), (takeReplayChunk len (max chunkBytes 1) sent msgs).1 ++
      (takeReplayChunk len (max chunkBytes 1) sent msgs).2 = msgs := by
    intro sent msgs
    induction msgs generalizing sent with
    | nil => rfl
    | cons m msgs ih =>
      unfold takeReplayChunk
      split
      · simp [ih]
      · rfl
  have hprogress : ∀ msgs : List M, msgs ≠ [] →
      (takeReplayChunk len (max chunkBytes 1) 0 msgs).2.length < msgs.length := by
    intro msgs hne
    obtain ⟨m, msgs, rfl⟩ := List.exists_cons_of_ne_nil hne
    have hpos : 0 < max chunkBytes 1 := Nat.lt_of_lt_of_le Nat.zero_lt_one (le_max_right _ _)
    have h := congrArg List.length (happend (saturatingAdd 0 (len m)) msgs)
    rw [List.length_append] at h
    simp only [takeReplayChunk, hpos, if_true, List.length_cons]
    omega
  unfold tick
  split
  · next x streams hf hst =>
    refine .inr ⟨x, streams, _, _, hf, hst, (happend 0 x.msgs).symm,
      fun hne => hprogress x.msgs fun hx => hne (by simp [hx, takeReplayChunk]), ?_⟩
    by_cases hleft : (takeReplayChunk len (max chunkBytes 1) 0 x.msgs).2 = []
    · refine .inl ⟨hleft, ?_⟩
      have hall := happend 0 x.msgs
      rw [hleft, List.append_nil] at hall
      simp only [hleft, if_true, hall, ReplaySend.frames, List.map_append, List.map_map]
      rw [List.append_assoc]
      rfl
    · exact .inr ⟨hleft, by simp only [hleft, if_false]⟩
  · next hidle =>
    refine .inl ⟨?_, rfl⟩
    cases hf : s.finishing with
    | some x => exact .inl ⟨x, rfl⟩
    | none =>
      refine .inr ?_
      cases hst : s.streams with
      | nil => rfl
      | cons x streams => exact (hidle x streams hf hst).elim

theorem Accounted.step (h : Accounted maxReservedBytes s) (e : SenderEvent P M F) :
    Accounted maxReservedBytes (s.step len doneLen maxReservedBytes chunkBytes e) := by
  have hex := h.exact
  unfold callerBytes admittedBytes at hex
  cases e with
  | offer peer msgs done =>
    refine h.of_le ?_ le_rfl ?_
    · simpa [ReplaySender.step, ReplaySender.offer, callerBytes, admittedBytes, charge,
        CallStage.holds] using hex
    · simp [ReplaySender.step, ReplaySender.offer, holders, CallStage.holds]
  | advance i room => exact h.advances (ReplaySender.advances i room)
  | expire peer => exact ⟨h.exact, h.bound⟩
  | ingress =>
    unfold ReplaySender.step ReplaySender.ingress
    simp only
    split
    · next x queue hf hq =>
      simp only [hf, hq, List.map_cons, List.sum_cons, Option.elim_none] at hex
      refine h.of_le ?_ le_rfl ?_
      · simp [callerBytes, admittedBytes, hf]
        omega
      · simp [holders, hf, hq]
        omega
    · exact h
  | tick =>
    unfold ReplaySender.step
    simp only
    obtain ⟨-, ht⟩ | ⟨x, streams, chunk, left, hf, hs, -, -, ⟨-, ht⟩ | ⟨-, ht⟩⟩ :=
      s.tick_cases len chunkBytes
    · rwa [ht]
    all_goals
      rw [ht]
      simp only [hf, hs, List.map_cons, List.sum_cons, Option.elim_none] at hex
      refine h.of_le ?_ le_rfl ?_
      · simp [callerBytes, admittedBytes, hf]
        omega
      · simp only [holders, hf, hs, List.length_cons, List.length_append, List.length_nil,
          Option.elim_none, Option.elim_some]
        omega
  | release =>
    unfold ReplaySender.step ReplaySender.release
    simp only
    split
    · exact h
    · next x hf =>
      simp only [hf, Option.elim_some] at hex
      refine h.of_le ?_ (Nat.sub_le _ _) ?_
      · simp [callerBytes, admittedBytes]
        omega
      · simp [holders, hf]

/-! ### Delivery -/

/-- The frames of one generation, in the order in which they were sent. -/
def framesOf (generation : ℕ) (sent : List (ℕ × ReplayFrame M F)) : List (ReplayFrame M F) :=
  sent.filterMap fun e => if e.1 = generation then some e.2 else none

theorem framesOf_append (g : ℕ) (sent : List (ℕ × ReplayFrame M F)) (g' : ℕ)
    (frames : List (ReplayFrame M F)) : framesOf g (sent ++ frames.map fun f => (g', f)) =
      framesOf g sent ++ if g' = g then frames else [] := by
  rw [framesOf, List.filterMap_append, List.filterMap_map]
  refine congrArg _ ?_
  by_cases h : g' = g
  · simp [h]
  · simp [h]

def generations (s : ReplaySender P M F) : List ℕ :=
  (s.callers.map Prod.snd ++ (s.queue ++ s.streams)).map ReplaySend.generation

/-- What was sent of a generation and what is still to come make up what was admitted. -/
structure Delivered (s : ReplaySender P M F) : Prop where
  nodup : s.generations.Nodup
  below : ∀ g ∈ s.generations, g < s.nextGeneration
  later : ∀ g, s.nextGeneration ≤ g → s.admitted g = none
  calling : ∀ x ∈ s.callers.map Prod.snd, s.admitted x.generation = none
  silent : ∀ g, s.admitted g = none → framesOf g s.sent = []
  rest : ∀ x ∈ s.queue ++ s.streams,
    s.admitted x.generation = some (framesOf x.generation s.sent ++ x.frames)
  done : ∀ g frames, s.admitted g = some frames →
    (∀ x ∈ s.queue ++ s.streams, x.generation ≠ g) → framesOf g s.sent = frames

omit [DecidableEq P] in
theorem Delivered.init : Delivered (init : ReplaySender P M F) where
  nodup := List.nodup_nil
  below _ h := by cases h
  later _ _ := rfl
  calling _ h := by cases h
  silent _ _ := rfl
  rest _ h := by cases h
  done _ _ h := by cases h

omit [DecidableEq P] in
theorem Delivered.of_perm {s' : ReplaySender P M F} (h : Delivered s)
    (hc : ∀ x ∈ s'.callers.map Prod.snd, x ∈ s.callers.map Prod.snd)
    (hp : (s'.queue ++ s'.streams).Perm (s.queue ++ s.streams))
    (hg : s'.generations.Sublist s.generations ∨ s'.generations.Perm s.generations)
    (hn : s'.nextGeneration = s.nextGeneration) (hs : s'.sent = s.sent)
    (ha : s'.admitted = s.admitted) : Delivered s' where
  nodup := hg.elim (fun hg => h.nodup.sublist hg) fun hg => hg.nodup_iff.mpr h.nodup
  below g hmem := hn ▸ h.below g (hg.elim (fun hg => hg.subset hmem) fun hg => hg.subset hmem)
  later g hle := by
    rw [ha]
    exact h.later g (hn ▸ hle)
  calling x hx := by
    rw [ha]
    exact h.calling x (hc x hx)
  silent g hnone := by
    rw [hs]
    exact h.silent g (ha ▸ hnone)
  rest x hx := by
    rw [ha, hs]
    exact h.rest x (hp.subset hx)
  done g frames hsome hne := by
    rw [hs]
    exact h.done g frames (ha ▸ hsome) fun x hx => hne x (hp.symm.subset hx)

theorem Delivered.advances {s' : ReplaySender P M F} (h : Delivered s)
    (ha : Advances maxReservedBytes s s') : Delivered s' := by
  cases ha with
  | stay => exact h
  | reserve hc _ =>
    exact h.of_perm (by simp [hc]) (.refl _) (.inr (by simp [generations, hc])) rfl rfl rfl
  | refuse hc =>
    exact h.of_perm (by simp [hc]) (.refl _) (.inr (by simp [generations, hc])) rfl rfl rfl
  | fail hc =>
    exact h.of_perm (by simp [hc]) (.refl _) (.inr (by simp [generations, hc])) rfl rfl rfl
  | rollBack hc =>
    exact h.of_perm (by simp [hc]) (.refl _) (.inr (by simp [generations, hc])) rfl rfl rfl
  | leave hc =>
    refine h.of_perm (fun x hx => ?_) (.refl _) (.inl ?_) rfl rfl rfl
    · rw [hc]
      simp only [List.map_append, List.map_cons, List.mem_append, List.mem_cons] at hx ⊢
      exact hx.imp_right .inr
    · simp only [generations, hc, List.map_append, List.map_cons, List.append_assoc,
        List.cons_append]
      exact (List.sublist_cons_self _ _).append_left _
  | @enqueue a b x hc =>
    -- the generation of the stream moves from the callers to the channel
    have hperm : s.generations.Perm (x.generation ::
        ((a ++ b).map Prod.snd ++ (s.queue ++ s.streams)).map ReplaySend.generation) := by
      simp only [generations, hc, List.map_append, List.map_cons, List.append_assoc,
        List.cons_append]
      exact List.perm_middle
    obtain ⟨hnew, hnodup⟩ := List.nodup_cons.mp (hperm.nodup_iff.mp h.nodup)
    have hx : s.admitted x.generation = none := h.calling x (by simp [hc])
    have hne : ∀ y ∈ (a ++ b).map Prod.snd ++ (s.queue ++ s.streams),
        y.generation ≠ x.generation := fun y hy he =>
      hnew (he ▸ List.mem_map_of_mem hy)
    have hgen : (generations { s with
        callers := a ++ b
        queue := s.queue ++ [x]
        admitted := Function.update s.admitted x.generation (some x.frames) }).Perm
          s.generations := by
      refine List.Perm.trans ?_ hperm.symm
      simp only [generations, List.map_append, List.map_cons, List.append_assoc,
        List.singleton_append]
      rw [← List.append_assoc, ← List.append_assoc]
      exact List.perm_middle.trans (by simp [List.append_assoc])
    refine ⟨hgen.nodup_iff.mpr h.nodup, fun g hg => h.below g (hgen.subset hg), fun g hg => ?_,
      fun y hy => ?_, fun g hg => ?_, fun y hy => ?_, fun g frames hg hall => ?_⟩
    · have hlt := h.below x.generation (hperm.symm.subset List.mem_cons_self)
      simp only [Function.update_of_ne (show g ≠ x.generation by simp only at hg; omega)]
      exact h.later g hg
    · simp only [Function.update_of_ne (hne y (List.mem_append_left _ hy))]
      refine h.calling y ?_
      rw [hc]
      simp only [List.map_append, List.map_cons, List.mem_append, List.mem_cons] at hy ⊢
      exact hy.imp_right .inr
    · have hgx : g ≠ x.generation := by
        rintro rfl
        simp at hg
      exact h.silent g (by simpa [hgx] using hg)
    · by_cases hyx : y = x
      · subst hyx
        simp [h.silent _ hx]
      · have hy : y ∈ s.queue ++ s.streams := by
          simp only [List.mem_append, List.mem_singleton] at hy ⊢
          tauto
        simp only [Function.update_of_ne (hne y (List.mem_append_right _ hy))]
        exact h.rest y hy
    · have hgx : g ≠ x.generation := fun he => hall x (by simp) he.symm
      refine h.done g frames (by simpa [hgx] using hg) fun y hy => hall y ?_
      simp only [List.mem_append, List.mem_singleton] at hy ⊢
      tauto

theorem Delivered.tick (h : Delivered s) : Delivered (s.tick len chunkBytes) := by
  obtain ⟨-, ht⟩ | ⟨x, streams, chunk, left, -, hst, hmsgs, -, hend⟩ :=
    s.tick_cases len chunkBytes
  · rwa [ht]
  have hperm : s.generations.Perm (x.generation ::
      (s.callers.map Prod.snd ++ (s.queue ++ streams)).map ReplaySend.generation) := by
    simp only [generations, hst, List.map_append, List.map_cons]
    rw [← List.append_assoc, ← List.append_assoc]
    exact List.perm_middle
  obtain ⟨hnew, hnodup⟩ := List.nodup_cons.mp (hperm.nodup_iff.mp h.nodup)
  have hne : ∀ y ∈ s.queue ++ streams, x.generation ≠ y.generation := fun y hy he =>
    hnew (he ▸ List.mem_map_of_mem (List.mem_append_right _ hy))
  have hsub : ∀ y ∈ s.queue ++ streams, y ∈ s.queue ++ s.streams := fun y hy => by
    rw [hst]
    exact (List.mem_append.mp hy).elim (List.mem_append_left _) fun hy =>
      List.mem_append_right _ (List.mem_cons_of_mem _ hy)
  have hx := h.rest x (by simp [hst])
  have hsilent : ∀ g, s.admitted g = none → x.generation ≠ g := by
    rintro g hg rfl
    rw [hx] at hg
    cases hg
  -- the streams that a finished generation must avoid, seen from before the tick
  have hdone : ∀ g frames, s.admitted g = some frames → x.generation ≠ g →
      (∀ y ∈ s.queue ++ streams, y.generation ≠ g) → framesOf g s.sent = frames := by
    intro g frames hg hxg hall
    refine h.done g frames hg fun y hy => ?_
    rw [hst] at hy
    simp only [List.mem_append, List.mem_cons] at hy
    rcases hy with hy | rfl | hy
    · exact hall y (List.mem_append_left _ hy)
    · exact hxg
    · exact hall y (List.mem_append_right _ hy)
  obtain ⟨-, ht⟩ | ⟨-, ht⟩ := hend
  · rw [ht]
    refine ⟨hnodup, fun g hg => h.below g (hperm.symm.subset (List.mem_cons_of_mem _ hg)),
      h.later, h.calling, fun g hg => ?_, fun y hy => ?_, fun g frames hg hall => ?_⟩
    · simp only [framesOf_append, if_neg (hsilent g hg), List.append_nil]
      exact h.silent g hg
    · simp only [framesOf_append, if_neg (hne y hy), List.append_nil]
      exact h.rest y (hsub y hy)
    · rw [framesOf_append]
      by_cases hxg : x.generation = g
      · subst hxg
        simpa using Option.some.inj (hx.symm.trans hg)
      · rw [if_neg hxg, List.append_nil]
        exact hdone g frames hg hxg hall
  · rw [ht]
    let x' : ReplaySend P M F := { x with msgs := left }
    have hframes : x.frames = chunk.map .replay ++ x'.frames := by
      simp [ReplaySend.frames, hmsgs, x']
    have hsent : (chunk.map fun m => (x.generation, ReplayFrame.replay (F := F) m)) =
        (chunk.map .replay).map fun f => (x.generation, f) := by
      rw [List.map_map]
      rfl
    have hgen : (generations { s with
        sent := s.sent ++ chunk.map fun m => (x.generation, .replay m)
        streams := streams ++ [x'] }).Perm s.generations := by
      refine List.Perm.trans ?_ hperm.symm
      simp only [generations, List.map_append, List.map_cons, List.map_nil, x']
      rw [← List.append_assoc, ← List.append_assoc]
      exact List.perm_append_singleton _ _ |>.trans (by simp [List.append_assoc])
    refine ⟨hgen.nodup_iff.mpr h.nodup, fun g hg => h.below g (hgen.subset hg), h.later,
      h.calling, fun g hg => ?_, fun y hy => ?_, fun g frames hg hall => ?_⟩
    · simp only [hsent, framesOf_append, if_neg (hsilent g hg), List.append_nil]
      exact h.silent g hg
    · simp only [hsent, framesOf_append]
      simp only [← List.append_assoc, List.mem_append (s := s.queue ++ streams),
        List.mem_singleton] at hy
      rcases hy with hy | rfl
      · rw [if_neg (hne y hy), List.append_nil]
        exact h.rest y (hsub y hy)
      · rw [if_pos rfl, List.append_assoc, ← hframes]
        exact hx
    · have hxg : x.generation ≠ g := fun he => hall x' (by simp [x']) he
      simp only [hsent, framesOf_append, if_neg hxg, List.append_nil]
      refine hdone g frames hg hxg fun y hy => hall y ?_
      simp only [List.mem_append] at hy ⊢
      tauto

theorem Delivered.step (h : Delivered s) (e : SenderEvent P M F) :
    Delivered (s.step len doneLen maxReservedBytes chunkBytes e) := by
  cases e with
  | offer peer msgs done =>
    let x : ReplaySend P M F := ⟨peer, s.nextGeneration, msgs, done,
      replayReservedSize len doneLen msgs done,
      Nat.lt_of_lt_of_le Nat.zero_lt_one (le_max_right _ _)⟩
    have hperm : (s.offer len doneLen peer msgs done).generations.Perm
        (s.nextGeneration :: s.generations) := by
      simp only [generations, ReplaySender.offer, List.map_append, List.map_cons, List.map_nil,
        List.append_assoc, List.singleton_append]
      exact List.perm_middle
    have hfresh : s.nextGeneration ∉ s.generations := fun hg => lt_irrefl _ (h.below _ hg)
    refine ⟨hperm.nodup_iff.mpr (List.nodup_cons.mpr ⟨hfresh, h.nodup⟩), fun g hg => ?_,
      fun g hg => h.later g (Nat.le_of_succ_le hg), fun y hy => ?_, h.silent, h.rest, h.done⟩
    · rcases List.mem_cons.mp (hperm.subset hg) with rfl | hg
      · exact Nat.lt_succ_self _
      · exact Nat.lt_succ_of_lt (h.below g hg)
    · simp only [ReplaySender.step, ReplaySender.offer, List.map_append, List.map_cons,
        List.map_nil, List.mem_append, List.mem_singleton] at hy
      rcases hy with hy | rfl
      · exact h.calling y hy
      · exact h.later _ le_rfl
  | advance i room => exact h.advances (ReplaySender.advances i room)
  | expire peer => exact ⟨h.1, h.2, h.3, h.4, h.5, h.6, h.7⟩
  | ingress =>
    unfold ReplaySender.step ReplaySender.ingress
    simp only
    split
    · next x queue _ hq =>
      have hp : (queue ++ (s.streams ++ [x])).Perm (s.queue ++ s.streams) := by
        rw [hq, ← List.append_assoc]
        exact List.perm_append_singleton _ _
      exact h.of_perm (fun _ hx => hx) hp (.inr ((hp.append_left _).map _)) rfl rfl rfl
    · exact h
  | tick => exact h.tick
  | release =>
    unfold ReplaySender.step ReplaySender.release
    simp only
    split
    · exact h
    · exact ⟨h.1, h.2, h.3, h.4, h.5, h.6, h.7⟩

theorem invariants (events : List (SenderEvent P M F)) :
    Accounted maxReservedBytes (run len doneLen maxReservedBytes chunkBytes init events) ∧
      Delivered (run len doneLen maxReservedBytes chunkBytes init events) := by
  induction events using List.reverseRecOn with
  | nil => exact ⟨⟨rfl, .inl (Nat.zero_le _)⟩, Delivered.init⟩
  | append_singleton events e ih =>
    rw [run, List.foldl_append]
    exact ⟨ih.1.step e, ih.2.step e⟩

/-! ### Draining -/

/-- The steps that the task still has to take: one to take a stream in, at most one for each
message and one for the closing frame, and one to release it. -/
def work (s : ReplaySender P M F) : ℕ :=
  (s.queue.map fun x => x.msgs.length + 3).sum + (s.streams.map fun x => x.msgs.length + 2).sum +
    s.finishing.elim 0 fun _ => 1

/-- What the task does next if no new stream is put into the channel. -/
def nextOfTask (s : ReplaySender P M F) : SenderEvent P M F :=
  match s.finishing, s.streams with
  | some _, _ => .release
  | none, _ :: _ => .tick
  | none, [] => .ingress

theorem work_step (hw : 0 < s.work) :
    (s.step len doneLen maxReservedBytes chunkBytes s.nextOfTask).work < s.work ∧
      (s.step len doneLen maxReservedBytes chunkBytes s.nextOfTask).admitted = s.admitted := by
  unfold nextOfTask
  split
  · next x _ hf => simp [step, release, work, hf]
  · next y streams' hf hst =>
    obtain ⟨⟨z, hz⟩ | hnil, -⟩ | ⟨x, streams, chunk, left, -, hst', -, hleft, hend⟩ :=
      s.tick_cases len chunkBytes
    · rw [hf] at hz
      cases hz
    · rw [hst] at hnil
      cases hnil
    · obtain ⟨-, ht⟩ | ⟨hne, ht⟩ := hend
      · simp [step, ht, work, hf, hst']
        omega
      · have hlt := hleft hne
        simp [step, ht, work, hf, hst']
        omega
  · next hf hst =>
    cases hq : s.queue with
    | nil => simp [work, hf, hst, hq] at hw
    | cons x queue =>
      simp [step, ingress, work, hf, hst, hq]
      omega

omit [DecidableEq P] in
theorem eq_nil_of_work (h : s.work = 0) :
    s.queue = [] ∧ s.streams = [] ∧ s.finishing = none := by
  cases hq : s.queue with
  | cons x queue => simp [work, hq] at h
  | nil =>
    cases hst : s.streams with
    | cons x streams => simp [work, hst] at h
    | nil =>
      cases hf : s.finishing with
      | some x => simp [work, hf] at h
      | none => exact ⟨rfl, rfl, rfl⟩

/-- The task by itself finishes whatever was admitted. -/
theorem drained (s : ReplaySender P M F) : ∃ events : List (SenderEvent P M F),
    (∀ e ∈ events, e = .ingress ∨ e = .tick ∨ e = .release) ∧
      (run len doneLen maxReservedBytes chunkBytes s events).work = 0 ∧
      (run len doneLen maxReservedBytes chunkBytes s events).admitted = s.admitted := by
  generalize hn : s.work = n
  induction n using Nat.strong_induction_on generalizing s with
  | _ n ih =>
    rcases Nat.eq_zero_or_pos n with rfl | hpos
    · exact ⟨[], by simp, hn, rfl⟩
    · let t := s.step len doneLen maxReservedBytes chunkBytes s.nextOfTask
      obtain ⟨hlt, hadm⟩ : t.work < s.work ∧ t.admitted = s.admitted := work_step (hn ▸ hpos)
      obtain ⟨events, hev, hw, ha⟩ := ih _ (hn ▸ hlt) _ rfl
      refine ⟨s.nextOfTask :: events, fun e he => ?_, hw, ha.trans hadm⟩
      rcases List.mem_cons.mp he with rfl | he
      · unfold nextOfTask
        split <;> simp
      · exact hev e he

/-- In every interleaving the counter is the sum of the sizes of the admitted streams that are not
completed and of the reservations of callers in the middle of a call; so it is exact when no caller
is.  It passes the bound only while a single reservation is held.  The frames sent for an admitted
stream are at any time the first ones of its messages followed by its closing frame, none are sent
for other streams, and the task by itself sends all of them and releases all their bytes.  A tick
removes the marker of a live stream only if it completes that very generation. -/
theorem replay_accounting_exact (len : M → ℕ) (doneLen : F → ℕ) (maxReservedBytes chunkBytes : ℕ)
    (events : List (SenderEvent P M F)) :
    let s := run len doneLen maxReservedBytes chunkBytes (init : ReplaySender P M F) events
    s.reservedBytes = s.admittedBytes + s.callerBytes ∧
      ((∀ c ∈ s.callers, c.1.holds = false) → s.reservedBytes = s.admittedBytes) ∧
      (s.reservedBytes ≤ maxReservedBytes ∨ s.holders = 1) ∧
      (∀ g frames, s.admitted g = some frames → framesOf g s.sent <+: frames) ∧
      (∀ g, s.admitted g = none → framesOf g s.sent = []) ∧
      (∃ later : List (SenderEvent P M F), (∀ e ∈ later, e = .ingress ∨ e = .tick ∨ e = .release) ∧
        let t := run len doneLen maxReservedBytes chunkBytes s later
        t.reservedBytes = t.callerBytes ∧
          ∀ g frames, s.admitted g = some frames → framesOf g t.sent = frames) ∧
      ∀ peer g, s.inFlight.lookup peer = some g →
        (s.step len doneLen maxReservedBytes chunkBytes .tick).inFlight.lookup peer = some g ∨
          ∃ x, s.streams.head? = some x ∧ x.peer = peer ∧ x.generation = g := by
  intro s
  obtain ⟨hacc, hdel⟩ : Accounted maxReservedBytes s ∧ Delivered s := invariants events
  refine ⟨by rw [hacc.exact, Nat.add_comm], fun hidle => ?_, ?_, fun g frames hg => ?_,
    hdel.silent, ?_, fun peer g hg => ?_⟩
  · rw [hacc.exact, callerBytes_eq_zero hidle, Nat.zero_add]
  · rcases Nat.eq_zero_or_pos s.reservedBytes with hzero | hpos
    · exact .inl (hzero ▸ Nat.zero_le _)
    · have hone : 0 < s.holders := holders_pos (hacc.exact ▸ hpos)
      exact hacc.bound.imp_right fun hle => Nat.le_antisymm hle hone
  · by_cases hx : ∃ x ∈ s.queue ++ s.streams, x.generation = g
    · obtain ⟨x, hx, rfl⟩ := hx
      rw [hdel.rest x hx, Option.some.injEq] at hg
      exact ⟨x.frames, hg⟩
    · rw [hdel.done g frames hg fun x hx' he => hx ⟨x, hx', he⟩]
  · obtain ⟨later, hev, hwork, hadm⟩ : ∃ later : List (SenderEvent P M F), _ := drained s
    refine ⟨later, hev, ?_⟩
    intro t
    have hrun : t = run len doneLen maxReservedBytes chunkBytes init (events ++ later) :=
      (List.foldl_append ..).symm
    obtain ⟨hacc', hdel'⟩ : Accounted maxReservedBytes t ∧ Delivered t :=
      hrun ▸ invariants (events ++ later)
    obtain ⟨hq, hst, hf⟩ := eq_nil_of_work hwork
    refine ⟨?_, fun g frames hg => hdel'.done g frames (hadm ▸ hg) fun x hx => ?_⟩
    · rw [hacc'.exact, admittedBytes, hq, hst, hf]
      rfl
    · rw [hq, hst] at hx
      cases hx
  · -- only the marker of the completed generation goes
    have hremove : ∀ x : ReplaySend P M F, ¬ (x.peer = peer ∧ x.generation = g) →
        (removeInFlightGeneration s.inFlight x.peer x.generation).lookup peer = some g := by
      intro x hx
      unfold removeInFlightGeneration
      split
      · next hown =>
        have hne : peer ≠ x.peer := by
          rintro rfl
          exact hx ⟨rfl, Option.some.inj (hown.symm.trans hg)⟩
        rw [AList.lookup_erase_ne hne, hg]
      · exact hg
    by_cases hx : ∃ x, s.streams.head? = some x ∧ x.peer = peer ∧ x.generation = g
    · exact .inr hx
    · left
      unfold ReplaySender.step
      obtain ⟨-, ht⟩ | ⟨x, streams, chunk, left, -, hst, -, -, ⟨-, ht⟩ | ⟨-, ht⟩⟩ :=
        s.tick_cases len chunkBytes
      · simpa only [ht] using hg
      · simp only [ht]
        exact hremove x fun hpg => hx ⟨x, by rw [hst]; rfl, hpg⟩
      · simpa only [ht] using hg

/-- A caller has reserved seven bytes and found the channel full, but has not given them back yet:
no stream is admitted, and none of this call ever is. -/
theorem reserved_without_stream :
    let s := run (id : ℕ → ℕ) id 100 10 (init : ReplaySender Unit ℕ ℕ)
      [.offer () [2, 4] 1, .advance 0 true, .advance 0 false]
    let later := run (id : ℕ → ℕ) id 100 10 s [.advance 0 true, .advance 0 true]
    s.reservedBytes = 7 ∧ s.admittedBytes = 0 ∧ later.reservedBytes = 0 ∧
      later.callers.length = 0 ∧ (later.admitted 1).isNone = true := by
  decide +kernel

end ReplaySender

end Vantage
