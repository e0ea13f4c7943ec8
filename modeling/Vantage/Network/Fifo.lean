import Vantage.Network.Reliable
import Mathlib.Data.List.Range

/-!
# The order of durable messages

Messages are numbered in the order of the sends, so the durable messages of a session are in order
if their numbers increase.

* `Connection.line`: the durable messages that the session wrote, followed by those that wait, in
  the order in which they will be written.
-/

namespace Vantage.ReliableSender

def BufferedEntry.durableIds (e : BufferedEntry) : List ℕ :=
  (e.messages.filter fun m => m.kind = .durable).map Message.id

theorem BufferedEntry.Shaped.durableIds_of_key {batch : Bool} {e : BufferedEntry}
    (h : e.Shaped batch) (hkey : e.key.isNone = false) : e.durableIds = [] := by
  cases h with
  | durable => cases hkey
  | detached => cases hkey
  | volatile hone hk =>
    simp only [BufferedEntry.durableIds, List.map_eq_nil_iff, List.filter_eq_nil_iff]
    intro m hm
    obtain ⟨key, hv, -⟩ := hk m hm
    simp [hv]

namespace Connection

def durableIds (entries : List BufferedEntry) : List ℕ :=
  entries.flatMap BufferedEntry.durableIds

@[simp] theorem durableIds_nil : durableIds [] = [] := rfl

@[simp] theorem durableIds_cons (e : BufferedEntry) (es : List BufferedEntry) :
    durableIds (e :: es) = e.durableIds ++ durableIds es := rfl

@[simp] theorem durableIds_append (es es' : List BufferedEntry) :
    durableIds (es ++ es') = durableIds es ++ durableIds es' := List.flatMap_append

theorem durableIds_filter (p : BufferedEntry → Bool) (es : List BufferedEntry) :
    (durableIds (es.filter p)).Sublist (durableIds es) := by
  induction es with
  | nil => exact List.Sublist.refl _
  | cons e es ih =>
    rw [List.filter_cons]
    split
    · exact ih.append_left _
    · exact ih.trans (List.sublist_append_right _ _)

theorem durableIds_filter_key {batch : Bool} {es : List BufferedEntry}
    (h : ∀ e ∈ es, e.Shaped batch) :
    durableIds (es.filter fun e => e.key.isNone) = durableIds es := by
  induction es with
  | nil => rfl
  | cons e es ih =>
    rw [List.forall_mem_cons] at h
    rw [List.filter_cons]
    split
    · rw [durableIds_cons, durableIds_cons, ih h.2]
    · next hkey =>
      rw [durableIds_cons, h.1.durableIds_of_key (Bool.eq_false_iff.mpr hkey), ih h.2]
      rfl

variable (s : Connection)

/-- The durable messages that this session still has to write. -/
def waiting : List ℕ :=
  durableIds s.delayQueue ++ (durableIds s.buffer ++ s.durable.map Prod.snd)

def line : List ℕ := durableIds s.written ++ s.waiting

/-- At the end of a session nothing that waits is put in front of a message that was sent before:
no durable message is in the coalescer, and the delay queue or the list of written frames that await
a reply is empty. -/
def Calm (cfg : SenderConfig) : SenderEvent → Prop
  | .lose => s.durable = [] ∧ (s.delayQueue = [] ∨ s.pendingReplies = [])
  | .ack => s.pendingReplies = [] → s.durable = []
  | .pump ok => cfg.delayed = false → ok = false → s.durable = []
  | .release ok => ok = false → s.durable = [] ∧ s.delayQueue.tail = []
  | _ => True

variable {s} {cfg : SenderConfig}

theorem Shaped.calm (hs : Shaped cfg s) (hbatch : cfg.batch = false) (hdelay : cfg.delayed = false)
    (e : SenderEvent) : s.Calm cfg e := by
  have hdur : s.durable = [] := by
    refine List.eq_nil_iff_forall_not_mem.mpr fun c hc => ?_
    simpa [hbatch] using (hs.durable c hc).1
  have hq := hs.immediate hdelay
  cases e <;> simp [Calm, hdur, hq]

theorem line_flushDurable (h : ∀ c ∈ s.durable, c.2 = c.1.id ∧ c.1.kind = .durable) :
    s.flushDurable.line = s.line := by
  have hall : ((s.durable.map Prod.fst).filter fun m => m.kind = .durable) =
      s.durable.map Prod.fst := by
    refine List.filter_eq_self.mpr fun m hm => ?_
    obtain ⟨c, hc, rfl⟩ := List.mem_map.mp hm
    simpa using (h c hc).2
  have hids : s.durableBundle.durableIds = s.durable.map Prod.snd := by
    rw [BufferedEntry.durableIds, durableBundle, hall, List.map_map]
    exact List.map_congr_left fun c hc => (h c hc).1.symm
  simp [line, waiting, flushDurable, hids]

theorem line_flushVolatile (h : ∀ c ∈ s.volatile, c.1.kind = .volatile c.2) :
    s.flushVolatile.line = s.line := by
  have hids : s.volatileBundle.durableIds = [] := by
    simp only [BufferedEntry.durableIds, volatileBundle, List.map_eq_nil_iff,
      List.filter_eq_nil_iff]
    intro m hm
    obtain ⟨c, hc, rfl⟩ := List.mem_map.mp hm
    simp [h c hc]
  simp [line, waiting, flushVolatile, hids]

/-- The place of a message in the order, if it is a durable one. -/
def place (m : Message) : List ℕ := if m.kind = .durable then [m.id] else []

theorem line_onArrival (hs : Shaped cfg s) (m : Message) :
    (s.onArrival cfg m).line = s.line ++ place m := by
  unfold onArrival
  split
  · next hk => simp [line, waiting, place, BufferedEntry.durableIds, hk]
  · next hk =>
    split
    · have hadd : line { s with durable := s.durable ++ [(m, m.id)] } = s.line ++ place m := by
        simp [line, waiting, place, hk]
      simp only
      split
      · rw [line_flushDurable, hadd]
        intro c hc
        rcases List.mem_append.mp hc with hc | hc
        · exact (hs.durable c hc).2
        · rw [List.mem_singleton.mp hc]
          exact ⟨rfl, hk⟩
      · exact hadd
    · next hb =>
      have hdur : s.durable = [] := by
        refine List.eq_nil_iff_forall_not_mem.mpr fun c hc => ?_
        exact hb (hs.durable c hc).1
      simp [line, waiting, place, BufferedEntry.durableIds, hk, hdur]
  · next key hk =>
    split
    · have hadd : line { s with volatile := s.volatile ++ [(m, key)] } = s.line ++ place m := by
        simp [line, waiting, place, hk]
      simp only
      split
      · rw [line_flushVolatile, hadd]
        intro c hc
        rcases List.mem_append.mp hc with hc | hc
        · exact (hs.volatile c hc).2
        · rw [List.mem_singleton.mp hc]
          exact hk
      · exact hadd
    · simp [line, waiting, place, BufferedEntry.durableIds, hk]

theorem line_onArrivalWaiting (hs : Shaped cfg s) (hidle : s.live = false) (m : Message) :
    (s.onArrivalWaiting cfg m).line.Sublist (s.line ++ place m) := by
  obtain ⟨-, hq, hdur, -⟩ := hs.idle hidle
  have hpush : ∀ e : BufferedEntry, e.durableIds = place m →
      (line { s with buffer := (s.buffer ++ [e]).filter fun e => !s.allClosed e }).Sublist
        (s.line ++ place m) := by
    intro e he
    have hsub := durableIds_filter (fun e => !s.allClosed e) (s.buffer ++ [e])
    rw [durableIds_append, durableIds_cons, he, durableIds_nil, List.append_nil] at hsub
    simpa [line, waiting, hq, hdur] using hsub.append_left (durableIds s.written)
  unfold onArrivalWaiting
  simp only
  split
  · next hk => exact hpush _ (by simp [BufferedEntry.durableIds, place, hk])
  · next hk => exact hpush _ (by simp [BufferedEntry.durableIds, place, hk])
  · exact List.sublist_append_left _ _

theorem line_requeue (hs : Shaped cfg s) (hdur : s.durable = [])
    (hq : s.delayQueue = [] ∨ s.pendingReplies = []) : s.requeue.line.Sublist s.line := by
  have hline : s.requeue.line =
      durableIds s.delayQueue ++ (durableIds s.pendingReplies ++ durableIds s.buffer) := by
    have : s.requeue.line = durableIds s.requeue.buffer := by
      simp [line, waiting, Connection.requeue]
    rw [this, requeue_buffer, if_pos hdur, List.nil_append, durableIds_append, durableIds_append,
      durableIds_filter_key hs.delayQueue, durableIds_filter_key hs.pendingReplies,
      durableIds_filter_key hs.buffer]
  rw [hline, line, waiting, hs.written, hdur]
  rcases hq with hq | hq
  · simp [hq]
  · simp [hq]

theorem line_pump (hs : Shaped cfg s) {ok : Bool} (hc : s.Calm cfg (.pump ok)) :
    (s.pump cfg ok).line.Sublist s.line := by
  unfold pump
  split
  · next e buffer hlive hbuf =>
    have hgone : (line { s with buffer }).Sublist s.line := by
      simp [line, waiting, hbuf]
    split
    · exact hgone
    · split
      · simp [line, waiting, hbuf]
      · next hdelay =>
        have hdelay : cfg.delayed = false := by simpa using hdelay
        have hq := hs.immediate hdelay
        split
        · simp [line, waiting, write, hbuf, hq]
        · next hok =>
          rw [← hbuf]
          exact line_requeue hs (hc hdelay (by simpa using hok)) (.inl hq)
  · exact List.Sublist.refl _

theorem line_release (hs : Shaped cfg s) {ok : Bool} (hc : s.Calm cfg (.release ok)) :
    (s.release ok).line.Sublist s.line := by
  unfold release
  split
  · next e delayQueue hlive hq =>
    split
    · simp [line, waiting, hq]
    · split
      · simp [line, waiting, write, hq]
      · next hok =>
        obtain ⟨hdur, htail⟩ := hc (by simpa using hok)
        have htail : delayQueue = [] := by simpa [hq] using htail
        -- the entry that could not be written is the only one of the delay queue
        have hback : Shaped cfg { s with delayQueue, buffer := e :: s.buffer } :=
          { hs with
            delayQueue := fun e' he' => by simp [htail] at he'
            buffer := List.forall_mem_cons.mpr ⟨hs.delayQueue e (by simp [hq]), hs.buffer⟩
            immediate := fun _ => htail
            idle := fun h => by simp [hlive] at h }
        refine (line_requeue hback hdur (.inl htail)).trans ?_
        simp [line, waiting, hq, htail]
  · exact List.Sublist.refl _

theorem line_lose (hs : Shaped cfg s) (hc : s.Calm cfg .lose) : s.lose.line.Sublist s.line := by
  unfold lose
  split
  · exact line_requeue hs hc.1 hc.2
  · exact List.Sublist.refl _

theorem line_ack (hs : Shaped cfg s) (hc : s.Calm cfg .ack) : s.ack.line.Sublist s.line := by
  unfold ack
  split
  · exact List.Sublist.refl _
  · next hno =>
    cases hlive : s.live with
    | false => simp [lose, hlive]
    | true =>
      have hp : s.pendingReplies = [] := by
        refine List.eq_nil_iff_forall_not_mem.mpr fun e he => ?_
        obtain ⟨e', l, hl⟩ := List.exists_cons_of_ne_nil (List.ne_nil_of_mem he)
        exact hno e' l hlive hl
      exact line_lose hs ⟨hc hp, .inr hp⟩

/-- The line stays inside the order of the sends: an event removes messages from it, or adds the
newest one at its end. -/
theorem line_step (hs : Shaped cfg s) {e : SenderEvent} (hc : s.Calm cfg e)
    (hline : s.line.Sublist (List.range s.arrived.length)) :
    (s.step cfg e).line.Sublist (List.range (s.step cfg e).arrived.length) := by
  obtain ⟨⟨gained, hmove, -⟩, -⟩ := hs.step e
  have hkeep : ∀ {l : List ℕ}, l.Sublist s.line →
      l.Sublist (List.range (s.step cfg e).arrived.length) := by
    intro l hl
    refine hl.trans (hline.trans (List.range_sublist.mpr ?_))
    rw [hmove.arrived, List.length_append]
    exact Nat.le_add_right _ _
  cases e with
  | send len kind =>
    let m : Message := ⟨s.arrived.length, len, kind⟩
    let s₁ : Connection := { s with arrived := s.arrived ++ [m] }
    have harr : (s.step cfg (.send len kind)).arrived.length = s.arrived.length + 1 := by
      have hlive : Moves s (s₁.onArrival cfg m) (some m) := moves_onArrival m
      have hwait := (hs.onArrivalWaiting m).1.arrived
      simp only [step]
      split
      · exact (congrArg List.length hlive.arrived).trans (by simp)
      · exact (congrArg List.length hwait).trans (by simp)
    have hplace : (s.line ++ place m).Sublist (List.range (s.arrived.length + 1)) := by
      rw [List.range_succ]
      refine hline.append ?_
      unfold place
      split
      · exact List.Sublist.refl _
      · exact List.nil_sublist _
    rw [harr]
    refine List.Sublist.trans ?_ hplace
    have hs₁ : Shaped cfg s₁ := hs.with_ghosts _ s.closed s.dropMap
    simp only [step]
    split
    · rw [line_onArrival hs₁]
      exact List.Sublist.refl _
    · next hidle => exact line_onArrivalWaiting hs₁ (by simpa using hidle) _
  | connect => exact hkeep (List.Sublist.refl _)
  | shed => exact hkeep (List.Sublist.refl _)
  | cancel => exact hkeep (List.Sublist.refl _)
  | pump => exact hkeep (line_pump hs hc)
  | release => exact hkeep (line_release hs hc)
  | flushDurable =>
    refine hkeep ?_
    simp only [step]
    split
    · exact List.Sublist.refl _
    · rw [line_flushDurable fun c hc => (hs.durable c hc).2]
  | flushVolatile =>
    refine hkeep ?_
    simp only [step]
    split
    · exact List.Sublist.refl _
    · rw [line_flushVolatile fun c hc => (hs.volatile c hc).2]
  | ack => exact hkeep (line_ack hs hc)
  | lose => exact hkeep (line_lose hs hc)

/-- If no session ends while its coalescer or its delay queue is in use, every session writes the
durable messages in the order of the sends, and each one that still waits was sent after all those
that the session wrote. -/
theorem durable_messages_in_send_order (cfg : SenderConfig) (events : List SenderEvent)
    (hcalm : ∀ before e after, events = before ++ e :: after →
      (run cfg init before).Calm cfg e) :
    let s := run cfg init events
    (durableIds s.written).Pairwise (· < ·) ∧
      ∀ i ∈ durableIds s.written, ∀ j ∈ s.waiting, i < j := by
  intro s
  have hline : s.line.Sublist (List.range s.arrived.length) := by
    unfold s
    induction events using List.reverseRecOn with
    | nil => exact List.Sublist.refl _
    | append_singleton events e ih =>
      rw [run, List.foldl_append]
      refine line_step (sound_run cfg events).2 (hcalm events e [] rfl) (ih ?_)
      rintro before e' after rfl
      exact hcalm before e' (after ++ [e]) (by simp)
  have hsorted : s.line.Pairwise (· < ·) := List.pairwise_lt_range.sublist hline
  obtain ⟨hwritten, -, hbefore⟩ := List.pairwise_append.mp hsorted
  exact ⟨hwritten, hbefore⟩

/-- Two sessions without batching and latency: the second one starts with both messages again. -/
theorem durable_messages_in_send_order_resent :
    let s := run ⟨false, 0, false⟩ init [.connect, .send 1 .durable, .pump true, .send 1 .durable,
      .lose, .connect, .pump true, .pump true]
    durableIds s.written = [0, 1] ∧ (durableIds s.written).Pairwise (· < ·) := by
  refine ⟨by decide, (durable_messages_in_send_order _ _ fun before e after _ => ?_).1⟩
  exact (sound_run _ before).2.calm rfl rfl e

/-- The first message is written and not acknowledged when the session is lost, the second one is
in the delay queue, or in the coalescer: the next session writes the second one first. -/
theorem newer_message_requeued_in_front :
    let delayed := run ⟨false, 0, true⟩ init [.connect, .send 1 .durable, .pump true, .release true,
      .send 1 .durable, .pump true, .lose, .connect, .pump true, .pump true, .release true,
      .release true]
    let batched := run ⟨true, 100, false⟩ init [.connect, .send 1 .durable, .flushDurable,
      .pump true, .send 1 .durable, .lose, .connect, .pump true, .pump true]
    (durableIds delayed.written = [1, 0] ∧ delayed.resolved = [] ∧ delayed.closed = ∅) ∧
      durableIds batched.written = [1, 0] ∧ batched.resolved = [] ∧ batched.closed = ∅ := by
  decide

end Connection

end Vantage.ReliableSender
