import Vantage.Agb.Numbering
import Vantage.Sequence.Store

/-!
# The ledger behind a store

A store stands for a list of outcomes and deltas, one for each view from 1 on. Its head is the
value of the record chain over that list, and the chain determines the list.

* `recordChain_binding`, `deltaChain_binding`: both hash chains are binding;
* `SequenceStore.head_binding`: equal heads mean equal contents.
-/

namespace Vantage

/-- The outcomes and deltas of the views from the first one on. -/
abbrev Ledger (K D : Type) : Type := List (SequenceOutcome K D × List D)

section Binding

variable {K D : Type} {S : SequenceSession K D}

variable {view : ℕ}

theorem SequenceOutcome.digest_injective (hS : S.hash.CollisionFree) {o o' : SequenceOutcome K D}
    (h : o.digest S view = o'.digest S view) : o = o' := by
  obtain ⟨-, hp⟩ := hS _ _ _ _ _ h
  cases hp
  rfl

theorem deltaChain_binding (hS : S.hash.CollisionFree) (view : ℕ) :
    (deltaChain S view).Binding where
  link_injective h := by
    obtain ⟨-, hp⟩ := hS _ _ _ _ _ h
    cases hp
    exact ⟨rfl, rfl, rfl⟩
  link_ne_seed h := by
    obtain ⟨ht, -⟩ := hS _ _ _ _ _ h
    cases ht

theorem recordChain_binding (hS : S.hash.CollisionFree) : (recordChain S).Binding where
  link_injective {i j p q a b} h := by
    obtain ⟨-, hp⟩ := hS _ _ _ _ _ h
    obtain ⟨oa, la, da⟩ := a
    obtain ⟨ob, lb, db⟩ := b
    simp only [RecordBody.toRecord, SequencePreimage.record.injEq, SequenceRecord.mk.injEq] at hp
    obtain ⟨-, hi, hpq, rfl, rfl, rfl⟩ := hp
    exact ⟨Nat.succ.inj hi, hpq, rfl⟩
  link_ne_seed h := by
    obtain ⟨ht, -⟩ := hS _ _ _ _ _ h
    cases ht

theorem RecordBody.of_injective (hS : S.hash.CollisionFree) {o o' : SequenceOutcome K D}
    {delta delta' : List D} (h : RecordBody.of S view o delta = RecordBody.of S view o' delta') :
    o = o' ∧ delta = delta' := by
  simp only [RecordBody.of, RecordBody.mk.injEq] at h
  exact ⟨SequenceOutcome.digest_injective hS h.1, (deltaChain_binding hS view).head_injective h.2.2⟩

end Binding

namespace Ledger

variable {K D : Type} (S : SequenceSession K D) (L : Ledger K D)

def bodies : List (RecordBody D) := L.mapIdx fun i e => .of S (i + 1) e.1 e.2

def headAt (view : ℕ) : D := (recordChain S).head ((L.bodies S).take view)

def entryAt (view : ℕ) : Option (SequenceOutcome K D × List D) :=
  if view = 0 then none else L[view - 1]?

def recordOf (view : ℕ) (e : SequenceOutcome K D × List D) : SequenceRecord D :=
  (RecordBody.of S view e.1 e.2).toRecord view (L.headAt S (view - 1))

variable {S L} {e : SequenceOutcome K D × List D}

@[simp] theorem length_bodies : (L.bodies S).length = L.length := List.length_mapIdx

theorem bodies_append_singleton :
    bodies S (L ++ [e]) = L.bodies S ++ [RecordBody.of S (L.length + 1) e.1 e.2] := by
  rw [bodies, List.mapIdx_concat, bodies]

theorem getElem?_bodies {i : ℕ} :
    (L.bodies S)[i]? = L[i]?.map fun e => RecordBody.of S (i + 1) e.1 e.2 :=
  List.getElem?_mapIdx

theorem headAt_length : L.headAt S L.length = (recordChain S).head (L.bodies S) := by
  rw [headAt, List.take_of_length_le (by rw [length_bodies])]

theorem entryAt_succ {i : ℕ} : L.entryAt (i + 1) = L[i]? := by
  simp [entryAt]

theorem entryAt_eq_none (h : L.length < view) : L.entryAt view = none := by
  cases view with
  | zero => rfl
  | succ i => rw [entryAt_succ, List.getElem?_eq_none (by omega)]

theorem entryAt_some (h : L.entryAt view = some e) :
    1 ≤ view ∧ view ≤ L.length := by
  cases view with
  | zero => cases h
  | succ i =>
    rw [entryAt_succ] at h
    have := (List.getElem?_eq_some_iff.mp h).1
    omega

theorem exists_entryAt (h₁ : 1 ≤ view) (h₂ : view ≤ L.length) :
    ∃ e, L.entryAt view = some e := by
  obtain ⟨i, rfl⟩ := Nat.exists_eq_add_of_le' h₁
  exact ⟨L[i], by rw [entryAt_succ, List.getElem?_eq_getElem]⟩

theorem headAt_of_entryAt (h : L.entryAt view = some e) :
    L.headAt S view = (L.recordOf S view e).head S := by
  cases view with
  | zero => cases h
  | succ i =>
    rw [entryAt_succ] at h
    have hb : (L.bodies S)[i]? = some (RecordBody.of S (i + 1) e.1 e.2) := by
      rw [getElem?_bodies, h, Option.map_some]
    have hi : i ≤ (L.bodies S).length := (List.getElem?_eq_some_iff.mp hb).1.le
    rw [headAt, List.take_add_one, hb, Option.toList_some, Chain.head_concat,
      List.length_take_of_le hi]
    rfl

theorem entryAt_append_of_le (h : view ≤ L.length) :
    entryAt (L ++ [e]) view = L.entryAt view := by
  cases view with
  | zero => rfl
  | succ i => rw [entryAt_succ, entryAt_succ, List.getElem?_append_left (by omega)]

theorem headAt_append_of_le (h : view ≤ L.length) :
    headAt S (L ++ [e]) view = L.headAt S view := by
  rw [headAt, bodies_append_singleton, List.take_append_of_le_length (by rwa [length_bodies]),
    headAt]

theorem bodies_injective (hS : S.hash.CollisionFree) {L L' : Ledger K D}
    (h : L.bodies S = L'.bodies S) : L = L' := by
  apply List.ext_getElem?
  intro i
  have hi : (L.bodies S)[i]? = (L'.bodies S)[i]? := by rw [h]
  rw [getElem?_bodies, getElem?_bodies] at hi
  cases ha : L[i]? with
  | none =>
    rw [ha, Option.map_none] at hi
    exact (Option.map_eq_none_iff.mp hi.symm).symm
  | some e =>
    rw [ha, Option.map_some] at hi
    obtain ⟨e', he', hb⟩ := Option.map_eq_some_iff.mp hi.symm
    obtain ⟨ho, hd⟩ := RecordBody.of_injective hS hb
    rw [he']
    exact congrArg some (Prod.ext ho.symm hd.symm)

end Ledger

namespace SequenceStore

variable {K D : Type} {S : SequenceSession K D} {s s' : SequenceStore S} {L L' : Ledger K D}

/-- The store keeps exactly the ledger `L`. -/
structure Holds (s : SequenceStore S) (L : Ledger K D) : Prop where
  nextView : s.nextView = L.length + 1
  head : s.head = L.headAt S L.length
  records : ∀ view, s.records.lookup view = (L.entryAt view).map (L.recordOf S view)
  outcomes : ∀ view, s.outcomes.lookup view = (L.entryAt view).map Prod.fst
  deltas : ∀ view, s.deltas.lookup view = (L.entryAt view).map Prod.snd

theorem holds_new (interval : ℕ) : (new S interval).Holds [] where
  nextView := rfl
  head := rfl
  records view := by cases view <;> rfl
  outcomes view := by cases view <;> rfl
  deltas view := by cases view <;> rfl

theorem record_ok {outcome : SequenceOutcome K D} {delta : List D}
    (h : s.record view outcome delta = .ok s') :
    view = s.nextView ∧ s'.nextView = view + 1 ∧
      s'.head = ((RecordBody.of S view outcome delta).toRecord view s.head).head S ∧
      s'.records =
        s.records.insert view ((RecordBody.of S view outcome delta).toRecord view s.head) ∧
      s'.outcomes = s.outcomes.insert view outcome ∧ s'.deltas = s.deltas.insert view delta := by
  unfold record at h
  split at h
  · cases h
  · next hv =>
    cases h
    exact ⟨Decidable.not_not.mp hv, rfl, rfl, rfl, rfl, rfl⟩

theorem Holds.record (hs : s.Holds L) {outcome : SequenceOutcome K D} {delta : List D}
    (h : s.record view outcome delta = .ok s') : s'.Holds (L ++ [(outcome, delta)]) := by
  obtain ⟨hview, hnext, hhead, hrecords, houtcomes, hdeltas⟩ := record_ok h
  rw [hs.nextView] at hview
  subst hview
  have hnew : Ledger.entryAt (L ++ [(outcome, delta)]) (L.length + 1) = some (outcome, delta) := by
    rw [Ledger.entryAt_succ, List.getElem?_concat_length]
  have hrec : Ledger.recordOf S (L ++ [(outcome, delta)]) (L.length + 1) (outcome, delta) =
      (RecordBody.of S (L.length + 1) outcome delta).toRecord (L.length + 1) s.head := by
    rw [Ledger.recordOf, Nat.add_sub_cancel, Ledger.headAt_append_of_le le_rfl, hs.head]
  -- an old view keeps its entry, and there is none above the new one
  have hold : ∀ {β : Type} (f : ∀ _ : ℕ, SequenceOutcome K D × List D → β) (g : ℕ → Option β),
      (∀ v, g v = (L.entryAt v).map (f v)) → ∀ v, v ≠ L.length + 1 →
        g v = (Ledger.entryAt (L ++ [(outcome, delta)]) v).map (f v) := by
    intro β f g hg v hv
    rw [hg]
    rcases Nat.lt_or_ge L.length v with hlt | hle
    · rw [Ledger.entryAt_eq_none hlt, Ledger.entryAt_eq_none (by simp; omega)]
    · rw [Ledger.entryAt_append_of_le hle]
  refine ⟨by simp [hnext], ?_, fun v => ?_, fun v => ?_, fun v => ?_⟩
  · rw [List.length_append, List.length_singleton, Ledger.headAt_of_entryAt hnew, hrec, hhead]
  · rw [hrecords]
    by_cases hv : v = L.length + 1
    · subst hv
      rw [AList.lookup_insert, hnew, Option.map_some, hrec]
    · rw [AList.lookup_insert_ne hv]
      refine hold (Ledger.recordOf S (L ++ [(outcome, delta)])) (fun v => s.records.lookup v)
        (fun v => ?_) v hv
      rw [hs.records]
      refine Option.map_congr fun e he => ?_
      have hle := (Ledger.entryAt_some he).2
      rw [Ledger.recordOf, Ledger.recordOf, Ledger.headAt_append_of_le (by omega)]
  · rw [houtcomes]
    by_cases hv : v = L.length + 1
    · subst hv
      rw [AList.lookup_insert, hnew, Option.map_some]
    · rw [AList.lookup_insert_ne hv]
      exact hold (fun _ => Prod.fst) _ hs.outcomes v hv
  · rw [hdeltas]
    by_cases hv : v = L.length + 1
    · subst hv
      rw [AList.lookup_insert, hnew, Option.map_some]
    · rw [AList.lookup_insert_ne hv]
      exact hold (fun _ => Prod.snd) _ hs.deltas v hv

theorem Built.holds (h : s.Built) : ∃ L, s.Holds L := by
  induction h with
  | new interval => exact ⟨[], holds_new interval⟩
  | record _ hr ih =>
    obtain ⟨L, hL⟩ := ih
    exact ⟨_, hL.record hr⟩

theorem Holds.headView (h : s.Holds L) : s.headView = L.length := by
  rw [SequenceStore.headView, h.nextView, Nat.add_sub_cancel]

theorem Holds.headAt (h : s.Holds L) (hv : view ≤ L.length) :
    s.headAt view = some (L.headAt S view) := by
  cases view with
  | zero => rfl
  | succ i =>
    obtain ⟨e, he⟩ := Ledger.exists_entryAt (Nat.succ_pos i) hv
    rw [SequenceStore.headAt, if_neg (Nat.succ_ne_zero i), h.records, he, Option.map_some,
      Option.map_some, Ledger.headAt_of_entryAt he]

theorem Holds.le_of_headAt (h : s.Holds L) {x : D} (hv : s.headAt view = some x) :
    view ≤ L.length := by
  cases view with
  | zero => exact Nat.zero_le _
  | succ i =>
    rw [SequenceStore.headAt, if_neg (Nat.succ_ne_zero i), h.records] at hv
    by_contra hlt
    rw [Ledger.entryAt_eq_none (by omega)] at hv
    cases hv

/-- The sequence head is binding: stores with equal heads hold the same views with the same
outcomes and the same deltas. -/
theorem head_binding (hS : S.hash.CollisionFree) (hs : s.Built) (hs' : s'.Built)
    (h : s.head = s'.head) :
    s.headView = s'.headView ∧ ∀ view, s.outcomes.lookup view = s'.outcomes.lookup view ∧
      s.deltas.lookup view = s'.deltas.lookup view := by
  obtain ⟨L, hL⟩ := hs.holds
  obtain ⟨L', hL'⟩ := hs'.holds
  rw [hL.head, hL'.head, Ledger.headAt_length, Ledger.headAt_length] at h
  obtain rfl := Ledger.bodies_injective hS ((recordChain_binding hS).head_injective h)
  refine ⟨by rw [hL.headView, hL'.headView], fun view => ⟨?_, ?_⟩⟩
  · rw [hL.outcomes, hL'.outcomes]
  · rw [hL.deltas, hL'.deltas]

def ofLedger (S : SequenceSession K D) (interval : ℕ) (L : Ledger K D) : SequenceStore S :=
  L.foldl (fun s e => (s.record s.nextView e.1 e.2).toOption.getD s) (new S interval)

theorem record_ofLedger (interval : ℕ) (L : Ledger K D) (e : SequenceOutcome K D × List D) :
    (ofLedger S interval L).record (ofLedger S interval L).nextView e.1 e.2 =
      .ok (ofLedger S interval (L ++ [e])) := by
  have happend : ofLedger S interval (L ++ [e]) =
      ((ofLedger S interval L).record (ofLedger S interval L).nextView e.1 e.2).toOption.getD
        (ofLedger S interval L) := by
    rw [ofLedger, List.foldl_append, List.foldl_cons, List.foldl_nil, ofLedger]
  rw [happend, record, if_neg (fun hne => hne rfl)]
  rfl

theorem built_ofLedger (interval : ℕ) (L : Ledger K D) : (ofLedger S interval L).Built := by
  induction L using List.reverseRecOn with
  | nil => exact .new interval
  | append_singleton L e ih => exact ih.record (record_ofLedger interval L e)

end SequenceStore

/-! ### Numbering the values of the sequence -/

section Encodable

variable {K D : Type} [Encodable K] [Encodable D]

def SequenceOutcome.toSum : SequenceOutcome K D →
    (Manifest K D × Manifest K D) ⊕ Manifest K D ⊕ Unit
  | .full c t => .inl (c, t)
  | .core c => .inr (.inl c)
  | .skip => .inr (.inr ())

def SequenceOutcome.ofSum :
    (Manifest K D × Manifest K D) ⊕ Manifest K D ⊕ Unit → SequenceOutcome K D
  | .inl (c, t) => .full c t
  | .inr (.inl c) => .core c
  | .inr (.inr _) => .skip

instance : Encodable (SequenceOutcome K D) :=
  Encodable.ofLeftInjection SequenceOutcome.toSum (fun x => some (.ofSum x)) fun o => by
    cases o <;> rfl

instance : Encodable (SequenceRecord D) :=
  Encodable.ofLeftInjection
    (fun r => (r.version, r.view, r.previousHead, r.outcomeDigest, r.deltaLen, r.deltaHead))
    (fun x => some ⟨x.1, x.2.1, x.2.2.1, x.2.2.2.1, x.2.2.2.2.1, x.2.2.2.2.2⟩) fun _ => rfl

def SequencePreimage.toSum : SequencePreimage K D →
    (ℕ × SequenceOutcome K D) ⊕ ℕ ⊕ (ℕ × ℕ × D × D) ⊕ SequenceRecord D ⊕ Unit
  | .outcome view o => .inl (view, o)
  | .seed view => .inr (.inl view)
  | .item view index previous x => .inr (.inr (.inl (view, index, previous, x)))
  | .record r => .inr (.inr (.inr (.inl r)))
  | .genesis => .inr (.inr (.inr (.inr ())))

def SequencePreimage.ofSum :
    (ℕ × SequenceOutcome K D) ⊕ ℕ ⊕ (ℕ × ℕ × D × D) ⊕ SequenceRecord D ⊕ Unit →
      SequencePreimage K D
  | .inl (view, o) => .outcome view o
  | .inr (.inl view) => .seed view
  | .inr (.inr (.inl (view, index, previous, x))) => .item view index previous x
  | .inr (.inr (.inr (.inl r))) => .record r
  | .inr (.inr (.inr (.inr _))) => .genesis

instance : Encodable (SequencePreimage K D) :=
  Encodable.ofLeftInjection SequencePreimage.toSum (fun x => some (.ofSum x)) fun p => by
    cases p <;> rfl

end Encodable

/-- Numbered keys and digests, with the numbering hash. -/
def SequenceSession.numbered : SequenceSession ℕ ℕ where
  sid := 0
  hash := .numbering _

theorem SequenceSession.numbered_collisionFree : numbered.hash.CollisionFree :=
  DomainHash.numbering_collisionFree _

theorem SequenceStore.head_binding_intervals :
    (ofLedger .numbered 1 [(.skip, []), (.core [], [5])]).head =
        (ofLedger .numbered 4 [(.skip, []), (.core [], [5])]).head ∧
      (ofLedger .numbered 1 [(.skip, []), (.core [], [5])]).headView =
        (ofLedger .numbered 4 [(.skip, []), (.core [], [5])]).headView := by
  have h : (ofLedger .numbered 1 [(.skip, []), (.core [], [5])]).head =
      (ofLedger .numbered 4 [(.skip, []), (.core [], [5])]).head := rfl
  exact ⟨h, (head_binding SequenceSession.numbered_collisionFree (built_ofLedger _ _)
    (built_ofLedger _ _) h).1⟩

end Vantage
