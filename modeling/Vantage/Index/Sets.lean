import Mathlib.Data.List.FinRange
import Vantage.Basic
import Vantage.Lib.Bits

/-!
# Committee positions and sets of keys

A committee key is resolved to its position once, and containers are addressed by position. A key
outside the committee has no position and keeps the behaviour that a map keyed by public keys has.
-/

namespace Vantage

/-- The keys of a committee in increasing order. -/
structure CommitteeIndex (K : Type) [LinearOrder K] where
  keys : List K
  sorted : keys.Pairwise (· < ·)

namespace CommitteeIndex

variable {K : Type} [LinearOrder K]

def new (committee : Committee K) : CommitteeIndex K where
  keys := committee.sorted
  sorted := by
    refine (List.Pairwise.and ?_ committee.sorted_nodup).imp fun h => lt_of_le_of_ne h.1 h.2
    obtain ⟨⟨s, hs⟩, w, hn⟩ := committee
    induction s using Quotient.inductionOn with
    | h l => exact List.pairwise_insertionSort _ l

variable (index : CommitteeIndex K)

/-- The number of members. -/
abbrev size : ℕ := index.keys.length

theorem nodup : index.keys.Nodup := index.sorted.imp fun h => h.ne

def position (key : K) : Option (Fin index.size) :=
  if h : index.keys.idxOf key < index.size then some ⟨index.keys.idxOf key, h⟩ else none

theorem position_eq_some {key : K} {i : Fin index.size} :
    index.position key = some i ↔ index.keys.get i = key := by
  unfold position
  constructor
  · intro h
    split at h
    · obtain rfl := Option.some.inj h
      exact List.getElem_idxOf _
    · cases h
  · rintro rfl
    rw [dif_pos (List.idxOf_lt_length_of_mem (List.get_mem _ _))]
    exact congrArg some (Fin.ext (index.nodup.idxOf_getElem i.val i.isLt))

end CommitteeIndex

/-- A key with its position in the committee. -/
structure Slot {K : Type} [LinearOrder K] (index : CommitteeIndex K) where
  key : K
  position : Option (Fin index.size)
  resolved : position = index.position key

namespace CommitteeIndex

variable {K : Type} [LinearOrder K] (index : CommitteeIndex K)

def slot (key : K) : Slot index := ⟨key, index.position key, rfl⟩

def slotAt (i : Fin index.size) : Slot index :=
  ⟨index.keys.get i, some i, (index.position_eq_some.mpr rfl).symm⟩

theorem position_slotAt (i : Fin index.size) : index.position (index.slotAt i).key = some i :=
  index.position_eq_some.mpr rfl

theorem slotAt_injective : Function.Injective fun i => (index.slotAt i).key := fun _ _ h =>
  index.nodup.get_inj_iff.mp h

end CommitteeIndex

theorem Slot.key_eq {K : Type} [LinearOrder K] {index : CommitteeIndex K} {slot : Slot index}
    {i : Fin index.size} (h : slot.position = some i) : slot.key = (index.slotAt i).key :=
  (index.position_eq_some.mp (slot.resolved ▸ h)).symm

/-! ### Sets kept in a list -/

/-- Different elements with a property, in the order of their insertion. -/
structure ListSet (α : Type) (P : α → Prop) where
  items : List α
  nodup : items.Nodup
  only : ∀ a ∈ items, P a

namespace ListSet

variable {α : Type} [DecidableEq α] {P : α → Prop}

def empty : ListSet α P := ⟨[], List.nodup_nil, fun _ h => by cases h⟩

def insert (s : ListSet α P) (a : α) (ha : P a) : ListSet α P × Bool :=
  if h : a ∈ s.items then (s, false)
  else
    (⟨s.items ++ [a], List.nodup_append_comm.mp (List.nodup_cons.mpr ⟨h, s.nodup⟩), by
      simp only [List.mem_append, List.mem_singleton]
      rintro b (hb | rfl)
      · exact s.only b hb
      · exact ha⟩, true)

def remove (s : ListSet α P) (a : α) : ListSet α P × Bool :=
  if a ∈ s.items then
    (⟨s.items.erase a, s.nodup.erase a, fun b hb => s.only b (List.mem_of_mem_erase hb)⟩, true)
  else (s, false)

theorem mem_insert (s : ListSet α P) {a b : α} (ha : P a) :
    (b ∈ (s.insert a ha).1.items ↔ b = a ∨ b ∈ s.items) ∧
      ((s.insert a ha).2 = true ↔ a ∉ s.items) := by
  unfold insert
  split
  · next h => exact ⟨⟨.inr, fun hb => hb.elim (fun he => he ▸ h) id⟩, by simp [h]⟩
  · next h => simp [h, or_comm]

theorem mem_remove (s : ListSet α P) {a b : α} :
    (b ∈ (s.remove a).1.items ↔ b ≠ a ∧ b ∈ s.items) ∧
      ((s.remove a).2 = true ↔ a ∈ s.items) := by
  unfold remove
  split
  · next h => exact ⟨s.nodup.mem_erase_iff, by simp [h]⟩
  · next h => exact ⟨⟨fun hb => ⟨fun he => h (he ▸ hb), hb⟩, And.right⟩, by simp [h]⟩

end ListSet

/-! ### Positions as a bitmap -/

def inlineMembers : ℕ := 256

/-- Committee positions; those that the bitmap does not carry are listed. -/
structure MemberSet where
  words : Fin 4 → BitVec 64
  overflow : ListSet ℕ (inlineMembers ≤ ·)

namespace MemberSet

def empty : MemberSet := ⟨fun _ => 0, .empty⟩

def word (i : ℕ) : Fin 4 := Fin.ofNat 4 (i / 64)

def bit (i : ℕ) : BitVec 64 := 1#64 <<< (i % 64)

def contains (m : MemberSet) (i : ℕ) : Bool :=
  if i < inlineMembers then m.words (word i) &&& bit i != 0#64
  else decide (i ∈ m.overflow.items)

def insert (m : MemberSet) (i : ℕ) : MemberSet × Bool :=
  if h : i < inlineMembers then
    ({ m with words := Function.update m.words (word i) (m.words (word i) ||| bit i) },
      m.words (word i) &&& bit i == 0#64)
  else
    ({ m with overflow := (m.overflow.insert i (Nat.le_of_not_lt h)).1 },
      (m.overflow.insert i (Nat.le_of_not_lt h)).2)

def remove (m : MemberSet) (i : ℕ) : MemberSet × Bool :=
  if i < inlineMembers then
    ({ m with words := Function.update m.words (word i) (m.words (word i) &&& ~~~bit i) },
      m.words (word i) &&& bit i != 0#64)
  else ({ m with overflow := (m.overflow.remove i).1 }, (m.overflow.remove i).2)

def iter (m : MemberSet) : List ℕ :=
  (List.finRange 4).flatMap (fun word => (Bits.scan (m.words word)).map (word.val * 64 + ·)) ++
    m.overflow.items

def positions (m : MemberSet) : Set ℕ := { i | m.contains i = true }

/-! #### The set that is held -/

theorem getLsbD_bit (i k : ℕ) : (bit i).getLsbD k = decide (k = i % 64) := by
  have hi : i % 64 < 64 := Nat.mod_lt i (by omega)
  unfold bit
  rw [BitVec.getLsbD_shiftLeft, BitVec.getLsbD_one]
  by_cases hk : k = i % 64
  · simp [hk, hi]
  · rcases Nat.lt_or_ge k (i % 64) with h | h
    · simp [h, hk]
    · simp [hk, show k - i % 64 ≠ 0 by omega]

theorem and_bit_ne_zero (x : BitVec 64) (i : ℕ) : (x &&& bit i != 0#64) = x.getLsbD (i % 64) := by
  have hi : i % 64 < 64 := Nat.mod_lt i (by omega)
  cases hx : x.getLsbD (i % 64) with
  | true =>
    rw [bne_iff_ne]
    intro h0
    have := congrArg (fun y => BitVec.getLsbD y (i % 64)) h0
    simp [BitVec.getLsbD_and, getLsbD_bit, hx] at this
  | false =>
    rw [bne_eq_false_iff_eq]
    refine BitVec.eq_of_getLsbD_eq fun k _ => ?_
    rw [BitVec.getLsbD_and, getLsbD_bit, BitVec.getLsbD_zero]
    by_cases hk : k = i % 64
    · simp [hk, hx]
    · simp [hk]

theorem word_bit_inj {i j : ℕ} (hi : i < inlineMembers) (hj : j < inlineMembers) :
    word j = word i ∧ j % 64 = i % 64 ↔ j = i := by
  refine ⟨fun ⟨hw, hb⟩ => ?_, fun h => h ▸ ⟨rfl, rfl⟩⟩
  have := congrArg Fin.val hw
  simp only [word, Fin.val_ofNat] at this
  unfold inlineMembers at hi hj
  omega

theorem contains_of_lt (m : MemberSet) {i : ℕ} (h : i < inlineMembers) :
    m.contains i = (m.words (word i)).getLsbD (i % 64) := by
  rw [contains, if_pos h, and_bit_ne_zero]

theorem contains_of_ge (m : MemberSet) {i : ℕ} (h : inlineMembers ≤ i) :
    m.contains i = decide (i ∈ m.overflow.items) := if_neg (Nat.not_lt.mpr h)

theorem contains_word (m : MemberSet) {i : ℕ} (hi : i < inlineMembers) {x : BitVec 64} {b : Bool}
    (hx : ∀ k < 64, x.getLsbD k = if k = i % 64 then b else (m.words (word i)).getLsbD k) (j : ℕ) :
    (⟨Function.update m.words (word i) x, m.overflow⟩ : MemberSet).contains j =
      if j = i then b else m.contains j := by
  rcases Nat.lt_or_ge j inlineMembers with hj | hj
  · rw [contains_of_lt _ hj, contains_of_lt _ hj]
    by_cases hw : word j = word i
    · have hji : j % 64 = i % 64 ↔ j = i := by
        rw [← word_bit_inj hi hj]
        exact (and_iff_right hw).symm
      simp only [hw, Function.update_self, hx _ (Nat.mod_lt j (by omega)), hji]
    · have hji : j ≠ i := fun h => hw (h ▸ rfl)
      simp [hw, hji]
  · rw [contains_of_ge _ hj, contains_of_ge _ hj, if_neg (by omega)]

theorem contains_overflow (m : MemberSet) {i : ℕ} (hi : inlineMembers ≤ i)
    {overflow : ListSet ℕ (inlineMembers ≤ ·)} {b : Bool}
    (ho : ∀ j, decide (j ∈ overflow.items) = if j = i then b else decide (j ∈ m.overflow.items))
    (j : ℕ) : (⟨m.words, overflow⟩ : MemberSet).contains j = if j = i then b else m.contains j := by
  rcases Nat.lt_or_ge j inlineMembers with hj | hj
  · rw [contains_of_lt _ hj, contains_of_lt _ hj, if_neg (by omega)]
  · rw [contains_of_ge _ hj, contains_of_ge _ hj, ho]

theorem contains_insert (m : MemberSet) (i j : ℕ) :
    (m.insert i).1.contains j = if j = i then true else m.contains j := by
  unfold insert
  split
  · next hi =>
    refine m.contains_word hi (fun k _ => ?_) j
    rw [BitVec.getLsbD_or, getLsbD_bit]
    by_cases hk : k = i % 64 <;> simp [hk]
  · next hi =>
    refine m.contains_overflow (Nat.le_of_not_lt hi) (fun k => ?_) j
    simp only [(m.overflow.mem_insert _).1]
    by_cases hk : k = i <;> simp [hk]

theorem contains_remove (m : MemberSet) (i j : ℕ) :
    (m.remove i).1.contains j = if j = i then false else m.contains j := by
  unfold remove
  split
  · next hi =>
    refine m.contains_word hi (fun k hlt => ?_) j
    rw [BitVec.getLsbD_and, BitVec.getLsbD_not, getLsbD_bit]
    by_cases hk : k = i % 64 <;> simp [hk, hlt]
  · next hi =>
    refine m.contains_overflow (Nat.le_of_not_lt hi) (fun k => ?_) j
    simp only [m.overflow.mem_remove.1]
    by_cases hk : k = i <;> simp [hk]

theorem positions_insert (m : MemberSet) (i : ℕ) :
    (m.insert i).1.positions = Insert.insert i m.positions ∧
      ((m.insert i).2 = true ↔ i ∉ m.positions) := by
  refine ⟨?_, ?_⟩
  · ext j
    rw [Set.mem_insert_iff, positions, positions, Set.mem_ofPred_eq, Set.mem_ofPred_eq,
      contains_insert]
    by_cases hj : j = i <;> simp [hj]
  · rw [positions, Set.mem_ofPred_eq, contains, insert]
    split
    · simp
    · next hi => simpa using (m.overflow.mem_insert (b := i) (Nat.le_of_not_lt hi)).2

theorem positions_remove (m : MemberSet) (i : ℕ) :
    (m.remove i).1.positions = m.positions \ {i} ∧
      ((m.remove i).2 = true ↔ i ∈ m.positions) := by
  refine ⟨?_, ?_⟩
  · ext j
    rw [Set.mem_sdiff, Set.mem_singleton_iff, positions, positions, Set.mem_ofPred_eq,
      Set.mem_ofPred_eq, contains_remove]
    by_cases hj : j = i <;> simp [hj]
  · rw [positions, Set.mem_ofPred_eq, contains, remove]
    split
    · rfl
    · simpa using (m.overflow.mem_remove (b := i)).2

theorem mem_iter (m : MemberSet) (i : ℕ) : i ∈ m.iter ↔ i ∈ m.positions := by
  unfold iter
  rw [List.mem_append, List.mem_flatMap, positions, Set.mem_ofPred_eq]
  rcases Nat.lt_or_ge i inlineMembers with h | h
  · rw [contains_of_lt m h]
    constructor
    · rintro (⟨w, -, hmem⟩ | hmem)
      · obtain ⟨j, hj, rfl⟩ := List.mem_map.mp hmem
        have hlt := Bits.lt_of_mem_scan hj
        have hword : word (w.val * 64 + j) = w := by
          refine Fin.ext ?_
          simp only [word, Fin.val_ofNat]
          omega
        rw [hword, show (w.val * 64 + j) % 64 = j by omega]
        exact (Bits.mem_scan _ _).mp hj
      · exact absurd (m.overflow.only i hmem) (by omega)
    · intro hbit
      refine .inl ⟨word i, List.mem_finRange _, List.mem_map.mpr
        ⟨i % 64, (Bits.mem_scan _ _).mpr hbit, ?_⟩⟩
      simp only [word, Fin.val_ofNat]
      unfold inlineMembers at h
      omega
  · rw [contains_of_ge m h, decide_eq_true_eq]
    refine ⟨fun hmem => hmem.resolve_left ?_, .inr⟩
    rintro ⟨w, -, hmem⟩
    obtain ⟨j, hj, rfl⟩ := List.mem_map.mp hmem
    have := Bits.lt_of_mem_scan hj
    have := w.isLt
    unfold inlineMembers at h
    omega

theorem iter_nodup (m : MemberSet) : m.iter.Nodup := by
  have hblock : ∀ {w : Fin 4} {i : ℕ}, i ∈ (Bits.scan (m.words w)).map (w.val * 64 + ·) →
      i / 64 = w.val := by
    intro w i hi
    obtain ⟨j, hj, rfl⟩ := List.mem_map.mp hi
    have := Bits.lt_of_mem_scan hj
    omega
  refine List.nodup_append.mpr
    ⟨List.nodup_flatMap.mpr ⟨fun w _ => ?_, ?_⟩, m.overflow.nodup, ?_⟩
  · exact List.Nodup.map (fun a b h => Nat.add_left_cancel h)
      ((Bits.scan_sorted _).imp fun h => h.ne)
  · refine (List.nodup_finRange 4).imp fun {a b} hab => ?_
    rw [Function.onFun, List.disjoint_left]
    intro i hi hi'
    exact hab (Fin.ext ((hblock hi).symm.trans (hblock hi')))
  · rintro i hi j hj rfl
    obtain ⟨w, -, hmem⟩ := List.mem_flatMap.mp hi
    have := hblock hmem
    have := w.isLt
    have := m.overflow.only _ hj
    unfold inlineMembers at this
    omega

theorem positions_empty : empty.positions = ∅ := by
  ext i
  rw [← mem_iter]
  simp [iter, empty, ListSet.empty, Bits.scan]

end MemberSet

/-! ### Sets of keys -/

/-- A set of keys: members by position, and a list of the others. -/
structure SlotSet {K : Type} [LinearOrder K] (index : CommitteeIndex K) where
  members : MemberSet
  outside : ListSet K (index.position · = none)
  members_lt : ∀ i ∈ members.positions, i < index.size

namespace SlotSet

variable {K : Type} [LinearOrder K] {index : CommitteeIndex K}

def empty : SlotSet index where
  members := .empty
  outside := .empty
  members_lt i h := by rw [MemberSet.positions_empty] at h; cases h

def insert (s : SlotSet index) : Slot index → SlotSet index × Bool
  | ⟨_, some i, _⟩ =>
    ({ s with
        members := (s.members.insert i).1
        members_lt := by
          rw [(s.members.positions_insert i).1]
          rintro j (rfl | hj)
          · exact i.isLt
          · exact s.members_lt j hj }, (s.members.insert i).2)
  | ⟨key, none, h⟩ =>
    ({ s with outside := (s.outside.insert key h.symm).1 }, (s.outside.insert key h.symm).2)

def remove (s : SlotSet index) : Slot index → SlotSet index × Bool
  | ⟨_, some i, _⟩ =>
    ({ s with
        members := (s.members.remove i).1
        members_lt := by
          rw [(s.members.positions_remove i).1]
          exact fun j hj => s.members_lt j hj.1 }, (s.members.remove i).2)
  | ⟨key, none, _⟩ => ({ s with outside := (s.outside.remove key).1 }, (s.outside.remove key).2)

def iter (s : SlotSet index) : List (Slot index) :=
  (s.members.iter.attach.map fun i =>
      index.slotAt ⟨i.1, s.members_lt i.1 ((s.members.mem_iter i.1).mp i.2)⟩) ++
    s.outside.items.map index.slot

def keys (s : SlotSet index) : Set K :=
  { key | (∃ i, index.position key = some i ∧ i.val ∈ s.members.positions) ∨
    key ∈ s.outside.items }

theorem keys_empty : (empty : SlotSet index).keys = ∅ := by
  ext key
  simp [keys, empty, MemberSet.positions_empty, ListSet.empty]

theorem mem_keys_of_some {s : SlotSet index} {key : K} {i : Fin index.size}
    (h : index.position key = some i) : key ∈ s.keys ↔ i.val ∈ s.members.positions := by
  simp only [keys, Set.mem_ofPred_eq, h, Option.some.injEq, exists_eq_left']
  refine or_iff_left fun hmem => ?_
  rw [s.outside.only key hmem] at h
  cases h

theorem mem_keys_of_none {s : SlotSet index} {key : K} (h : index.position key = none) :
    key ∈ s.keys ↔ key ∈ s.outside.items := by
  simp [keys, h]

theorem keys_insert (s : SlotSet index) (slot : Slot index) :
    (s.insert slot).1.keys = Insert.insert slot.key s.keys ∧
      ((s.insert slot).2 = true ↔ slot.key ∉ s.keys) := by
  obtain ⟨key', _ | i, h⟩ := slot
  · refine ⟨?_, by rw [mem_keys_of_none h.symm]; exact (s.outside.mem_insert (b := key') h.symm).2⟩
    ext key
    cases hk : index.position key with
    | none =>
      rw [mem_keys_of_none hk, Set.mem_insert_iff, mem_keys_of_none hk]
      exact (s.outside.mem_insert h.symm).1
    | some j =>
      rw [mem_keys_of_some hk, Set.mem_insert_iff, mem_keys_of_some hk]
      refine (or_iff_right ?_).symm
      rintro rfl
      rw [← h] at hk
      cases hk
  · refine ⟨?_, by rw [mem_keys_of_some h.symm]; exact (s.members.positions_insert i).2⟩
    ext key
    cases hk : index.position key with
    | none =>
      rw [mem_keys_of_none hk, Set.mem_insert_iff, mem_keys_of_none hk]
      refine (or_iff_right ?_).symm
      rintro rfl
      rw [← h] at hk
      cases hk
    | some j =>
      have hkey : key = key' ↔ j.val = i.val := by
        rw [← Fin.ext_iff, ← index.position_eq_some.mp hk, ← index.position_eq_some.mp h.symm]
        exact index.nodup.get_inj_iff
      rw [mem_keys_of_some hk, Set.mem_insert_iff, mem_keys_of_some hk, hkey]
      change j.val ∈ (s.members.insert i).1.positions ↔ _
      rw [(s.members.positions_insert i).1, Set.mem_insert_iff]

theorem keys_remove (s : SlotSet index) (slot : Slot index) :
    (s.remove slot).1.keys = s.keys \ {slot.key} ∧
      ((s.remove slot).2 = true ↔ slot.key ∈ s.keys) := by
  obtain ⟨key', _ | i, h⟩ := slot
  · refine ⟨?_, by rw [mem_keys_of_none h.symm]; exact (s.outside.mem_remove (b := key')).2⟩
    ext key
    rw [Set.mem_sdiff, Set.mem_singleton_iff, and_comm]
    cases hk : index.position key with
    | none =>
      rw [mem_keys_of_none hk, mem_keys_of_none hk]
      exact s.outside.mem_remove.1
    | some j =>
      rw [mem_keys_of_some hk, mem_keys_of_some hk]
      refine (and_iff_right ?_).symm
      rintro rfl
      rw [← h] at hk
      cases hk
  · refine ⟨?_, by rw [mem_keys_of_some h.symm]; exact (s.members.positions_remove i).2⟩
    ext key
    rw [Set.mem_sdiff, Set.mem_singleton_iff]
    cases hk : index.position key with
    | none =>
      rw [mem_keys_of_none hk, mem_keys_of_none hk]
      refine (and_iff_left ?_).symm
      rintro rfl
      rw [← h] at hk
      cases hk
    | some j =>
      have hkey : key = key' ↔ j.val = i.val := by
        rw [← Fin.ext_iff, ← index.position_eq_some.mp hk, ← index.position_eq_some.mp h.symm]
        exact index.nodup.get_inj_iff
      rw [mem_keys_of_some hk, mem_keys_of_some hk, hkey]
      change j.val ∈ (s.members.remove i).1.positions ↔ _
      rw [(s.members.positions_remove i).1, Set.mem_sdiff, Set.mem_singleton_iff]

theorem iter_keys (s : SlotSet index) :
    (s.iter.map Slot.key).Nodup ∧ ∀ key, key ∈ s.iter.map Slot.key ↔ key ∈ s.keys := by
  have hkeys : s.iter.map Slot.key =
      (s.members.iter.attach.map fun i => (index.slotAt
        ⟨i.1, s.members_lt i.1 ((s.members.mem_iter i.1).mp i.2)⟩).key) ++ s.outside.items := by
    simp [iter, Function.comp_def, CommitteeIndex.slot]
  rw [hkeys]
  constructor
  · refine List.nodup_append.mpr ⟨?_, s.outside.nodup, ?_⟩
    · refine List.Nodup.map (fun a b h => Subtype.ext ?_)
        (List.nodup_attach.mpr s.members.iter_nodup)
      exact congrArg Fin.val (index.slotAt_injective h)
    · rintro key hkey key' hkey' rfl
      obtain ⟨i, -, rfl⟩ := List.mem_map.mp hkey
      have hnone := s.outside.only _ hkey'
      cases (index.position_slotAt _).symm.trans hnone
  · intro key
    rw [List.mem_append, List.mem_map, keys, Set.mem_ofPred_eq]
    refine or_congr ⟨?_, ?_⟩ Iff.rfl
    · rintro ⟨i, -, rfl⟩
      exact ⟨_, index.position_eq_some.mpr rfl, (s.members.mem_iter _).mp i.2⟩
    · rintro ⟨i, hi, hmem⟩
      exact ⟨⟨i, (s.members.mem_iter _).mpr hmem⟩, List.mem_attach _ _,
        index.position_eq_some.mp hi⟩

end SlotSet

end Vantage
