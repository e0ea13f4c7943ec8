import Vantage.Index.Maps

/-!
# The containers are sets and maps of keys

Every container is followed through an arbitrary sequence of its operations, beside the set or
map of plain keys that undergoes the same sequence. `ActsAs` says what a caller can see: the
answers of the container are those of the set or map.
-/

namespace Vantage

variable {K : Type} [LinearOrder K] {index : CommitteeIndex K}

/-! ### Sets -/

/-- The changes of a set. -/
inductive SetOp (α : Type)
  | insert (a : α)
  | remove (a : α)

def SetOp.meaning {α κ : Type} (key : α → κ) (s : Set κ) : SetOp α → Set κ
  | insert a => Insert.insert (key a) s
  | remove a => s \ {key a}

namespace MemberSet

def apply (m : MemberSet) : SetOp ℕ → MemberSet
  | .insert i => (m.insert i).1
  | .remove i => (m.remove i).1

/-- The answers of a set of positions are those of the set. -/
structure ActsAs (m : MemberSet) (s : Set ℕ) : Prop where
  insert : ∀ i, (m.insert i).2 = true ↔ i ∉ s
  remove : ∀ i, (m.remove i).2 = true ↔ i ∈ s
  contains : ∀ i, m.contains i = true ↔ i ∈ s
  iter : m.iter.Nodup ∧ ∀ i, i ∈ m.iter ↔ i ∈ s

theorem positions_apply (m : MemberSet) (op : SetOp ℕ) :
    SetOp.meaning id m.positions op = (m.apply op).positions := by
  cases op with
  | insert i => exact (m.positions_insert i).1.symm
  | remove i => exact (m.positions_remove i).1.symm

theorem actsAs_run (ops : List (SetOp ℕ)) :
    (ops.foldl apply empty).ActsAs (ops.foldl (SetOp.meaning id) ∅) := by
  rw [← positions_empty, List.foldl_hom positions positions_apply]
  generalize ops.foldl apply empty = m
  exact ⟨fun i => (m.positions_insert i).2, fun i => (m.positions_remove i).2, fun _ => Iff.rfl,
    m.iter_nodup, m.mem_iter⟩

end MemberSet

namespace SlotSet

def apply (s : SlotSet index) : SetOp (Slot index) → SlotSet index
  | .insert slot => (s.insert slot).1
  | .remove slot => (s.remove slot).1

/-- The answers of a set of slots are those of the set of keys. -/
structure ActsAs (s : SlotSet index) (keys : Set K) : Prop where
  insert : ∀ slot, (s.insert slot).2 = true ↔ slot.key ∉ keys
  remove : ∀ slot, (s.remove slot).2 = true ↔ slot.key ∈ keys
  iter : (s.iter.map Slot.key).Nodup ∧ ∀ key, key ∈ s.iter.map Slot.key ↔ key ∈ keys

theorem keys_apply (s : SlotSet index) (op : SetOp (Slot index)) :
    SetOp.meaning Slot.key s.keys op = (s.apply op).keys := by
  cases op with
  | insert slot => exact (s.keys_insert slot).1.symm
  | remove slot => exact (s.keys_remove slot).1.symm

theorem actsAs_run (ops : List (SetOp (Slot index))) :
    (ops.foldl apply empty).ActsAs (ops.foldl (SetOp.meaning Slot.key) ∅) := by
  rw [← keys_empty, List.foldl_hom keys keys_apply]
  generalize ops.foldl apply empty = s
  exact ⟨fun slot => (s.keys_insert slot).2, fun slot => (s.keys_remove slot).2, s.iter_keys⟩

end SlotSet

/-! ### Maps -/

namespace ByAuthor

variable {T : Type} [Inhabited T]

/-- The changes of a map by author. -/
inductive Op (index : CommitteeIndex K) (T : Type)
  | entry (author : Slot index) (f : T → T)
  | clear (author : Slot index)

def apply (m : ByAuthor index T) : Op index T → ByAuthor index T
  | .entry author f => m.entry f author
  | .clear author => m.clear author

def Op.meaning (f : K → Option T) : Op index T → K → Option T
  | entry author g => Function.update f author.key (some (g ((f author.key).getD default)))
  | clear author =>
    Function.update f author.key ((index.position author.key).map fun _ => default)

/-- The answers are those of the map by author. -/
structure ActsAs (m : ByAuthor index T) (f : K → Option T) : Prop where
  get : ∀ author, m.get author = f author.key
  iter : Enumerates (m.iter.map fun e => (e.1.key, e.2)) f

theorem value_apply (m : ByAuthor index T) (op : Op index T) :
    op.meaning m.value = (m.apply op).value := by
  cases op with
  | entry author f => exact (m.value_entry f author).symm
  | clear author =>
    rw [apply, value_clear, author.resolved]
    rfl

theorem actsAs_run (ops : List (Op index T)) : (ops.foldl apply new).ActsAs
    (ops.foldl Op.meaning fun key => (index.position key).map fun _ => default) := by
  rw [← funext value_new, List.foldl_hom value value_apply]
  exact ⟨get_eq_value _, iter_enumerates _⟩

end ByAuthor

namespace ByPair

variable {T : Type}

/-- The changes of a map by pair. -/
inductive Op (index : CommitteeIndex K) (T : Type)
  | insert (sender author : Slot index) (v : T)
  | remove (sender author : Slot index)
  | clearAuthor (author : Slot index)

def apply (m : ByPair index T) : Op index T → ByPair index T
  | .insert sender author v => m.insert v sender author
  | .remove sender author => m.remove sender author
  | .clearAuthor author => m.clearAuthor author

def Op.meaning (f : K × K → Option T) : Op index T → K × K → Option T
  | insert sender author v => Function.update f (sender.key, author.key) (some v)
  | remove sender author => Function.update f (sender.key, author.key) none
  | clearAuthor author => fun pair => if pair.2 = author.key then none else f pair

/-- The answers are those of the map by pair. -/
structure ActsAs (m : ByPair index T) (f : K × K → Option T) : Prop where
  get : ∀ sender author, m.get sender author = f (sender.key, author.key)
  row : ∀ author, Enumerates ((m.row author).map fun e => (e.1.key, e.2))
    fun sender => f (sender, author.key)

theorem value_apply (m : ByPair index T) (op : Op index T) :
    op.meaning m.value = (m.apply op).value := by
  cases op with
  | insert sender author v => exact (m.value_insert sender author v).symm
  | remove sender author => exact (m.value_remove sender author).symm
  | clearAuthor author => exact (funext (m.value_clearAuthor author)).symm

theorem actsAs_run (ops : List (Op index T)) :
    (ops.foldl apply new).ActsAs (ops.foldl Op.meaning fun _ => none) := by
  rw [← funext value_new, List.foldl_hom value value_apply]
  exact ⟨get_eq_value _, row_enumerates _⟩

end ByPair

namespace ByRef

variable {D T : Type} [DecidableEq D] [Inhabited T]

/-- The changes of a map by reference. -/
inductive Op (index : CommitteeIndex K) (D T : Type)
  | getMut (author : Slot index) (height : ℕ) (digest : D) (f : T → T)
  | entry (author : Slot index) (height : ℕ) (digest : D) (f : T → T)
  | drainAuthor (author : Slot index)

def apply (m : ByRef index D T) : Op index D T → ByRef index D T
  | .getMut author height digest f => m.getMut f height digest author
  | .entry author height digest f => (m.entry f height digest author).1
  | .drainAuthor author => (m.drainAuthor author).1

def Op.meaning (f : BlockRef K D → Option T) : Op index D T → BlockRef K D → Option T
  | getMut author height digest g =>
    let ref := ⟨author.key, height, digest⟩
    Function.update f ref ((f ref).map g)
  | entry author height digest g =>
    let ref := ⟨author.key, height, digest⟩
    Function.update f ref (some (g ((f ref).getD default)))
  | drainAuthor author => fun ref => if ref.author = author.key then none else f ref

/-- The answers are those of the map by reference. -/
structure ActsAs (m : ByRef index D T) (f : BlockRef K D → Option T) : Prop where
  get : ∀ author height digest, m.get author height digest = f ⟨author.key, height, digest⟩
  created : ∀ author height digest g,
    (m.entry g height digest author).2 = (f ⟨author.key, height, digest⟩).isNone
  drain : ∀ author, ∃ held : List ((ℕ × D) × T),
    (m.drainAuthor author).2 = held.map Prod.snd ∧
      Enumerates held fun c => f ⟨author.key, c.1, c.2⟩

theorem value_apply (m : ByRef index D T) (op : Op index D T) :
    op.meaning m.value = (m.apply op).value := by
  cases op with
  | getMut author height digest f => exact (m.value_getMut f author height digest).symm
  | entry author height digest f => exact (m.value_entry f author height digest).1.symm
  | drainAuthor author => exact (funext (m.value_drainAuthor author)).symm

theorem actsAs_run (ops : List (Op index D T)) :
    (ops.foldl apply new).ActsAs (ops.foldl Op.meaning fun _ => none) := by
  rw [← funext value_new, List.foldl_hom value value_apply]
  generalize ops.foldl apply new = m
  exact ⟨m.get_eq_value, fun author height digest g => (m.value_entry g author height digest).2,
    fun author => ⟨m.heldBy author, m.drainAuthor_snd author, m.heldBy_enumerates author⟩⟩

end ByRef

/-- In a committee of any size, and through every sequence of operations with members and
outsiders, the containers answer as sets and maps of keys: a member of a per-author map starts
from the default state and returns to it, everything else is absent until it is entered, and an
iteration yields each element that is held once. -/
theorem indexed_containers_act_as_keyed (committee : Committee K) (D T : Type) [DecidableEq D]
    [Inhabited T] :
    (∀ ops : List (SetOp ℕ),
        (ops.foldl MemberSet.apply .empty).ActsAs (ops.foldl (SetOp.meaning id) ∅)) ∧
      (∀ ops : List (SetOp (Slot (.new committee))),
        (ops.foldl SlotSet.apply .empty).ActsAs (ops.foldl (SetOp.meaning Slot.key) ∅)) ∧
      (∀ ops : List (ByAuthor.Op (.new committee) T), (ops.foldl ByAuthor.apply .new).ActsAs
        (ops.foldl ByAuthor.Op.meaning fun key =>
          ((CommitteeIndex.new committee).position key).map fun _ => default)) ∧
      (∀ ops : List (ByPair.Op (.new committee) T), (ops.foldl ByPair.apply .new).ActsAs
        (ops.foldl ByPair.Op.meaning fun _ => none)) ∧
      ∀ ops : List (ByRef.Op (.new committee) D T), (ops.foldl ByRef.apply .new).ActsAs
        (ops.foldl ByRef.Op.meaning fun _ => none) :=
  ⟨MemberSet.actsAs_run, SlotSet.actsAs_run, ByAuthor.actsAs_run, ByPair.actsAs_run,
    ByRef.actsAs_run⟩

end Vantage
