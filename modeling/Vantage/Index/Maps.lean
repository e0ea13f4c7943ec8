import Vantage.Index.Sets
import Vantage.Lib.Table

/-!
# Maps addressed by committee position

Per-author, per-pair and per-reference state is kept in dense rows for members and in a map for
everything that names a key outside the committee.

Each container comes with the map it stands for, `value`, and with one equation for each of its
operations. A mutable reference that the source hands out is a function applied to the entry.
-/

namespace Vantage

variable {K : Type} [LinearOrder K] {index : CommitteeIndex K}

def CommitteeIndex.held {T : Type} (index : CommitteeIndex K) (g : Fin index.size → Option T) :
    List (Slot index × T) :=
  (List.finRange index.size).filterMap fun i => (g i).map fun v => (index.slotAt i, v)

theorem CommitteeIndex.enumerates_held {T : Type} (g : Fin index.size → Option T) :
    Enumerates ((index.held g).map fun e => (e.1.key, e.2))
      fun key => (index.position key).bind g := by
  have h : Enumerates (((List.finRange index.size).filterMap fun i =>
      (g i).map fun v => (i, v)).map fun x => ((index.slotAt x.1).key, x.2))
      fun key => (index.position key).bind g := by
    refine (Enumerates.positions g).rename index.slotAt_injective (fun i => ?_) fun key v hv => ?_
    · have hi : index.position (index.keys.get i) = some i := index.position_slotAt i
      rw [hi, Option.bind_some]
    · obtain ⟨i, hi, -⟩ := Option.bind_eq_some_iff.mp hv
      exact ⟨i, index.position_eq_some.mp hi⟩
  simpa only [CommitteeIndex.held, List.map_filterMap, Option.map_map, Function.comp_def] using h

/-! ### By author -/

/-- Per-author state: a value for every member, and a map for the others. -/
structure ByAuthor (index : CommitteeIndex K) (T : Type) where
  dense : Fin index.size → T
  outside : Table K T
  outside_none : ∀ key ∈ outside, index.position key = none

namespace ByAuthor

variable {T : Type}

def new [Inhabited T] : ByAuthor index T :=
  ⟨fun _ => default, ∅, fun _ h => absurd h (AList.notMem_empty _)⟩

def iter (m : ByAuthor index T) : List (Slot index × T) :=
  index.held (fun i => some (m.dense i)) ++
    (Table.pairs m.outside).map fun e => (index.slot e.1, e.2)

def get (m : ByAuthor index T) (author : Slot index) : Option T :=
  match author.position with
  | some i => some (m.dense i)
  | none => m.outside.lookup author.key

/-- Change the state of an author, which is created outside the committee. -/
def entry [Inhabited T] (m : ByAuthor index T) (f : T → T) : Slot index → ByAuthor index T
  | ⟨_, some i, _⟩ => { m with dense := Function.update m.dense i (f (m.dense i)) }
  | ⟨key, none, h⟩ =>
    { m with
      outside := m.outside.insert key (f ((m.outside.lookup key).getD default))
      outside_none := fun k hk => by
        rcases (AList.mem_insert _).mp hk with rfl | hk
        · exact h.symm
        · exact m.outside_none k hk }

def clear [Inhabited T] (m : ByAuthor index T) : Slot index → ByAuthor index T
  | ⟨_, some i, _⟩ => { m with dense := Function.update m.dense i default }
  | ⟨key, none, _⟩ =>
    { m with
      outside := m.outside.erase key
      outside_none := fun k hk => m.outside_none k (AList.mem_erase.mp hk).2 }

def value (m : ByAuthor index T) (key : K) : Option T :=
  match index.position key with
  | some i => some (m.dense i)
  | none => m.outside.lookup key

theorem value_some (m : ByAuthor index T) {key : K} {i : Fin index.size}
    (h : index.position key = some i) : m.value key = some (m.dense i) := by
  rw [value, h]

theorem value_none (m : ByAuthor index T) {key : K} (h : index.position key = none) :
    m.value key = m.outside.lookup key := by
  rw [value, h]

theorem get_eq_value (m : ByAuthor index T) (author : Slot index) :
    m.get author = m.value author.key := by
  rw [get, value, author.resolved]

theorem value_new [Inhabited T] (key : K) :
    (new : ByAuthor index T).value key = (index.position key).map fun _ => default := by
  unfold value
  cases index.position key <;> rfl

/-- What a change at the slot of a key does to the map: at that key `x`, elsewhere nothing. -/
theorem value_eq_update {m m' : ByAuthor index T} {slot : Slot index} {x : Option T}
    (hself : m'.value slot.key = x)
    (hdense : ∀ i, slot.position ≠ some i → m'.dense i = m.dense i)
    (hout : ∀ key, key ≠ slot.key → m'.outside.lookup key = m.outside.lookup key) :
    m'.value = Function.update m.value slot.key x := by
  funext key
  by_cases hkey : key = slot.key
  · subst hkey
    rw [Function.update_self, hself]
  · rw [Function.update_of_ne hkey]
    cases hp : index.position key with
    | none => rw [value_none _ hp, value_none _ hp, hout key hkey]
    | some i =>
      rw [value_some _ hp, value_some _ hp, hdense i fun hi => hkey ?_]
      rw [slot.key_eq hi]
      exact (index.position_eq_some.mp hp).symm

theorem value_entry [Inhabited T] (m : ByAuthor index T) (f : T → T) (author : Slot index) :
    (m.entry f author).value = Function.update m.value author.key
      (some (f ((m.value author.key).getD default))) := by
  obtain ⟨key, _ | i, h⟩ := author
  · refine value_eq_update ?_ (fun i _ => rfl) fun k hk => AList.lookup_insert_ne hk
    rw [value_none _ h.symm, value_none _ h.symm]
    exact AList.lookup_insert _
  · refine value_eq_update ?_ (fun j hj => Function.update_of_ne ?_ _ _) fun _ _ => rfl
    · rw [value_some _ h.symm, value_some _ h.symm]
      exact congrArg some (Function.update_self _ _ _)
    · rintro rfl
      exact hj rfl

theorem value_clear [Inhabited T] (m : ByAuthor index T) (author : Slot index) :
    (m.clear author).value =
      Function.update m.value author.key (author.position.map fun _ => default) := by
  obtain ⟨key, _ | i, h⟩ := author
  · refine value_eq_update ?_ (fun i _ => rfl) fun k hk => AList.lookup_erase_ne hk
    rw [value_none _ h.symm]
    exact AList.lookup_erase _ _
  · refine value_eq_update ?_ (fun j hj => Function.update_of_ne ?_ _ _) fun _ _ => rfl
    · rw [value_some _ h.symm]
      exact congrArg some (Function.update_self _ _ _)
    · rintro rfl
      exact hj rfl

theorem iter_enumerates (m : ByAuthor index T) :
    Enumerates (m.iter.map fun e => (e.1.key, e.2)) m.value := by
  have hlookup : ∀ {key i}, index.position key = some i → m.outside.lookup key = none := by
    intro key i hi
    refine AList.lookup_eq_none.mpr fun hmem => ?_
    rw [m.outside_none key hmem] at hi
    cases hi
  have hall := (index.enumerates_held fun i => some (m.dense i)).append
    (Table.enumerates_pairs m.outside) fun key => by
      cases hp : index.position key with
      | none => exact .inl rfl
      | some i => exact .inr (hlookup hp)
  have hiter : m.iter.map (fun e => (e.1.key, e.2)) =
      (index.held fun i => some (m.dense i)).map (fun e => (e.1.key, e.2)) ++
        Table.pairs m.outside := by
    simp [iter, Function.comp_def, CommitteeIndex.slot]
  rw [hiter]
  refine hall.congr fun key => ?_
  cases hp : index.position key with
  | none => rw [m.value_none hp]; rfl
  | some i => rw [m.value_some hp]; rfl

end ByAuthor

/-! ### By sender and author -/

/-- Per-pair state in rows by author; a row is empty until its first use. Pairs that name a key
outside the committee are kept apart. -/
structure ByPair (index : CommitteeIndex K) (T : Type) where
  rows : Fin index.size → Option (Fin index.size → Option T)
  outside : Table (K × K) T
  outside_none : ∀ pair ∈ outside, index.position pair.1 = none ∨ index.position pair.2 = none

namespace ByPair

variable {T : Type}

def new : ByPair index T := ⟨fun _ => none, ∅, fun _ h => absurd h (AList.notMem_empty _)⟩

def get (m : ByPair index T) (sender author : Slot index) : Option T :=
  match sender.position, author.position with
  | some s, some a => (m.rows a).bind fun row => row s
  | _, _ => m.outside.lookup (sender.key, author.key)

/-- Store a value under a pair that names an outsider. -/
def insertOutside (m : ByPair index T) (pair : K × K) (v : T)
    (h : index.position pair.1 = none ∨ index.position pair.2 = none) : ByPair index T where
  rows := m.rows
  outside := m.outside.insert pair v
  outside_none pair' h' := by
    rcases (AList.mem_insert _).mp h' with rfl | h'
    · exact h
    · exact m.outside_none pair' h'

/-- Store a value; the row of a member is sized on first use. -/
def insert (m : ByPair index T) (v : T) : Slot index → Slot index → ByPair index T
  | ⟨_, some s, _⟩, ⟨_, some a, _⟩ =>
    { m with
      rows := Function.update m.rows a
        (some (Function.update ((m.rows a).getD fun _ => none) s (some v))) }
  | ⟨sender, none, h⟩, ⟨author, _, _⟩ => m.insertOutside (sender, author) v (.inl h.symm)
  | ⟨sender, some _, _⟩, ⟨author, none, h⟩ => m.insertOutside (sender, author) v (.inr h.symm)

def remove (m : ByPair index T) (sender author : Slot index) : ByPair index T :=
  match sender.position, author.position with
  | some s, some a =>
    { m with
      rows := Function.update m.rows a ((m.rows a).map fun row => Function.update row s none) }
  | _, _ =>
    { m with
      outside := m.outside.erase (sender.key, author.key)
      outside_none := fun pair h => m.outside_none pair (AList.mem_erase.mp h).2 }

/-- Drop every pair that names an author, including senders outside the committee. -/
def clearAuthor (m : ByPair index T) (author : Slot index) : ByPair index T where
  rows :=
    match author.position with
    | some a => Function.update m.rows a none
    | none => m.rows
  outside := Table.retain (fun pair => decide (pair.2 ≠ author.key)) m.outside
  outside_none pair h := m.outside_none pair (Table.mem_of_mem_retain h)

def row (m : ByPair index T) (author : Slot index) : List (Slot index × T) :=
  (author.position.elim [] fun a => (m.rows a).elim [] index.held) ++
    (Table.pairs m.outside).filterMap fun e =>
      if e.1.2 = author.key then some (index.slot e.1.1, e.2) else none

def value (m : ByPair index T) (pair : K × K) : Option T :=
  match index.position pair.1, index.position pair.2 with
  | some s, some a => (m.rows a).bind fun row => row s
  | _, _ => m.outside.lookup pair

theorem value_some (m : ByPair index T) {pair : K × K} {s a : Fin index.size}
    (hs : index.position pair.1 = some s) (ha : index.position pair.2 = some a) :
    m.value pair = (m.rows a).bind fun row => row s := by
  rw [value, hs, ha]

theorem value_none (m : ByPair index T) {pair : K × K}
    (h : index.position pair.1 = none ∨ index.position pair.2 = none) :
    m.value pair = m.outside.lookup pair := by
  unfold value
  rcases h with h | h
  · rw [h]
  · rw [h]
    cases index.position pair.1 <;> rfl

theorem get_eq_value (m : ByPair index T) (sender author : Slot index) :
    m.get sender author = m.value (sender.key, author.key) := by
  rw [get, value, sender.resolved, author.resolved]

theorem value_new (pair : K × K) : (new : ByPair index T).value pair = none := by
  unfold value
  cases index.position pair.1 <;> cases index.position pair.2 <;> rfl

theorem members_or_outside (index : CommitteeIndex K) (pair : K × K) :
    (∃ s a, index.position pair.1 = some s ∧ index.position pair.2 = some a) ∨
      (index.position pair.1 = none ∨ index.position pair.2 = none) := by
  cases index.position pair.1 with
  | none => exact .inr (.inl rfl)
  | some s =>
    cases index.position pair.2 with
    | none => exact .inr (.inr rfl)
    | some a => exact .inl ⟨s, a, rfl, rfl⟩

theorem position_inj {key key' : K} {i : Fin index.size} (h : index.position key = some i)
    (h' : index.position key' = some i) : key = key' :=
  (index.position_eq_some.mp h).symm.trans (index.position_eq_some.mp h')

/-- What a change at a pair does to the map: at that pair `x`, elsewhere nothing. -/
theorem value_eq_update {m m' : ByPair index T} {pair : K × K} {x : Option T}
    (hself : m'.value pair = x)
    (hrows : ∀ s a, ¬(index.position pair.1 = some s ∧ index.position pair.2 = some a) →
      ((m'.rows a).bind fun row => row s) = (m.rows a).bind fun row => row s)
    (hout : ∀ pair', pair' ≠ pair → m'.outside.lookup pair' = m.outside.lookup pair') :
    m'.value = Function.update m.value pair x := by
  funext pair'
  by_cases hp : pair' = pair
  · subst hp
    rw [Function.update_self, hself]
  · rw [Function.update_of_ne hp]
    obtain ⟨s, a, hs, ha⟩ | h := members_or_outside index pair'
    · rw [value_some _ hs ha, value_some _ hs ha]
      refine hrows s a fun h => hp (Prod.ext ?_ ?_)
      · exact position_inj hs h.1
      · exact position_inj ha h.2
    · rw [value_none _ h, value_none _ h, hout pair' hp]

theorem value_insert (m : ByPair index T) (sender author : Slot index) (v : T) :
    (m.insert v sender author).value =
      Function.update m.value (sender.key, author.key) (some v) := by
  have hout : ∀ (pair : K × K) (h : index.position pair.1 = none ∨ index.position pair.2 = none),
      (m.insertOutside pair v h).value = Function.update m.value pair (some v) := by
    intro pair h
    refine value_eq_update ?_ (fun _ _ _ => rfl) fun pair' hp => AList.lookup_insert_ne hp
    rw [value_none _ h]
    exact AList.lookup_insert _
  obtain ⟨sender, _ | s, hs⟩ := sender
  · exact hout (sender, author.key) (.inl hs.symm)
  obtain ⟨author, _ | a, ha⟩ := author
  · exact hout (sender, author) (.inr ha.symm)
  · refine value_eq_update ?_ (fun s' a' hne => ?_) fun _ _ => rfl
    · rw [value_some _ hs.symm ha.symm]
      simp [insert]
    · simp only [insert, Function.update_apply]
      split
      · next haa =>
        subst haa
        have hss : s' ≠ s := by
          rintro rfl
          exact hne ⟨hs.symm, ha.symm⟩
        simp only [Option.bind_some, Function.update_of_ne hss]
        cases m.rows a' <;> rfl
      · rfl

theorem value_remove (m : ByPair index T) (sender author : Slot index) :
    (m.remove sender author).value = Function.update m.value (sender.key, author.key) none := by
  obtain ⟨sender, ps, hs⟩ := sender
  obtain ⟨author, pa, ha⟩ := author
  have hout : ps = none ∨ pa = none → (m.remove ⟨sender, ps, hs⟩ ⟨author, pa, ha⟩).value =
      Function.update m.value (sender, author) none := by
    intro h
    obtain ⟨ho, hr⟩ : (m.remove ⟨sender, ps, hs⟩ ⟨author, pa, ha⟩).outside =
        m.outside.erase (sender, author) ∧
          (m.remove ⟨sender, ps, hs⟩ ⟨author, pa, ha⟩).rows = m.rows := by
      rcases h with rfl | rfl
      · exact ⟨rfl, rfl⟩
      · cases ps <;> exact ⟨rfl, rfl⟩
    refine value_eq_update ?_ (fun _ _ _ => by rw [hr]) fun pair' hp => ?_
    · rw [value_none _ (h.imp hs.symm.trans ha.symm.trans), ho]
      exact AList.lookup_erase _ _
    · rw [ho]
      exact AList.lookup_erase_ne hp
  cases ps with
  | none => exact hout (.inl rfl)
  | some s =>
    cases pa with
    | none => exact hout (.inr rfl)
    | some a =>
      refine value_eq_update ?_ (fun s' a' hne => ?_) fun _ _ => rfl
      · rw [value_some _ hs.symm ha.symm]
        simp only [remove, Function.update_self]
        cases m.rows a <;> simp
      · simp only [remove, Function.update_apply]
        split
        · next haa =>
          subst haa
          have hss : s' ≠ s := by
            rintro rfl
            exact hne ⟨hs.symm, ha.symm⟩
          cases m.rows a' <;> simp [hss]
        · rfl

theorem value_clearAuthor (m : ByPair index T) (author : Slot index) (pair : K × K) :
    (m.clearAuthor author).value pair = if pair.2 = author.key then none else m.value pair := by
  obtain ⟨s, a, hs, ha⟩ | h := members_or_outside index pair
  · rw [value_some _ hs ha, value_some _ hs ha]
    by_cases hp : pair.2 = author.key
    · have hpos : author.position = some a := by rw [author.resolved, ← hp, ha]
      simp [clearAuthor, hpos, hp]
    · rw [if_neg hp]
      cases hpos : author.position with
      | none => simp [clearAuthor, hpos]
      | some b =>
        have hab : a ≠ b := by
          rintro rfl
          exact hp (position_inj ha (author.resolved ▸ hpos))
        simp [clearAuthor, hpos, hab]
  · rw [value_none _ h, value_none _ h]
    simp only [clearAuthor, Table.lookup_retain]
    by_cases hp : pair.2 = author.key <;> simp [hp]

theorem row_enumerates (m : ByPair index T) (author : Slot index) :
    Enumerates ((m.row author).map fun e => (e.1.key, e.2))
      fun sender => m.value (sender, author.key) := by
  have hdense : Enumerates ((author.position.elim [] fun a => (m.rows a).elim []
        index.held).map fun e => (e.1.key, e.2))
      fun sender => (index.position sender).bind fun s => author.position.bind fun a =>
        (m.rows a).bind fun row => row s := by
    cases author.position with
    | none => exact Enumerates.nil.congr fun sender => by simp
    | some a =>
      cases hr : m.rows a with
      | none => simpa [hr] using (Enumerates.nil : Enumerates ([] : List (K × T)) _)
      | some row => simpa [hr] using index.enumerates_held row
  have hout : Enumerates ((Table.pairs m.outside).filterMap fun e =>
        (if e.1.2 = author.key then some e.1.1 else none).map fun sender => (sender, e.2))
      fun sender => m.outside.lookup (sender, author.key) := by
    refine (Table.enumerates_pairs m.outside).pull (e := fun sender => (sender, author.key))
      (g := fun pair => if pair.2 = author.key then some pair.1 else none) ?_
    rintro ⟨sender, key⟩ sender'
    by_cases hkey : key = author.key
    · simp [hkey, eq_comm]
    · simp [hkey, Ne.symm hkey]
  have hrow : (m.row author).map (fun e => (e.1.key, e.2)) =
      (author.position.elim [] fun a => (m.rows a).elim [] index.held).map
        (fun e => (e.1.key, e.2)) ++ (Table.pairs m.outside).filterMap fun e =>
          (if e.1.2 = author.key then some e.1.1 else none).map fun sender => (sender, e.2) := by
    rw [row, List.map_append, List.map_filterMap]
    congr 1
    refine List.filterMap_congr fun e _ => ?_
    split <;> rfl
  rw [hrow]
  have hside : ∀ sender, (∃ s a, index.position sender = some s ∧
        index.position author.key = some a ∧ m.outside.lookup (sender, author.key) = none) ∨
      ((index.position sender).bind fun s => author.position.bind fun a =>
        (m.rows a).bind fun row => row s) = none ∧
          m.value (sender, author.key) = m.outside.lookup (sender, author.key) := by
    intro sender
    obtain ⟨s, a, hs, ha⟩ | h := members_or_outside index (sender, author.key)
    · refine .inl ⟨s, a, hs, ha, AList.lookup_eq_none.mpr fun hmem => ?_⟩
      have := m.outside_none _ hmem
      rw [hs, ha] at this
      simp at this
    · refine .inr ⟨?_, m.value_none h⟩
      rw [author.resolved]
      rcases h with h | h
      · exact congrArg (Option.bind · _) h
      · rw [h]
        cases index.position sender <;> rfl
  refine (hdense.append hout fun sender => ?_).congr fun sender => ?_
  · obtain ⟨-, -, -, -, h⟩ | ⟨h, -⟩ := hside sender
    · exact .inr h
    · exact .inl h
  · obtain ⟨s, a, hs, ha, h⟩ | ⟨h, hv⟩ := hside sender
    · rw [m.value_some hs ha, author.resolved, ha, hs, h, Option.or_none]
      rfl
    · rw [h, hv, Option.none_or]

end ByPair

/-! ### By block reference -/

variable {D : Type} [DecidableEq D]

/-- One coordinate of author and height: the first digest seen there, and its forks. -/
structure RefSlot (D T : Type) where
  head : D
  value : T
  forks : List (D × T)
  nodup : (head :: forks.map Prod.fst).Nodup

namespace RefSlot

variable {T : Type}

def get (r : RefSlot D T) (digest : D) : Option T :=
  if r.head = digest then some r.value
  else (r.forks.find? fun e => decide (e.1 = digest)).map Prod.snd

def change (f : T → T) (digest : D) (e : D × T) : D × T :=
  if e.1 = digest then (e.1, f e.2) else e

theorem change_fst (f : T → T) (digest : D) (e : D × T) : (change f digest e).1 = e.1 := by
  unfold change
  split <;> rfl

def getMut (r : RefSlot D T) (f : T → T) (digest : D) : RefSlot D T where
  head := r.head
  value := if r.head = digest then f r.value else r.value
  forks := if r.head = digest then r.forks else r.forks.map (change f digest)
  nodup := by
    split
    · exact r.nodup
    · simpa [List.map_map, Function.comp_def, change_fst] using r.nodup

/-- Change a value, which is created as a fork when it is not held. -/
def entry [Inhabited T] (r : RefSlot D T) (f : T → T) (digest : D) : RefSlot D T × Bool :=
  if h : digest ∈ r.head :: r.forks.map Prod.fst then (r.getMut f digest, false)
  else
    (⟨r.head, r.value, r.forks ++ [(digest, f default)], by
      rw [List.map_append, ← List.cons_append]
      exact List.nodup_append_comm.mp (List.nodup_cons.mpr ⟨h, r.nodup⟩)⟩, true)

theorem enumerates (r : RefSlot D T) : Enumerates ((r.head, r.value) :: r.forks) r.get where
  nodup := r.nodup
  mem d v := by
    obtain ⟨hhead, hforks⟩ := List.nodup_cons.mp r.nodup
    unfold get
    split
    · next hd =>
      subst hd
      rw [List.mem_cons]
      constructor
      · rintro (h | h)
        · cases h
          rfl
        · exact absurd (List.mem_map_of_mem h) hhead
      · rintro ⟨⟩
        exact .inl rfl
    · next hd =>
      have hne : (d, v) ≠ (r.head, r.value) := fun h => hd (congrArg Prod.fst h).symm
      rw [List.mem_cons, or_iff_right hne]
      generalize r.forks = forks at hforks
      induction forks with
      | nil => simp
      | cons e forks ih =>
        obtain ⟨he, hforks⟩ := List.nodup_cons.mp hforks
        rw [List.mem_cons]
        by_cases hed : e.1 = d
        · rw [List.find?_cons_of_pos (by simpa using hed), Option.map_some, Option.some.injEq]
          constructor
          · rintro (rfl | h)
            · rfl
            · exact absurd (List.mem_map_of_mem h) (hed ▸ he)
          · rintro rfl
            exact .inl (Prod.ext hed.symm rfl)
        · rw [List.find?_cons_of_neg (by simpa using hed)]
          exact (or_iff_right fun h => hed (congrArg Prod.fst h).symm).trans (ih hforks)

theorem get_isSome (r : RefSlot D T) (digest : D) :
    (r.get digest).isSome = true ↔ digest ∈ r.head :: r.forks.map Prod.fst := by
  rw [Option.isSome_iff_exists]
  have hkeys : r.head :: r.forks.map Prod.fst = ((r.head, r.value) :: r.forks).map Prod.fst := rfl
  rw [hkeys, List.mem_map]
  constructor
  · exact fun ⟨v, hv⟩ => ⟨(digest, v), (r.enumerates.mem _ _).mpr hv, rfl⟩
  · rintro ⟨⟨d, v⟩, h, rfl⟩
    exact ⟨v, (r.enumerates.mem _ _).mp h⟩

theorem find?_change (f : T → T) (digest d : D) (forks : List (D × T)) :
    ((forks.map (change f digest)).find? fun e => decide (e.1 = d)).map Prod.snd =
      ((forks.find? fun e => decide (e.1 = d)).map Prod.snd).map
        (if d = digest then f else id) := by
  simp only [List.find?_map, Function.comp_def, change_fst, Option.map_map]
  cases hfind : forks.find? fun e => decide (e.1 = d) with
  | none => rfl
  | some e =>
    have he : e.1 = d := by simpa using List.find?_some hfind
    by_cases hd : d = digest <;> simp [change, he, hd]

theorem get_getMut (r : RefSlot D T) (f : T → T) (digest : D) :
    (r.getMut f digest).get = Function.update r.get digest ((r.get digest).map f) := by
  funext d
  unfold get getMut
  by_cases hd : d = digest
  · subst hd
    rw [Function.update_self]
    by_cases hh : r.head = d
    · simp [hh]
    · simp only [hh, if_false, find?_change, if_true]
  · rw [Function.update_of_ne hd]
    by_cases hh : r.head = d
    · simp [hh, hd]
    · by_cases hg : r.head = digest
      · simp [hg, Ne.symm hd]
      · simp only [hh, hg, hd, if_false, find?_change, Option.map_id, id]

theorem get_entry [Inhabited T] (r : RefSlot D T) (f : T → T) (digest : D) :
    (r.entry f digest).1.get =
        Function.update r.get digest (some (f ((r.get digest).getD default))) ∧
      (r.entry f digest).2 = (r.get digest).isNone := by
  unfold entry
  split
  · next h =>
    obtain ⟨v, hv⟩ := Option.isSome_iff_exists.mp ((r.get_isSome digest).mpr h)
    exact ⟨by rw [get_getMut, hv]; rfl, by rw [hv]; rfl⟩
  · next h =>
    have hnone : r.get digest = none := by
      rw [← Option.not_isSome_iff_eq_none, r.get_isSome]
      exact h
    refine ⟨?_, by rw [hnone]; rfl⟩
    obtain ⟨hhead, hforks⟩ := not_or.mp (mt List.mem_cons.mpr h)
    funext d
    rw [hnone]
    by_cases hd : d = digest
    · subst hd
      have hfind : r.forks.find? (fun e => decide (e.1 = d)) = none := by
        rw [List.find?_eq_none]
        intro e he
        simpa using fun hed : e.1 = d => hforks (hed ▸ List.mem_map_of_mem he)
      simp [get, Ne.symm hhead, hfind]
    · rw [Function.update_of_ne hd]
      unfold get
      split
      · rfl
      · rw [List.find?_append]
        cases r.forks.find? fun e => decide (e.1 = d) with
        | some e => rfl
        | none => simp [Ne.symm hd]

end RefSlot

/-- Per-reference state: one lane of coordinates for each member, and a map for the others. -/
structure ByRef (index : CommitteeIndex K) (D T : Type) [DecidableEq D] where
  lanes : Fin index.size → Table ℕ (RefSlot D T)
  outside : Table (BlockRef K D) T
  outside_none : ∀ ref ∈ outside, index.position ref.author = none

namespace ByRef

variable {T : Type}

def new : ByRef index D T := ⟨fun _ => ∅, ∅, fun _ h => absurd h (AList.notMem_empty _)⟩

def get (m : ByRef index D T) (author : Slot index) (height : ℕ) (digest : D) : Option T :=
  match author.position with
  | some i => ((m.lanes i).lookup height).bind fun r => r.get digest
  | none => m.outside.lookup ⟨author.key, height, digest⟩

def getMut (m : ByRef index D T) (f : T → T) (height : ℕ) (digest : D) :
    Slot index → ByRef index D T
  | ⟨author, none, h⟩ =>
    { m with
      outside := (m.outside.lookup ⟨author, height, digest⟩).elim m.outside fun v =>
        m.outside.insert ⟨author, height, digest⟩ (f v)
      outside_none := fun ref hr => by
        cases hl : m.outside.lookup ⟨author, height, digest⟩ with
        | none => exact m.outside_none ref (by rwa [hl] at hr)
        | some v =>
          rw [hl] at hr
          rcases (AList.mem_insert _).mp hr with rfl | hr
          · exact h.symm
          · exact m.outside_none ref hr }
  | ⟨_, some i, _⟩ =>
    { m with
      lanes := ((m.lanes i).lookup height).elim m.lanes fun r =>
        Function.update m.lanes i ((m.lanes i).insert height (r.getMut f digest)) }

/-- The coordinate of a member after a change, and whether its value was created. -/
def entryAt [Inhabited T] (f : T → T) (digest : D) : Option (RefSlot D T) → RefSlot D T × Bool
  | none => (⟨digest, f default, [], List.nodup_singleton _⟩, true)
  | some r => r.entry f digest

/-- Change a value, which is created when it is not held; whether it was created. -/
def entry [Inhabited T] (m : ByRef index D T) (f : T → T) (height : ℕ) (digest : D) :
    Slot index → ByRef index D T × Bool
  | ⟨author, none, h⟩ =>
    ({ m with
        outside := m.outside.insert ⟨author, height, digest⟩
          (f ((m.outside.lookup ⟨author, height, digest⟩).getD default))
        outside_none := fun ref hr => by
          rcases (AList.mem_insert _).mp hr with rfl | hr
          · exact h.symm
          · exact m.outside_none ref hr },
      (m.outside.lookup ⟨author, height, digest⟩).isNone)
  | ⟨_, some i, _⟩ =>
    let r := entryAt f digest ((m.lanes i).lookup height)
    ({ m with lanes := Function.update m.lanes i ((m.lanes i).insert height r.1) }, r.2)

/-- The values of one author, with their coordinates, in the order in which they are drained. -/
def heldBy (m : ByRef index D T) (author : Slot index) : List ((ℕ × D) × T) :=
  match author.position with
  | some i =>
    (Table.sortedKeys (m.lanes i)).flatMap fun height =>
      (((m.lanes i).lookup height).elim [] fun r => (r.head, r.value) :: r.forks).map
        fun e => ((height, e.1), e.2)
  | none =>
    (Table.pairs m.outside).filterMap fun e =>
      (if e.1.author = author.key then some (e.1.height, e.1.digest) else none).map
        fun c => (c, e.2)

def drainAuthor (m : ByRef index D T) (author : Slot index) : ByRef index D T × List T :=
  match author.position with
  | some i =>
    ({ m with lanes := Function.update m.lanes i ∅ }, (m.heldBy author).map Prod.snd)
  | none =>
    ({ m with
        outside := Table.retain (fun ref => decide (ref.author ≠ author.key)) m.outside
        outside_none := fun ref h => m.outside_none ref (Table.mem_of_mem_retain h) },
      (m.heldBy author).map Prod.snd)

def value (m : ByRef index D T) (ref : BlockRef K D) : Option T :=
  match index.position ref.author with
  | some i => ((m.lanes i).lookup ref.height).bind fun r => r.get ref.digest
  | none => m.outside.lookup ref

theorem value_some (m : ByRef index D T) {ref : BlockRef K D} {i : Fin index.size}
    (h : index.position ref.author = some i) :
    m.value ref = ((m.lanes i).lookup ref.height).bind fun r => r.get ref.digest := by
  rw [value, h]

theorem value_none (m : ByRef index D T) {ref : BlockRef K D}
    (h : index.position ref.author = none) : m.value ref = m.outside.lookup ref := by
  rw [value, h]

theorem get_eq_value (m : ByRef index D T) (author : Slot index) (height : ℕ) (digest : D) :
    m.get author height digest = m.value ⟨author.key, height, digest⟩ := by
  rw [get, value, author.resolved]

theorem value_new (ref : BlockRef K D) : (new : ByRef index D T).value ref = none := by
  unfold value
  cases index.position ref.author <;> rfl

theorem value_update_lane {m m' : ByRef index D T} {author : K} {i : Fin index.size}
    (hi : index.position author = some i) {height : ℕ} {digest : D} {r : RefSlot D T}
    {x : Option T} (hlanes : m'.lanes = Function.update m.lanes i ((m.lanes i).insert height r))
    (hout : m'.outside = m.outside)
    (hr : ∀ d, r.get d = if d = digest then x
      else ((m.lanes i).lookup height).bind fun r => r.get d) :
    m'.value = Function.update m.value ⟨author, height, digest⟩ x := by
  funext ref
  obtain ⟨a, h, d⟩ := ref
  rw [Function.update_apply]
  cases ha : index.position a with
  | none =>
    have hne : (⟨a, h, d⟩ : BlockRef K D) ≠ ⟨author, height, digest⟩ := by
      rintro ⟨⟩
      rw [hi] at ha
      cases ha
    rw [if_neg hne, value_none _ ha, value_none _ ha, hout]
  | some j =>
    rw [value_some _ ha, value_some _ ha, hlanes, Function.update_apply]
    by_cases hj : j = i
    · subst hj
      obtain rfl : a = author := ByPair.position_inj ha hi
      rw [if_pos rfl]
      by_cases hh : h = height
      · subst hh
        simp [hr]
      · rw [AList.lookup_insert_ne hh]
        simp [hh]
    · have hne : a ≠ author := by
        rintro rfl
        exact hj (Option.some.inj (ha.symm.trans hi))
      simp [hj, hne]

theorem value_insert_outside {m m' : ByRef index D T} {author : K}
    (hi : index.position author = none) {height : ℕ} {digest : D} {v : T}
    (hlanes : m'.lanes = m.lanes)
    (hout : m'.outside = m.outside.insert ⟨author, height, digest⟩ v) :
    m'.value = Function.update m.value ⟨author, height, digest⟩ (some v) := by
  funext ref
  by_cases hr : ref = ⟨author, height, digest⟩
  · subst hr
    rw [Function.update_self, value_none _ hi, hout]
    exact AList.lookup_insert _
  · rw [Function.update_of_ne hr]
    cases ha : index.position ref.author with
    | none => rw [value_none _ ha, value_none _ ha, hout, AList.lookup_insert_ne hr]
    | some j => rw [value_some _ ha, value_some _ ha, hlanes]

theorem entryAt_spec [Inhabited T] (f : T → T) (digest : D) (o : Option (RefSlot D T)) :
    (entryAt f digest o).1.get = Function.update (fun d => o.bind fun r => r.get d) digest
        (some (f ((o.bind fun r => r.get digest).getD default))) ∧
      (entryAt f digest o).2 = (o.bind fun r => r.get digest).isNone := by
  cases o with
  | none =>
    refine ⟨?_, rfl⟩
    funext d
    rw [Function.update_apply]
    simp [entryAt, RefSlot.get, eq_comm]
  | some r => exact r.get_entry f digest

theorem value_entry [Inhabited T] (m : ByRef index D T) (f : T → T) (author : Slot index)
    (height : ℕ) (digest : D) :
    (m.entry f height digest author).1.value =
        Function.update m.value ⟨author.key, height, digest⟩
          (some (f ((m.value ⟨author.key, height, digest⟩).getD default))) ∧
      (m.entry f height digest author).2 = (m.value ⟨author.key, height, digest⟩).isNone := by
  obtain ⟨author, _ | i, h⟩ := author
  · have hv : m.value ⟨author, height, digest⟩ = m.outside.lookup ⟨author, height, digest⟩ :=
      m.value_none h.symm
    rw [hv]
    exact ⟨value_insert_outside h.symm rfl rfl, rfl⟩
  · have hv : m.value ⟨author, height, digest⟩ = ((m.lanes i).lookup height).bind
        fun r => r.get digest := m.value_some h.symm
    obtain ⟨hget, hnew⟩ := entryAt_spec f digest ((m.lanes i).lookup height)
    rw [hv]
    exact ⟨value_update_lane h.symm rfl rfl fun d => by rw [hget, Function.update_apply], hnew⟩

theorem value_getMut (m : ByRef index D T) (f : T → T) (author : Slot index) (height : ℕ)
    (digest : D) : (m.getMut f height digest author).value =
      Function.update m.value ⟨author.key, height, digest⟩
        ((m.value ⟨author.key, height, digest⟩).map f) := by
  have hsame : ∀ (m' : ByRef index D T) ref, m.value ref = none → m'.lanes = m.lanes →
      m'.outside = m.outside → m'.value = Function.update m.value ref none := by
    intro m' ref h hl ho
    rw [← h, Function.update_eq_self]
    funext ref
    rw [value, value, hl, ho]
  obtain ⟨author, _ | i, h⟩ := author
  · have hv : m.value ⟨author, height, digest⟩ = m.outside.lookup ⟨author, height, digest⟩ :=
      m.value_none h.symm
    cases hl : m.outside.lookup ⟨author, height, digest⟩ with
    | none =>
      rw [hv, hl]
      exact hsame _ _ (hv.trans hl) rfl (by simp [getMut, hl])
    | some v =>
      rw [hv, hl]
      exact value_insert_outside h.symm rfl (by simp [getMut, hl])
  · have hv : m.value ⟨author, height, digest⟩ = ((m.lanes i).lookup height).bind
        fun r => r.get digest := m.value_some h.symm
    cases hl : (m.lanes i).lookup height with
    | none =>
      rw [hl] at hv
      rw [hv]
      exact hsame _ _ hv (by simp [getMut, hl]) rfl
    | some r =>
      rw [hl] at hv
      rw [hv]
      refine value_update_lane h.symm (r := r.getMut f digest) (by simp [getMut, hl]) rfl
        fun d => ?_
      rw [r.get_getMut, Function.update_apply, hl]
      rfl

theorem heldBy_enumerates (m : ByRef index D T) (author : Slot index) :
    Enumerates (m.heldBy author) fun c => m.value ⟨author.key, c.1, c.2⟩ := by
  unfold heldBy
  cases hp : author.position with
  | none =>
    refine Enumerates.congr ((Table.enumerates_pairs m.outside).pull
      (e := fun c => ⟨author.key, c.1, c.2⟩)
      (g := fun ref => if ref.author = author.key then some (ref.height, ref.digest) else none) ?_)
      fun c => (m.value_none (author.resolved ▸ hp)).symm
    rintro ⟨a, h, d⟩ ⟨h', d'⟩
    by_cases ha : a = author.key
    · simp [ha, eq_comm]
    · simp [ha, Ne.symm ha]
  | some i =>
    have hi : index.position author.key = some i := author.resolved ▸ hp
    have hall : ∀ height, Enumerates (((m.lanes i).lookup height).elim []
        fun r => (r.head, r.value) :: r.forks)
        fun digest => ((m.lanes i).lookup height).bind fun r => r.get digest := by
      intro height
      cases (m.lanes i).lookup height with
      | none => exact Enumerates.nil
      | some r => exact r.enumerates
    have hnodup : (Table.sortedKeys (m.lanes i)).Nodup :=
      (List.perm_insertionSort _ _).nodup_iff.mpr (m.lanes i).nodupKeys
    refine (Enumerates.flatMap hnodup hall).congr fun c => ?_
    rw [m.value_some hi]
    split
    · rfl
    · next hmem =>
      rw [AList.lookup_eq_none.mpr (mt Table.mem_sortedKeys.mpr hmem)]
      rfl

theorem drainAuthor_snd (m : ByRef index D T) (author : Slot index) :
    (m.drainAuthor author).2 = (m.heldBy author).map Prod.snd := by
  unfold drainAuthor
  split <;> rfl

theorem value_drainAuthor (m : ByRef index D T) (author : Slot index) (ref : BlockRef K D) :
    (m.drainAuthor author).1.value ref =
      if ref.author = author.key then none else m.value ref := by
  cases ha : index.position ref.author with
  | none =>
    rw [value_none _ ha, value_none _ ha]
    by_cases hr : ref.author = author.key
    · have hp : author.position = none := by rw [author.resolved, ← hr, ha]
      unfold drainAuthor
      split
      · next i hi => rw [hp] at hi; cases hi
      · simp [Table.lookup_retain, hr]
    · unfold drainAuthor
      split
      · simp [hr]
      · simp [Table.lookup_retain, hr]
  | some j =>
    rw [value_some _ ha, value_some _ ha]
    by_cases hr : ref.author = author.key
    · have hp : author.position = some j := by rw [author.resolved, ← hr, ha]
      unfold drainAuthor
      split
      · next i hi =>
        obtain rfl := Option.some.inj (hi.symm.trans hp)
        simp [hr]
      · next hi => rw [hp] at hi; cases hi
    · unfold drainAuthor
      split
      · next i hi =>
        have hne : j ≠ i := by
          rintro rfl
          exact hr (ByPair.position_inj ha (author.resolved ▸ hi))
        simp [hr, hne]
      · simp [hr]

end ByRef

end Vantage
