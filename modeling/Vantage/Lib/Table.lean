import Mathlib.Data.List.AList
import Mathlib.Data.List.FinRange
import Mathlib.Data.Finset.Card
import Mathlib.Algebra.Order.BigOperators.Group.Finset
import Mathlib.Algebra.GroupWithZero.Nat
import Mathlib.Data.List.Sort
import Vantage.Lib.Quorum

/-!
# Keyed tables

A `Table α β` is a finite map with decidable keys, kept as an association list without
repeated keys.

* `Table.keysWhere P m`: the finite set of keys whose value satisfies `P`, with the effect
  of an insertion on it;
* `Table.count P m` and `Table.weight w P m`: how many such keys there are, and how much
  they weigh;
* `Table.sortedKeys`: the keys in increasing order;
* `Table.lookup_eraseAll`: erasing a list of keys;
* `Table.comp_lookup_insert`: what is read off the entries after an insertion;
* `Enumerates l f`: the list `l` has every entry of the map `f` once.
-/

/-- A finite map from `α` to `β`. -/
abbrev Table (α β : Type) : Type := AList (fun _ : α => β)

namespace Table

variable {α β : Type} [DecidableEq α] {m : Table α β} {P : β → Bool} {k : α}

def keysWhere (P : β → Bool) (m : Table α β) : Finset α :=
  (m.keys.filter fun k => (m.lookup k).any P).toFinset

def count (P : β → Bool) (m : Table α β) : ℕ := (keysWhere P m).card

/-- The total weight of the keys whose value satisfies `P`. -/
def weight (w : α → ℕ) (P : β → Bool) (m : Table α β) : ℕ := ∑ k ∈ keysWhere P m, w k

/-- The least vote, in the order `le`, that at least `threshold` keys cast; a value may abstain. -/
def winner {γ : Type} [DecidableEq γ] (vote : β → Option γ) (le : γ → γ → Bool) (threshold : ℕ)
    (m : Table α β) : Option γ :=
  ((m.keys.filterMap fun k => (m.lookup k).bind vote).insertionSort
    fun a b => le a b = true).find? fun v =>
      decide (threshold ≤ count (fun x => decide (vote x = some v)) m)

def size (m : Table α β) : ℕ := m.keys.length

theorem winner_count {γ : Type} [DecidableEq γ] {vote : β → Option γ} {le : γ → γ → Bool}
    {threshold : ℕ} {v : γ} (h : winner vote le threshold m = some v) :
    threshold ≤ count (fun x => decide (vote x = some v)) m := by
  have := List.find?_some h
  exact of_decide_eq_true this

theorem mem_keysWhere :
    k ∈ keysWhere P m ↔ ∃ v, m.lookup k = some v ∧ P v = true := by
  simp only [keysWhere, List.mem_toFinset, List.mem_filter, ← AList.mem_keys]
  constructor
  · rintro ⟨-, h⟩
    exact Option.any_eq_true_iff_get P _ |>.mp h |> fun ⟨hs, hp⟩ =>
      ⟨(m.lookup k).get hs, (Option.some_get hs).symm, hp⟩
  · rintro ⟨v, hv, hp⟩
    refine ⟨AList.lookup_isSome.mp (by rw [hv]; rfl), ?_⟩
    rw [hv]
    exact hp

theorem keysWhere_insert (P : β → Bool) (m : Table α β) (k : α) (v : β) :
    keysWhere P (m.insert k v) =
      if P v then insert k (keysWhere P m) else (keysWhere P m).erase k := by
  ext a
  by_cases ha : a = k
  · subst ha
    by_cases hv : P v <;> simp [mem_keysWhere, hv]
  · by_cases hv : P v <;> simp [mem_keysWhere, hv, ha, AList.lookup_insert_ne ha]

theorem notMem_keysWhere_of_notMem (h : k ∉ m) :
    k ∉ keysWhere P m := by
  rw [mem_keysWhere]
  rintro ⟨v, hv, -⟩
  rw [AList.lookup_eq_none.mpr h] at hv
  cases hv

theorem count_insert_of_notMem (P : β → Bool) (v : β) (h : k ∉ m) :
    count P (m.insert k v) = count P m + if P v then 1 else 0 := by
  have hk := notMem_keysWhere_of_notMem (P := P) h
  rw [count, keysWhere_insert]
  split
  · rw [Finset.card_insert_of_notMem hk, count]
  · rw [Finset.erase_eq_of_notMem hk, count, Nat.add_zero]

theorem weight_insert_of_notMem (w : α → ℕ) (P : β → Bool) (v : β) (h : k ∉ m) :
    weight w P (m.insert k v) = weight w P m + if P v then w k else 0 := by
  have hk := notMem_keysWhere_of_notMem (P := P) h
  rw [weight, keysWhere_insert]
  split
  · rw [Finset.sum_insert hk, weight, Nat.add_comm]
  · rw [Finset.erase_eq_of_notMem hk, weight, Nat.add_zero]

theorem size_insert_of_notMem (v : β) (h : k ∉ m) :
    size (m.insert k v) = size m + 1 := by
  rw [size, size, AList.keys_insert, List.length_cons,
    List.erase_of_not_mem (fun hk => h (AList.mem_keys.mpr hk))]

theorem size_insert_of_mem (v : β) (h : k ∈ m) :
    size (m.insert k v) = size m := by
  have hk : k ∈ m.keys := AList.mem_keys.mp h
  have := List.length_pos_of_mem hk
  rw [size, size, AList.keys_insert, List.length_cons, List.length_erase_of_mem hk]
  omega

theorem size_erase_of_mem (h : k ∈ m) :
    size (m.erase k) + 1 = size m := by
  have hk : k ∈ m.keys := AList.mem_keys.mp h
  have := List.length_pos_of_mem hk
  rw [size, size, AList.keys_erase, List.length_erase_of_mem hk]
  omega

theorem size_le_card {s : Finset α} (h : ∀ k, (m.lookup k).isSome = true → k ∈ s) :
    size m ≤ s.card := by
  rw [size, ← List.toFinset_card_of_nodup (AList.keys_nodup m)]
  refine Finset.card_le_card fun k hk => h k ?_
  rwa [AList.lookup_isSome, AList.mem_keys, ← List.mem_toFinset]

theorem size_le_size {γ : Type} {m' : Table α γ}
    (h : ∀ k, (m.lookup k).isSome = true → (m'.lookup k).isSome = true) : size m ≤ size m' := by
  have hcard : m'.keys.toFinset.card = size m' :=
    List.toFinset_card_of_nodup (AList.keys_nodup m')
  rw [← hcard]
  refine size_le_card fun k hk => ?_
  rw [List.mem_toFinset, ← AList.mem_keys, ← AList.lookup_isSome]
  exact h k hk

/-- What is found after a key was erased was there before, under another key. -/
theorem lookup_erase_some {k k' : α} {v : β} (h : (m.erase k).lookup k' = some v) :
    k' ≠ k ∧ m.lookup k' = some v := by
  by_cases hk : k' = k
  · subst hk
    rw [AList.lookup_erase] at h
    cases h
  · rw [AList.lookup_erase_ne hk] at h
    exact ⟨hk, h⟩

theorem lookup_insert_cases {k k' : α} {v v' : β} (h : (m.insert k v).lookup k' = some v') :
    (k' = k ∧ v' = v) ∨ m.lookup k' = some v' := by
  by_cases hk : k' = k
  · subst hk
    rw [AList.lookup_insert] at h
    exact .inl ⟨rfl, (Option.some.inj h).symm⟩
  · rw [AList.lookup_insert_ne hk] at h
    exact .inr h

theorem lookup_foldl_insert_cases {ε : Type} {key : ε → α} {val : ε → β} {l : List ε} {v : β}
    (h : (l.foldl (fun m e => m.insert (key e) (val e)) m).lookup k = some v) :
    m.lookup k = some v ∨ ∃ e ∈ l, key e = k ∧ val e = v := by
  induction l generalizing m with
  | nil => exact .inl h
  | cons e l ih =>
    rcases ih h with hold | ⟨e', he', hkv⟩
    · rcases lookup_insert_cases hold with ⟨rfl, rfl⟩ | hold
      · exact .inr ⟨e, List.mem_cons_self, rfl, rfl⟩
      · exact .inl hold
    · exact .inr ⟨e', List.mem_cons_of_mem e he', hkv⟩

theorem ne_of_lookup {k k' : α} {v : β} (h : m.lookup k' = some v) (hk : k ∉ m) :
    k' ≠ k := by
  rintro rfl
  rw [AList.lookup_eq_none.mpr hk] at h
  cases h

/-- Replacing the value of a key leaves the counts of the predicates on which the two
values agree. -/
theorem keysWhere_insert_of_lookup {v v' : β} (h : m.lookup k = some v') (hP : P v = P v') :
    keysWhere P (m.insert k v) = keysWhere P m := by
  rw [keysWhere_insert]
  split
  · next hv =>
    exact Finset.insert_eq_of_mem (mem_keysWhere.mpr ⟨v', h, hP ▸ hv⟩)
  · next hv =>
    refine Finset.erase_eq_of_notMem fun hk => ?_
    obtain ⟨v'', h'', hv''⟩ := mem_keysWhere.mp hk
    rw [h] at h''
    cases h''
    exact hv (hP ▸ hv'')

theorem notMem_keysWhere_of_lookup {v : β} (h : m.lookup k = some v) (hv : P v = false) :
    k ∉ keysWhere P m := by
  rw [mem_keysWhere]
  rintro ⟨v', h', hv'⟩
  rw [h] at h'
  cases h'
  rw [hv] at hv'
  cases hv'

/-- Replacing a value that fails `P` adds the weight of the key if the new value satisfies
it. -/
theorem weight_insert_of_lookup (w : α → ℕ) {v' : β} (v : β) (h : m.lookup k = some v')
    (hv' : P v' = false) :
    weight w P (m.insert k v) = weight w P m + if P v then w k else 0 := by
  have hk := notMem_keysWhere_of_lookup h hv'
  rw [weight, keysWhere_insert]
  split
  · rw [Finset.sum_insert hk, weight, Nat.add_comm]
  · rw [Finset.erase_eq_of_notMem hk, weight, Nat.add_zero]

theorem weight_insert_of_lookup_eq (w : α → ℕ) {v v' : β} (h : m.lookup k = some v')
    (hP : P v = P v') :
    weight w P (m.insert k v) = weight w P m := by
  rw [weight, keysWhere_insert_of_lookup h hP, weight]

theorem weight_or (w : α → ℕ) {P Q : β → Bool} (m : Table α β)
    (h : ∀ v, P v = true → Q v = false) :
    weight w (fun v => P v || Q v) m = weight w P m + weight w Q m := by
  have hunion : keysWhere (fun v => P v || Q v) m = keysWhere P m ∪ keysWhere Q m := by
    ext k
    simp only [mem_keysWhere, Finset.mem_union, Bool.or_eq_true, and_or_left, exists_or]
  have hdisj : Disjoint (keysWhere P m) (keysWhere Q m) := by
    refine Finset.disjoint_left.mpr fun k hP hQ => ?_
    obtain ⟨v, hv, hp⟩ := mem_keysWhere.mp hP
    obtain ⟨v', hv', hq⟩ := mem_keysWhere.mp hQ
    obtain rfl : v = v' := Option.some.inj (hv.symm.trans hv')
    rw [h v hp] at hq
    cases hq
  rw [weight, hunion, Finset.sum_union hdisj, weight, weight]

theorem count_eq_weight (P : β → Bool) (m : Table α β) : count P m = weight (fun _ => 1) P m :=
  Finset.card_eq_sum_ones _

theorem count_true (m : Table α β) : count (fun _ => true) m = size m := by
  have h : (keysWhere (fun _ => true) m) = m.keys.toFinset := by
    ext k
    rw [mem_keysWhere, List.mem_toFinset, ← AList.mem_keys, ← AList.lookup_isSome,
      Option.isSome_iff_exists]
    simp
  rw [count, h, size, List.toFinset_card_of_nodup m.keys_nodup]

theorem count_insert_add (P : β → Bool) (m : Table α β) (k : α) (v : β) :
    count P (m.insert k v) + ((m.lookup k).any P).toNat = count P m + (P v).toNat := by
  have hk : k ∈ keysWhere P m ↔ (m.lookup k).any P = true := by
    rw [mem_keysWhere, Option.any_eq_true]
  rw [count, keysWhere_insert, count]
  by_cases hold : (m.lookup k).any P = true
  · have hmem := hk.mpr hold
    have hpos := Finset.card_pos.mpr ⟨k, hmem⟩
    split <;> simp_all [Finset.card_erase_of_mem hmem]
  · have hmem := fun h => hold (hk.mp h)
    split <;> simp_all [Finset.card_insert_of_notMem hmem]

theorem count_le_count {γ : Type} {m' : Table α γ} {Q : γ → Bool}
    (h : ∀ k v, m'.lookup k = some v → Q v = true → ∃ w, m.lookup k = some w ∧ P w = true) :
    count Q m' ≤ count P m := by
  refine Finset.card_le_card fun k hk => ?_
  obtain ⟨v, hv, hQ⟩ := mem_keysWhere.mp hk
  exact mem_keysWhere.mpr (h k v hv hQ)

theorem count_eq_zero (h : ∀ k v, m.lookup k = some v → P v = false) : count P m = 0 := by
  refine Finset.card_eq_zero.mpr (Finset.eq_empty_of_forall_notMem fun k hk => ?_)
  obtain ⟨v, hv, hP⟩ := mem_keysWhere.mp hk
  rw [h k v hv] at hP
  cases hP

/-- The keys in increasing order. -/
def sortedKeys [LinearOrder α] (m : Table α β) : List α :=
  m.keys.insertionSort (· ≤ ·)

theorem atLeast_of_count {n : ℕ} {members : Finset α} {Q : α → Prop} (h : n ≤ count P m)
    (hQ : ∀ k v, m.lookup k = some v → P v = true → k ∈ members ∧ Q k) :
    AtLeast members n Q := by
  refine ⟨keysWhere P m, fun k hk => ?_, h, fun k hk => ?_⟩
  · obtain ⟨v, hv, hP⟩ := mem_keysWhere.mp hk
    exact (hQ k v hv hP).1
  · obtain ⟨v, hv, hP⟩ := mem_keysWhere.mp hk
    exact (hQ k v hv hP).2

/-- A weight of entries as a number of members, if members weigh at most one and nobody else
weighs anything. -/
theorem atLeast_of_weight {w : α → ℕ} {n : ℕ} {members : Finset α} (hone : ∀ k, w k ≤ 1)
    (hzero : ∀ k, k ∉ members → w k = 0) (h : n ≤ weight w P m) :
    AtLeast members n fun k => ∃ v, m.lookup k = some v ∧ P v = true := by
  refine ⟨(keysWhere P m).filter (· ∈ members), fun k hk => (Finset.mem_filter.mp hk).2, ?_,
    fun k hk => mem_keysWhere.mp (Finset.mem_filter.mp hk).1⟩
  have hsum : weight w P m = ∑ k ∈ (keysWhere P m).filter (· ∈ members), w k := by
    refine (Finset.sum_subset (Finset.filter_subset _ _) fun k hk hno => hzero k fun hm => ?_).symm
    exact hno (Finset.mem_filter.mpr ⟨hk, hm⟩)
  calc n ≤ ∑ k ∈ (keysWhere P m).filter (· ∈ members), w k := by rw [← hsum]; exact h
    _ ≤ ∑ _k ∈ (keysWhere P m).filter (· ∈ members), 1 := Finset.sum_le_sum fun k _ => hone k
    _ = _ := (Finset.card_eq_sum_ones _).symm

section

omit [DecidableEq α]

theorem mem_sortedKeys [LinearOrder α] :
    k ∈ sortedKeys m ↔ k ∈ m := by
  rw [sortedKeys, List.mem_insertionSort, AList.mem_keys]

theorem mem_sorted_entries {κ γ : Type} [LinearOrder κ] {t : Table κ β} {k : κ} {f : β → γ}
    {c : γ} :
    (k, c) ∈ (sortedKeys t).filterMap (fun a => (t.lookup a).map fun b => (a, f b)) ↔
      (t.lookup k).map f = some c := by
  simp only [List.mem_filterMap, Option.map_eq_some_iff, Prod.mk.injEq]
  constructor
  · rintro ⟨a, -, b, hb, rfl, rfl⟩
    exact ⟨b, hb, rfl⟩
  · rintro ⟨b, hb, rfl⟩
    exact ⟨k, mem_sortedKeys.mpr (AList.lookup_isSome.mp (by simp [hb])), b, hb, rfl, rfl⟩

theorem sortedKeys_eq [LinearOrder α] {l : List α} (hl : l.SortedLT) (h : ∀ k, k ∈ m ↔ k ∈ l) :
    sortedKeys m = l := by
  refine List.Perm.eq_of_sortedLE List.sortedLE_insertionSort hl.sortedLE
    ((List.perm_insertionSort _ _).trans ?_)
  refine (List.perm_ext_iff_of_nodup m.keys_nodup hl.nodup).mpr fun k => ?_
  exact AList.mem_keys.symm.trans (h k)

theorem head?_sortedKeys [LinearOrder α] (h : (sortedKeys m).head? = some k) :
    k ∈ m ∧ ∀ a ∈ m, k ≤ a := by
  refine ⟨mem_sortedKeys.mp (List.mem_of_head? h), fun a ha => ?_⟩
  have hs : (sortedKeys m).SortedLE := List.sortedLE_insertionSort
  have ha' := mem_sortedKeys.mpr ha
  cases hl : sortedKeys m with
  | nil =>
    rw [hl] at ha'
    cases ha'
  | cons b l =>
    rw [hl] at h ha' hs
    obtain rfl : b = k := Option.some.inj h
    rcases List.mem_cons.mp ha' with rfl | hmem
    · exact le_rfl
    · exact List.rel_of_pairwise_cons hs.pairwise hmem

theorem exists_head?_sortedKeys [LinearOrder α] (h : 0 < size m) :
    ∃ k, (sortedKeys m).head? = some k := by
  cases hl : sortedKeys m with
  | cons k l => exact ⟨k, rfl⟩
  | nil =>
    have hlen : (sortedKeys m).length = size m := List.length_insertionSort _ _
    rw [hl] at hlen
    exact absurd hlen (by simp; omega)

end

/-! ### Changing all entries -/

section FilterMap

variable {γ : Type} {f : α → β → Option γ}

/-- The entries that `f` keeps, under their keys. -/
def filterMapEntries (f : α → β → Option γ) (l : List (Sigma fun _ : α => β)) :
    List (Sigma fun _ : α => γ) :=
  l.filterMap fun e => (f e.1 e.2).map (Sigma.mk e.1)

omit [DecidableEq α] in
theorem keys_filterMapEntries_sublist (l : List (Sigma fun _ : α => β)) :
    (filterMapEntries f l).keys.Sublist l.keys := by
  induction l with
  | nil => exact .slnil
  | cons e l ih =>
    rw [filterMapEntries, List.filterMap_cons]
    cases f e.1 e.2 with
    | none => exact ih.cons _
    | some v => exact ih.cons_cons _

def filterMap (f : α → β → Option γ) (m : Table α β) : Table α γ :=
  ⟨filterMapEntries f m.entries,
    List.Nodup.sublist (keys_filterMapEntries_sublist m.entries) m.nodupKeys⟩

theorem lookup_filterMap (m : Table α β) (k : α) :
    (filterMap f m).lookup k = (m.lookup k).bind (f k) := by
  obtain ⟨l, hl⟩ := m
  change List.dlookup k (filterMapEntries f l) = (List.dlookup k l).bind (f k)
  induction l with
  | nil => rfl
  | cons e l ih =>
    obtain ⟨a, v⟩ := e
    obtain ⟨hnew, hl'⟩ := List.nodupKeys_cons.mp hl
    rw [filterMapEntries, List.filterMap_cons]
    by_cases hk : k = a
    · subst hk
      rw [List.dlookup_cons_eq, Option.bind_some]
      cases hf : f k v with
      | none =>
        have hnone : List.dlookup k l = none := List.dlookup_eq_none.mpr hnew
        simp only [Option.map_none]
        exact (ih hl').trans (by rw [hnone, Option.bind_none])
      | some w => exact List.dlookup_cons_eq _ _ _
    · rw [List.dlookup_cons_ne l ⟨a, v⟩ hk, ← ih hl']
      cases f a v with
      | none => rfl
      | some w => exact List.dlookup_cons_ne _ (⟨a, w⟩ : Sigma fun _ : α => γ) hk

def retain (P : α → Bool) (m : Table α β) : Table α β :=
  filterMap (fun k v => if P k then some v else none) m

theorem lookup_retain (P : α → Bool) (m : Table α β) (k : α) :
    (retain P m).lookup k = if P k then m.lookup k else none := by
  rw [retain, lookup_filterMap]
  cases m.lookup k <;> split <;> simp_all

theorem mem_of_mem_retain {P : α → Bool} {m : Table α β} {k : α} (h : k ∈ retain P m) : k ∈ m := by
  rw [← AList.lookup_isSome, lookup_retain] at h
  split at h
  · exact AList.lookup_isSome.mp h
  · cases h

theorem count_retain_add (Q : β → Bool) (m : Table α β) (p : α → Prop) [DecidablePred p] :
    count Q (retain (fun k => decide (¬p k)) m) + count Q (retain (fun k => decide (p k)) m) =
      count Q m := by
  have hkeys : ∀ q : α → Prop, [DecidablePred q] →
      keysWhere Q (retain (fun k => decide (q k)) m) = (keysWhere Q m).filter q := by
    intro q _
    ext k
    rw [Finset.mem_filter, mem_keysWhere, mem_keysWhere, lookup_retain]
    by_cases hq : q k <;> simp [hq]
  rw [count, count, hkeys, hkeys, Nat.add_comm, count]
  exact Finset.card_filter_add_card_filter_not p

end FilterMap

theorem forall_insert {t : Table α β} {P : α → β → Prop} {q : α} {v : β}
    (h : ∀ q v, t.lookup q = some v → P q v) (hv : P q v) :
    ∀ q' v', (t.insert q v).lookup q' = some v' → P q' v' := by
  intro q' v' hl
  by_cases hq : q' = q
  · subst hq
    rw [AList.lookup_insert] at hl
    cases hl
    exact hv
  · rw [AList.lookup_insert_ne hq] at hl
    exact h q' v' hl

theorem lookup_eraseAll {γ : α → Type} (ks : List α) (m : AList γ) (k : α) :
    (ks.foldl (fun m a => m.erase a) m).lookup k = if k ∈ ks then none else m.lookup k := by
  induction ks generalizing m with
  | nil => rfl
  | cons a ks ih =>
    rw [List.foldl_cons, ih]
    by_cases hk : k = a
    · subst hk
      rw [AList.lookup_erase, if_pos List.mem_cons_self]
      exact ite_self _
    · rw [AList.lookup_erase_ne hk]
      exact if_congr (by rw [List.mem_cons, or_iff_right hk]) rfl rfl

end Table

/-! ### Enumerations -/

/-- A list of the entries of a map, each of them once. -/
structure Enumerates {κ β : Type} (l : List (κ × β)) (f : κ → Option β) : Prop where
  nodup : (l.map Prod.fst).Nodup
  mem : ∀ k v, (k, v) ∈ l ↔ f k = some v

namespace Enumerates

variable {κ κ' β : Type} {l l' : List (κ × β)} {f f' : κ → Option β}

theorem nil : Enumerates ([] : List (κ × β)) fun _ => none := ⟨List.nodup_nil, by simp⟩

theorem congr (h : Enumerates l f) (hf : ∀ k, f k = f' k) : Enumerates l f' := by
  rwa [← funext hf]

theorem append (h : Enumerates l f) (h' : Enumerates l' f')
    (hd : ∀ k, f k = none ∨ f' k = none) :
    Enumerates (l ++ l') fun k => (f k).or (f' k) where
  nodup := by
    rw [List.map_append]
    refine List.nodup_append.mpr ⟨h.nodup, h'.nodup, ?_⟩
    rintro k hk _ hk' rfl
    obtain ⟨⟨_, v⟩, he, rfl⟩ := List.mem_map.mp hk
    obtain ⟨⟨_, v'⟩, he', heq⟩ := List.mem_map.mp hk'
    obtain rfl : _ = _ := heq
    have h₁ := (h.mem _ _).mp he
    have h₂ := (h'.mem _ _).mp he'
    rcases hd _ with hn | hn
    · rw [hn] at h₁; cases h₁
    · rw [hn] at h₂; cases h₂
  mem k v := by
    rw [List.mem_append, h.mem, h'.mem]
    rcases hd k with hn | hn <;> simp [hn]

theorem rename (h : Enumerates l f) {e : κ → κ'} {g : κ' → Option β} (he : Function.Injective e)
    (hg : ∀ k, g (e k) = f k) (hrange : ∀ k' v, g k' = some v → ∃ k, e k = k') :
    Enumerates (l.map fun x => (e x.1, x.2)) g where
  nodup := by
    have := h.nodup.map he
    rwa [List.map_map] at this ⊢
  mem k' v := by
    rw [List.mem_map]
    constructor
    · rintro ⟨⟨k, v⟩, hk, heq⟩
      cases heq
      rw [hg]
      exact (h.mem k v).mp hk
    · intro hv
      obtain ⟨k, rfl⟩ := hrange k' v hv
      rw [hg] at hv
      exact ⟨(k, v), (h.mem k v).mpr hv, rfl⟩

theorem pull (h : Enumerates l f) {e : κ' → κ} {g : κ → Option κ'}
    (hg : ∀ k k', g k = some k' ↔ e k' = k) :
    Enumerates (l.filterMap fun x => (g x.1).map fun k' => (k', x.2)) fun k' => f (e k') where
  nodup := by
    have hkeys : (l.filterMap fun x => (g x.1).map fun k' => (k', x.2)).map Prod.fst =
        (l.map Prod.fst).filterMap g := by
      rw [List.map_filterMap, List.filterMap_map]
      exact List.filterMap_congr fun x _ => by simp [Function.comp_def]
    rw [hkeys]
    refine h.nodup.filterMap fun a a' b ha ha' => ?_
    exact ((hg a b).mp ha).symm.trans ((hg a' b).mp ha')
  mem k' v := by
    rw [List.mem_filterMap, ← h.mem]
    constructor
    · rintro ⟨⟨k, v⟩, hk, heq⟩
      obtain ⟨k'', hk'', heq⟩ := Option.map_eq_some_iff.mp heq
      cases heq
      rwa [(hg _ _).mp hk'']
    · exact fun hk => ⟨_, hk, by rw [(hg _ _).mpr rfl]; rfl⟩

theorem flatMap {ι : Type} [DecidableEq ι] {is : List ι} (his : is.Nodup)
    {l : ι → List (κ × β)} {f : ι → κ → Option β} (h : ∀ i, Enumerates (l i) (f i)) :
    Enumerates (is.flatMap fun i => (l i).map fun x => ((i, x.1), x.2))
      fun k => if k.1 ∈ is then f k.1 k.2 else none := by
  induction is with
  | nil => exact nil.congr fun k => by simp
  | cons i is ih =>
    obtain ⟨hi, his⟩ := List.nodup_cons.mp his
    have hhead : Enumerates ((l i).map fun x => ((i, x.1), x.2))
        fun k => if k.1 = i then f k.1 k.2 else none := by
      refine (h i).rename (fun k k' hk => congrArg Prod.snd hk) (fun k => if_pos rfl) ?_
      rintro ⟨j, k⟩ v hv
      by_cases hj : j = i
      · exact ⟨k, by rw [hj]⟩
      · simp [hj] at hv
    refine (hhead.append (ih his) fun k => ?_).congr fun k => ?_
    · by_cases hk : k.1 = i
      · exact .inr (if_neg (hk ▸ hi))
      · exact .inl (if_neg hk)
    · by_cases hk : k.1 = i
      · simp [hk, hi]
      · simp [hk]

theorem positions {n : ℕ} (g : Fin n → Option β) :
    Enumerates ((List.finRange n).filterMap fun i => (g i).map fun v => (i, v)) g where
  nodup := by
    refine (List.nodup_finRange n).sublist ?_
    generalize List.finRange n = is
    induction is with
    | nil => exact List.Sublist.refl _
    | cons i is ih =>
      cases hg : g i with
      | none => simpa [hg] using ih.trans (List.sublist_cons_self i is)
      | some v => simpa [hg] using ih
  mem i v := by
    rw [List.mem_filterMap]
    constructor
    · rintro ⟨j, -, hj⟩
      obtain ⟨v', hv', heq⟩ := Option.map_eq_some_iff.mp hj
      cases heq
      exact hv'
    · exact fun hv => ⟨i, List.mem_finRange i, by rw [hv]; rfl⟩

end Enumerates

namespace Table

variable {α β : Type} [DecidableEq α]

def pairs (t : Table α β) : List (α × β) := t.entries.map fun e => (e.1, e.2)

theorem enumerates_pairs (t : Table α β) : Enumerates (pairs t) t.lookup where
  nodup := by
    rw [pairs, List.map_map]
    exact t.keys_nodup
  mem a b := by
    rw [← Option.mem_def, AList.mem_lookup_iff, pairs, List.mem_map]
    constructor
    · rintro ⟨e, he, heq⟩
      cases heq
      exact he
    · exact fun h => ⟨_, h, rfl⟩

end Table
