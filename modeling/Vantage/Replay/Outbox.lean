import Mathlib.Algebra.GroupWithZero.Nat
import Mathlib.Algebra.Order.BigOperators.Group.List
import Mathlib.Algebra.Order.Group.Nat
import Mathlib.Data.List.Basic
import Mathlib.Order.Nat
import Mathlib.Tactic.Common

/-!
# The outbox of recorded broadcasts

A node keeps its own broadcasts by view so that a peer that lost some of them can be served
again. The oldest views are evicted when the byte cap is passed, views below a floor are pruned,
and a serve takes whole views up to a byte budget.

* `Outbox.record`, `Outbox.pruneBelow`, `Outbox.takeBudgetedSlice`: the operations.

The messages are of any type with a length. Views and byte counts are natural numbers.
-/

namespace Vantage

/-- A view with the messages recorded for it. -/
abbrev ViewGroup (M : Type) : Type := ℕ × List M

section Groups

variable {M : Type} (len : M → ℕ)

def groupBytes (g : ViewGroup M) : ℕ := (g.2.map len).sum

def viewBytes (views : List (ViewGroup M)) : ℕ := (views.map (groupBytes len)).sum

variable {len}

/-- The messages of several views, each with its view. -/
def entries (views : List (ViewGroup M)) : List (ℕ × M) :=
  views.flatMap fun g => g.2.map fun m => (g.1, m)

/-- Add a message to its view, as `entry(key).or_default().push(..)` does. -/
def pushAt (key : ℕ) (m : M) : List (ViewGroup M) → List (ViewGroup M)
  | [] => [(key, [m])]
  | g :: views =>
    if key < g.1 then (key, [m]) :: g :: views
    else if key = g.1 then (g.1, g.2 ++ [m]) :: views
    else g :: pushAt key m views

def Increasing (views : List (ViewGroup M)) : Prop := views.Pairwise fun a b => a.1 < b.1

@[simp]
theorem viewBytes_nil : viewBytes len [] = 0 := rfl

@[simp]
theorem viewBytes_cons (g : ViewGroup M) (views : List (ViewGroup M)) :
    viewBytes len (g :: views) = groupBytes len g + viewBytes len views := by
  simp [viewBytes]

theorem entries_cons (g : ViewGroup M) (views : List (ViewGroup M)) :
    entries (g :: views) = (g.2.map fun m => (g.1, m)) ++ entries views := rfl

theorem mem_keys_pushAt {key : ℕ} {m : M} {views : List (ViewGroup M)} {g : ViewGroup M}
    (h : g ∈ pushAt key m views) : g.1 = key ∨ ∃ g' ∈ views, g'.1 = g.1 := by
  induction views with
  | nil => exact .inl (by rw [List.mem_singleton.mp h])
  | cons v views ih =>
    unfold pushAt at h
    split at h
    · rcases List.mem_cons.mp h with rfl | h
      · exact .inl rfl
      · exact .inr ⟨g, h, rfl⟩
    split at h
    · rcases List.mem_cons.mp h with rfl | h
      · exact .inr ⟨v, List.mem_cons_self, rfl⟩
      · exact .inr ⟨g, List.mem_cons_of_mem _ h, rfl⟩
    · rcases List.mem_cons.mp h with rfl | h
      · exact .inr ⟨g, List.mem_cons_self, rfl⟩
      · obtain he | ⟨g', hg', he⟩ := ih h
        · exact .inl he
        · exact .inr ⟨g', List.mem_cons_of_mem _ hg', he⟩

theorem Increasing.pushAt {key : ℕ} {m : M} {views : List (ViewGroup M)} (h : Increasing views) :
    Increasing (pushAt key m views) := by
  induction views with
  | nil => exact List.pairwise_singleton _ _
  | cons v views ih =>
    obtain ⟨hv, hviews⟩ := List.pairwise_cons.mp h
    unfold Vantage.pushAt
    split
    · next hlt =>
      refine List.pairwise_cons.mpr ⟨fun g hg => ?_, h⟩
      rcases List.mem_cons.mp hg with rfl | hg
      · exact hlt
      · exact hlt.trans (hv g hg)
    split
    · exact List.pairwise_cons.mpr ⟨hv, hviews⟩
    · refine List.pairwise_cons.mpr ⟨fun g hg => ?_, ih hviews⟩
      obtain he | ⟨g', hg', he⟩ := mem_keys_pushAt hg
      · omega
      · exact he ▸ hv g' hg'

theorem viewBytes_pushAt (key : ℕ) (m : M) (views : List (ViewGroup M)) :
    viewBytes len (pushAt key m views) = viewBytes len views + len m := by
  induction views with
  | nil => simp [pushAt, groupBytes]
  | cons v views ih =>
    unfold pushAt
    split
    · simp only [viewBytes_cons, groupBytes, List.map_cons, List.map_nil, List.sum_singleton]
      omega
    split
    · simp only [viewBytes_cons, groupBytes, List.map_append, List.sum_append, List.map_cons,
        List.map_nil, List.sum_singleton]
      omega
    · simp only [viewBytes_cons, ih]
      omega

theorem pushAt_groups_ne_nil {key : ℕ} {m : M} {views : List (ViewGroup M)}
    (h : ∀ g ∈ views, g.2 ≠ []) : ∀ g ∈ pushAt key m views, g.2 ≠ [] := by
  induction views with
  | nil => simp [pushAt]
  | cons v views ih =>
    have hv := h v List.mem_cons_self
    have hviews := ih fun g hg => h g (List.mem_cons_of_mem _ hg)
    unfold pushAt
    split
    · simpa using h
    split
    · simpa using fun g hg => h g (List.mem_cons_of_mem _ hg)
    · simpa [hv] using hviews

theorem entries_pushAt {key : ℕ} {m : M} {views : List (ViewGroup M)} (hs : Increasing views)
    (h : ∀ g ∈ views, g.1 ≤ key) : entries (pushAt key m views) = entries views ++ [(key, m)] := by
  induction views with
  | nil => rfl
  | cons v views ih =>
    have hv := h v List.mem_cons_self
    obtain ⟨hlt, hviews⟩ := List.pairwise_cons.mp hs
    unfold pushAt
    rw [if_neg (by omega)]
    split
    · next he =>
      -- a view after the last one would have a larger key
      have hnil : views = [] := by
        refine List.eq_nil_iff_forall_not_mem.mpr fun g hg => ?_
        have := hlt g hg
        have := h g (List.mem_cons_of_mem _ hg)
        omega
      subst hnil he
      simp [entries]
    · rw [entries_cons, entries_cons, ih hviews fun g hg => h g (List.mem_cons_of_mem _ hg),
        List.append_assoc]

theorem entries_filter (p : ℕ → Bool) (views : List (ViewGroup M)) :
    entries (views.filter fun g => p g.1) = (entries views).filter fun e => p e.1 := by
  induction views with
  | nil => rfl
  | cons v views ih =>
    rw [entries_cons, List.filter_append, ← ih, List.filter_cons]
    by_cases hp : p v.1 <;> simp [hp, entries_cons, List.filter_map, Function.comp_def]

variable (len) in
theorem viewBytes_filter_add (p : ViewGroup M → Bool) (views : List (ViewGroup M)) :
    viewBytes len (views.filter p) + viewBytes len (views.filter fun g => !p g) =
      viewBytes len views := by
  induction views with
  | nil => rfl
  | cons v views ih =>
    by_cases hp : p v <;> simp only [List.filter_cons, hp, Bool.not_true, Bool.not_false,
      Bool.false_eq_true, if_true, if_false, viewBytes_cons] <;> omega

theorem viewBytes_eq_sum_entries (views : List (ViewGroup M)) :
    viewBytes len views = ((entries views).map fun e => len e.2).sum := by
  induction views with
  | nil => rfl
  | cons v views ih =>
    rw [viewBytes_cons, ih, entries_cons, List.map_append, List.sum_append, List.map_map]
    rfl

end Groups

/-! ### The outbox -/

/-- The recorded messages by view, and their bytes. -/
structure Outbox {M : Type} (len : M → ℕ) where
  views : List (ViewGroup M)
  totalBytes : ℕ
  maxBytes : ℕ
  floor : ℕ
  increasing : Increasing views

namespace Outbox

variable {M : Type} {len : M → ℕ}

def new (maxBytes : ℕ) : Outbox len := ⟨[], 0, maxBytes, 0, List.Pairwise.nil⟩

variable (len) in
/-- Drop whole views from the oldest on while the cap is passed, but never the newest. -/
def evict (maxBytes : ℕ) :
    List (ViewGroup M) → ℕ → ℕ → List (ViewGroup M) × ℕ × ℕ
  | oldest :: next :: views, totalBytes, floor =>
    if maxBytes < totalBytes then
      evict maxBytes (next :: views) (totalBytes - groupBytes len oldest) (max floor (oldest.1 + 1))
    else (oldest :: next :: views, totalBytes, floor)
  | views, totalBytes, floor => (views, totalBytes, floor)

/-- What `evict` leaves: exactly the views from the new floor on. -/
structure Evicted (len : M → ℕ) (maxBytes : ℕ) (views : List (ViewGroup M)) (floor : ℕ)
    (r : List (ViewGroup M) × ℕ × ℕ) : Prop where
  kept : r.1 = views.filter fun g => decide (r.2.2 ≤ g.1)
  total : r.2.1 = viewBytes len r.1
  floor_le : floor ≤ r.2.2
  cap : maxBytes < r.2.1 → r.1.length ≤ 1

theorem filter_floor_eq_self {views : List (ViewGroup M)} {floor : ℕ}
    (h : ∀ g ∈ views, floor ≤ g.1) : views.filter (fun g => decide (floor ≤ g.1)) = views :=
  List.filter_eq_self.mpr fun g hg => decide_eq_true (h g hg)

theorem evicted {maxBytes : ℕ} {views : List (ViewGroup M)} {totalBytes floor : ℕ}
    (hs : Increasing views) (ht : totalBytes = viewBytes len views)
    (hf : ∀ g ∈ views, floor ≤ g.1) :
    Evicted len maxBytes views floor (evict len maxBytes views totalBytes floor) := by
  -- by recursion on the views: each round removes the head and continues from its successor
  induction views generalizing totalBytes floor with
  | nil => exact ⟨rfl, ht, le_rfl, fun _ => Nat.zero_le _⟩
  | cons oldest views ih =>
    cases views with
    | nil => exact ⟨(filter_floor_eq_self hf).symm, ht, le_rfl, fun _ => le_rfl⟩
    | cons next views =>
      obtain ⟨hlt, hrest⟩ := List.pairwise_cons.mp hs
      unfold evict
      split
      · have hfloor : ∀ g ∈ next :: views, max floor (oldest.1 + 1) ≤ g.1 := fun g hg =>
          max_le (hf g (List.mem_cons_of_mem _ hg)) (hlt g hg)
        have h : Evicted len maxBytes (next :: views) (max floor (oldest.1 + 1))
            (evict len maxBytes (next :: views) (totalBytes - groupBytes len oldest)
              (max floor (oldest.1 + 1))) := by
          refine ih hrest ?_ hfloor
          rw [ht, viewBytes_cons, Nat.add_sub_cancel_left]
        refine ⟨?_, h.total, (le_max_left _ _).trans h.floor_le, h.cap⟩
        rw [List.filter_cons, if_neg]
        · exact h.kept
        · have := h.floor_le
          simp only [decide_eq_true_eq]
          omega
      · next hcap => exact ⟨(filter_floor_eq_self hf).symm, ht, le_rfl, fun h => absurd h hcap⟩

theorem evict_sublist (maxBytes : ℕ) (views : List (ViewGroup M)) (totalBytes floor : ℕ) :
    (evict len maxBytes views totalBytes floor).1.Sublist views := by
  induction views generalizing totalBytes floor with
  | nil => exact List.Sublist.refl _
  | cons oldest views ih =>
    cases views with
    | nil => exact List.Sublist.refl _
    | cons next views =>
      unfold evict
      split
      · exact (ih _ _).trans (List.sublist_cons_self _ _)
      · exact List.Sublist.refl _

/-- Evict complete oldest views and always retain the newest view. -/
def evictOverCap (o : Outbox len) : Outbox len where
  views := (evict len o.maxBytes o.views o.totalBytes o.floor).1
  totalBytes := (evict len o.maxBytes o.views o.totalBytes o.floor).2.1
  maxBytes := o.maxBytes
  floor := (evict len o.maxBytes o.views o.totalBytes o.floor).2.2
  increasing := o.increasing.sublist (evict_sublist _ _ _ _)

def record (o : Outbox len) (key : ℕ) (m : M) : Outbox len :=
  evictOverCap
    { o with
      totalBytes := o.totalBytes + len m
      views := pushAt key m o.views
      increasing := o.increasing.pushAt }

def sliceFrom (o : Outbox len) (start : ℕ) : List (ViewGroup M) :=
  o.views.filter fun g => decide (start ≤ g.1)

/-- Discard the views below a floor; the floor never goes back. -/
def pruneBelow (o : Outbox len) (floor : ℕ) : Outbox len :=
  if floor ≤ o.floor then o
  else
    { o with
      views := o.sliceFrom floor
      totalBytes := (o.views.filter fun g => !decide (floor ≤ g.1)).foldl
        (fun total g => total - groupBytes len g) o.totalBytes
      floor := floor
      increasing := o.increasing.sublist List.filter_sublist }

variable (len) in
def takeGroups : List (ViewGroup M) → List M → ℕ → ℕ → List M × ℕ × Bool
  | [], msgs, endKey, _ => (msgs, endKey, true)
  | g :: groups, msgs, endKey, remaining =>
    if msgs ≠ [] ∧ remaining < groupBytes len g then (msgs, endKey, false)
    else takeGroups groups (msgs ++ g.2) (g.1 + 1) (remaining - groupBytes len g)

/-- Complete views within a budget, the view after the last of them, and whether all views were
taken. The first view is taken whole even when it exceeds the budget. -/
def takeBudgetedSlice (o : Outbox len) (start budget : ℕ) : List M × ℕ × Bool :=
  takeGroups len (o.sliceFrom start) [] start budget

/-! ### The invariant -/

/-- The outbox against the history of all recorded messages: what is retained is the part of the
history from the floor on. -/
structure Sound (o : Outbox len) (history : List (ℕ × M)) : Prop where
  total : o.totalBytes = viewBytes len o.views
  cap : o.maxBytes < o.totalBytes → o.views.length ≤ 1
  floor : ∀ g ∈ o.views, o.floor ≤ g.1
  kept : entries o.views = history.filter fun e => decide (o.floor ≤ e.1)
  groups : ∀ g ∈ o.views, g.2 ≠ []

variable {o : Outbox len} {history : List (ℕ × M)}

theorem sound_new (maxBytes : ℕ) : (new maxBytes : Outbox len).Sound [] where
  total := rfl
  cap h := absurd h (Nat.not_lt_zero _)
  floor g hg := by cases hg
  kept := rfl
  groups g hg := by cases hg

theorem entries_filter_filter {views : List (ViewGroup M)} {floor floor' : ℕ} (h : floor ≤ floor')
    (hk : entries views = history.filter fun e => decide (floor ≤ e.1)) :
    entries (views.filter fun g => decide (floor' ≤ g.1)) =
      history.filter fun e => decide (floor' ≤ e.1) := by
  rw [entries_filter (fun k => decide (floor' ≤ k)), hk, List.filter_filter]
  refine List.filter_congr fun e _ => ?_
  by_cases he : floor' ≤ e.1
  · simp [he, h.trans he]
  · simp [he]

theorem Sound.record (h : o.Sound history) {key : ℕ} {m : M} (hlast : ∀ g ∈ o.views, g.1 ≤ key)
    (hfloor : o.floor ≤ key) : (o.record key m).Sound (history ++ [(key, m)]) := by
  have hev : Evicted len o.maxBytes (pushAt key m o.views) o.floor
      (evict len o.maxBytes (pushAt key m o.views) (o.totalBytes + len m) o.floor) := by
    refine evicted o.increasing.pushAt (by rw [viewBytes_pushAt, h.total]) fun g hg => ?_
    obtain he | ⟨g', hg', he⟩ := mem_keys_pushAt hg
    · exact he ▸ hfloor
    · exact he ▸ h.floor g' hg'
  have hkept : entries (pushAt key m o.views) =
      (history ++ [(key, m)]).filter fun e => decide (o.floor ≤ e.1) := by
    rw [entries_pushAt o.increasing hlast, h.kept, List.filter_append]
    simp [hfloor]
  refine ⟨hev.total, hev.cap, fun g hg => ?_, ?_, fun g hg => ?_⟩
  · have hin : g ∈ (evict len o.maxBytes (pushAt key m o.views) (o.totalBytes + len m) o.floor).1 :=
      hg
    rw [hev.kept] at hin
    exact of_decide_eq_true (List.mem_filter.mp hin).2
  · exact (congrArg entries hev.kept).trans (entries_filter_filter hev.floor_le hkept)
  · exact pushAt_groups_ne_nil h.groups g ((evict_sublist _ _ _ _).subset hg)

theorem foldl_sub_groupBytes (views : List (ViewGroup M)) (total : ℕ) :
    views.foldl (fun total g => total - groupBytes len g) total = total - viewBytes len views := by
  induction views generalizing total with
  | nil => rfl
  | cons v views ih => rw [List.foldl_cons, ih, viewBytes_cons, Nat.sub_sub]

theorem Sound.pruneBelow (h : o.Sound history) (floor : ℕ) :
    (o.pruneBelow floor).Sound history := by
  unfold Outbox.pruneBelow
  split
  · exact h
  · next hlt =>
    have hsum := viewBytes_filter_add len (fun g => decide (floor ≤ g.1)) o.views
    have hle : o.totalBytes - viewBytes len (o.views.filter fun g => !decide (floor ≤ g.1)) =
        viewBytes len (o.sliceFrom floor) := by
      rw [h.total, sliceFrom]
      omega
    refine ⟨(foldl_sub_groupBytes _ _).trans hle, fun hc => ?_, fun g hg => ?_, ?_, fun g hg => ?_⟩
    · refine (List.length_filter_le _ _).trans (h.cap ?_)
      simp only [foldl_sub_groupBytes] at hc
      omega
    · exact of_decide_eq_true (List.mem_filter.mp hg).2
    · exact entries_filter_filter (by omega) h.kept
    · exact h.groups g (List.mem_filter.mp hg).1

/-- The outboxes that calls of `record` with keys that are not below the last one or the floor,
and calls of `pruneBelow`, lead to; with the history of the records. -/
inductive Reachable (maxBytes : ℕ) : Outbox len → List (ℕ × M) → Prop
  | new : Reachable maxBytes (new maxBytes) []
  | record {o : Outbox len} {history : List (ℕ × M)} {key : ℕ} {m : M} :
      Reachable maxBytes o history →
      (∀ e ∈ history, e.1 ≤ key) → o.floor ≤ key →
      Reachable maxBytes (o.record key m) (history ++ [(key, m)])
  | pruneBelow {o : Outbox len} {history : List (ℕ × M)} (floor : ℕ) :
      Reachable maxBytes o history →
      Reachable maxBytes (o.pruneBelow floor) history

theorem Sound.exists_recorded (h : o.Sound history) {g : ViewGroup M} (hg : g ∈ o.views) :
    ∃ m ∈ g.2, (g.1, m) ∈ history := by
  obtain ⟨m, hm⟩ := List.exists_mem_of_ne_nil _ (h.groups g hg)
  have hmem : (g.1, m) ∈ entries o.views :=
    List.mem_flatMap.mpr ⟨g, hg, List.mem_map_of_mem hm⟩
  rw [h.kept] at hmem
  exact ⟨m, hm, (List.mem_filter.mp hmem).1⟩

theorem Sound.key_le (h : o.Sound history) {key : ℕ} (hlast : ∀ e ∈ history, e.1 ≤ key) :
    ∀ g ∈ o.views, g.1 ≤ key := fun _ hg =>
  let ⟨_, _, hm⟩ := h.exists_recorded hg
  hlast _ hm

theorem Reachable.sound {maxBytes : ℕ} (h : Reachable maxBytes o history) : o.Sound history := by
  induction h with
  | new => exact sound_new maxBytes
  | record _ hlast hfloor ih => exact ih.record (ih.key_le hlast) hfloor
  | pruneBelow floor _ ih => exact ih.pruneBelow floor

theorem Reachable.maxBytes_eq {maxBytes : ℕ} (h : Reachable maxBytes o history) :
    o.maxBytes = maxBytes := by
  induction h with
  | new => rfl
  | record _ _ _ ih => exact ih
  | @pruneBelow o _ floor _ ih =>
    unfold Outbox.pruneBelow
    split <;> exact ih

/-! ### One page -/

def messages (views : List (ViewGroup M)) : List M := views.flatMap Prod.snd

theorem messages_eq_map_entries (views : List (ViewGroup M)) :
    messages views = (entries views).map Prod.snd := by
  rw [entries, List.map_flatMap]
  refine congrArg List.flatten (List.map_congr_left fun g _ => ?_)
  simp [Function.comp_def]

theorem flatten_map_messages (blocks : List (List (ViewGroup M))) :
    (blocks.map messages).flatten = messages blocks.flatten := by
  induction blocks with
  | nil => rfl
  | cons block blocks ih =>
    rw [List.map_cons, List.flatten_cons, ih, List.flatten_cons, messages, messages, messages,
      List.flatMap_append]

def endOf (start : ℕ) (views : List (ViewGroup M)) : ℕ :=
  views.getLast?.elim start fun g => g.1 + 1

theorem endOf_cons (start : ℕ) (g : ViewGroup M) (views : List (ViewGroup M)) :
    endOf start (g :: views) = endOf (g.1 + 1) views := by
  cases views with
  | nil => rfl
  | cons g' views => rw [endOf, endOf, List.getLast?_cons_cons, List.getLast?_cons]; rfl

/-- A run of the loop takes a block of consecutive views; once it holds a message it stays
within what remains of the budget. -/
theorem takeGroups_spec (len : M → ℕ) (groups : List (ViewGroup M)) (msgs : List M)
    (endKey remaining : ℕ) :
    ∃ taken rest, groups = taken ++ rest ∧
      takeGroups len groups msgs endKey remaining =
        (msgs ++ messages taken, endOf endKey taken, rest.isEmpty) ∧
      (msgs ≠ [] → viewBytes len taken ≤ remaining) := by
  induction groups generalizing msgs endKey remaining with
  | nil =>
    refine ⟨[], [], rfl, ?_, fun _ => Nat.zero_le _⟩
    simp [takeGroups, messages, endOf]
  | cons g groups ih =>
    unfold takeGroups
    split
    · exact ⟨[], g :: groups, rfl, by simp [messages, endOf], fun _ => Nat.zero_le _⟩
    · next hgo =>
      obtain ⟨taken, rest, hsplit, heq, hbytes⟩ :=
        ih (msgs ++ g.2) (g.1 + 1) (remaining - groupBytes len g)
      refine ⟨g :: taken, rest, by rw [hsplit, List.cons_append], ?_, fun hm => ?_⟩
      · rw [heq, endOf_cons, List.append_assoc]
        rfl
      · have hle : groupBytes len g ≤ remaining := by
          by_contra hlt
          exact hgo ⟨hm, by omega⟩
        have := hbytes (by simp [hm])
        rw [viewBytes_cons]
        omega

/-- A page stays within its budget, or its first view alone exceeds it and the others are
empty. -/
def WithinBudget (len : M → ℕ) (budget : ℕ) (page : List (ViewGroup M)) : Prop :=
  viewBytes len page ≤ budget ∨ ∃ first rest, page = first :: rest ∧ viewBytes len rest = 0

theorem takeBudgetedSlice_spec (hg : ∀ g ∈ o.views, g.2 ≠ []) (start budget : ℕ) :
    ∃ taken rest, o.sliceFrom start = taken ++ rest ∧
      o.takeBudgetedSlice start budget = (messages taken, endOf start taken, rest.isEmpty) ∧
      (rest ≠ [] → taken ≠ []) ∧ WithinBudget len budget taken := by
  unfold takeBudgetedSlice
  cases hslice : o.sliceFrom start with
  | nil => exact ⟨[], [], rfl, rfl, fun h => absurd rfl h, .inl (Nat.zero_le _)⟩
  | cons g groups =>
    have hne : g.2 ≠ [] := by
      refine hg g (List.mem_filter.mp (?_ : g ∈ o.sliceFrom start)).1
      rw [hslice]
      exact List.mem_cons_self
    obtain ⟨taken, rest, hsplit, heq, hbytes⟩ :=
      takeGroups_spec len groups g.2 (g.1 + 1) (budget - groupBytes len g)
    refine ⟨g :: taken, rest, by rw [hsplit, List.cons_append], ?_,
      fun _ => List.cons_ne_nil _ _, ?_⟩
    · rw [takeGroups, if_neg (fun h => h.1 rfl), List.nil_append, heq, endOf_cons]
      rfl
    · have := hbytes hne
      by_cases hle : groupBytes len g ≤ budget
      · refine .inl ?_
        rw [viewBytes_cons]
        omega
      · exact .inr ⟨g, taken, rfl, by omega⟩

theorem sliceFrom_endOf {start : ℕ} {taken rest : List (ViewGroup M)}
    (h : o.sliceFrom start = taken ++ rest) (hne : taken ≠ []) :
    o.sliceFrom (endOf start taken) = rest := by
  obtain ⟨init, last, rfl⟩ : ∃ init last, taken = init ++ [last] :=
    ⟨_, _, (List.dropLast_append_getLast hne).symm⟩
  have hend : endOf start (init ++ [last]) = last.1 + 1 := by simp [endOf]
  have hinc : Increasing (init ++ [last] ++ rest) :=
    h ▸ o.increasing.sublist List.filter_sublist
  have hstart : start ≤ last.1 := by
    have : last ∈ o.sliceFrom start := by simp [h]
    exact of_decide_eq_true (List.mem_filter.mp this).2
  have hfilter : o.sliceFrom (last.1 + 1) =
      (o.sliceFrom start).filter fun g => decide (last.1 + 1 ≤ g.1) := by
    rw [sliceFrom, sliceFrom, List.filter_filter]
    refine List.filter_congr fun g _ => ?_
    by_cases hg : last.1 + 1 ≤ g.1
    · simp [hg, show start ≤ g.1 by omega]
    · simp [hg]
  obtain ⟨hinit, -, hrest⟩ := List.pairwise_append.mp hinc
  rw [hend, hfilter, h, List.filter_append]
  have hlow : (init ++ [last]).filter (fun g => decide (last.1 + 1 ≤ g.1)) = [] := by
    refine List.filter_eq_nil_iff.mpr fun g hg => ?_
    rcases List.mem_append.mp hg with hg | hg
    · have := (List.pairwise_append.mp hinit).2.2 g hg last (by simp)
      simp
      omega
    · rw [List.mem_singleton.mp hg]
      simp
  have hhigh : rest.filter (fun g => decide (last.1 + 1 ≤ g.1)) = rest :=
    filter_floor_eq_self fun g hg => hrest last (by simp) g hg
  rw [hlow, hhigh, List.nil_append]

/-! ### Paging -/

/-- Ask again from the returned view until the slice is complete; `budget i` is the budget of
page `i`. -/
def pages (o : Outbox len) : ℕ → (ℕ → ℕ) → ℕ → Option (List (List M))
  | 0, _, _ => none
  | fuel + 1, budget, start =>
    let (msgs, endKey, complete) := o.takeBudgetedSlice start (budget 0)
    if complete then some [msgs]
    else (pages o fuel (fun i => budget (i + 1)) endKey).map (msgs :: ·)

/-- As many pages as there are views left are enough; each page is a block of views within its
own budget. -/
theorem pages_spec (hg : ∀ g ∈ o.views, g.2 ≠ []) (fuel : ℕ) (budget : ℕ → ℕ) (start : ℕ)
    (hfuel : (o.sliceFrom start).length < fuel) :
    ∃ blocks : List (List (ViewGroup M)),
      o.pages fuel budget start = some (blocks.map messages) ∧
      blocks.flatten = o.sliceFrom start ∧
      ∀ i block, blocks[i]? = some block → WithinBudget len (budget i) block := by
  induction fuel generalizing budget start with
  | zero => omega
  | succ fuel ih =>
    obtain ⟨taken, rest, hsplit, heq, hne, hbudget⟩ := takeBudgetedSlice_spec hg start (budget 0)
    unfold pages
    rw [heq]
    cases rest with
    | nil =>
      refine ⟨[taken], by simp, by simp [hsplit], fun i block hi => ?_⟩
      obtain rfl : i = 0 := by
        have := (List.getElem?_eq_some_iff.mp hi).1
        simpa using this
      rw [List.getElem?_cons_zero, Option.some.injEq] at hi
      exact hi ▸ hbudget
    | cons g rest =>
      have htaken := hne (List.cons_ne_nil _ _)
      have hnext := sliceFrom_endOf hsplit htaken
      have hlen : (o.sliceFrom (endOf start taken)).length < fuel := by
        have := List.length_pos_of_ne_nil htaken
        rw [hsplit, List.length_append] at hfuel
        rw [hnext]
        omega
      obtain ⟨blocks, hpages, hflat, hblocks⟩ := ih (fun i => budget (i + 1)) _ hlen
      refine ⟨taken :: blocks, ?_, ?_, fun i block hi => ?_⟩
      · simp [hpages]
      · rw [List.flatten_cons, hflat, hnext, hsplit]
      · cases i with
        | zero =>
          rw [List.getElem?_cons_zero, Option.some.injEq] at hi
          exact hi ▸ hbudget
        | succ i => exact hblocks i block (by rwa [List.getElem?_cons_succ] at hi)

theorem WithinBudget.length_eq_one {budget : ℕ} {page : List (ViewGroup M)}
    (h : WithinBudget len budget page) (hpos : ∀ g ∈ page, 0 < groupBytes len g) :
    viewBytes len page ≤ budget ∨ page.length = 1 := by
  refine h.imp_right ?_
  rintro ⟨first, rest, rfl, hzero⟩
  cases rest with
  | nil => rfl
  | cons g rest =>
    have := hpos g (by simp)
    rw [viewBytes_cons] at hzero
    omega

theorem Sound.groupBytes_pos (h : o.Sound history) (hpos : ∀ e ∈ history, 0 < len e.2) :
    ∀ g ∈ o.views, 0 < groupBytes len g := by
  intro g hg
  obtain ⟨m, hm, hrec⟩ := h.exists_recorded hg
  exact (hpos _ hrec).trans_le (List.single_le_sum (by simp) _ (List.mem_map_of_mem hm))

/-- A run of the outbox keeps its byte counter exact, passes its cap with one view only and
retains nothing below its floor. Paging from any view on returns every retained message from
there on once, in the order of the records and in whole views; a page that exceeds its budget
has all its bytes in its first view, and is that view when no message is empty. -/
theorem outbox_paging_lossless {maxBytes : ℕ} (h : Reachable maxBytes o history) :
    o.totalBytes = ((entries o.views).map fun e => len e.2).sum ∧
      (maxBytes < o.totalBytes → o.views.length = 1) ∧
      (∀ g ∈ o.views, o.floor ≤ g.1) ∧
      ∀ start budget, ∃ blocks : List (List (ViewGroup M)),
        o.pages (o.views.length + 1) budget start = some (blocks.map messages) ∧
        blocks.flatten = o.sliceFrom start ∧
        (blocks.map messages).flatten =
          (history.filter fun e => decide (o.floor ≤ e.1 ∧ start ≤ e.1)).map Prod.snd ∧
        ∀ i block, blocks[i]? = some block → WithinBudget len (budget i) block ∧
          ((∀ e ∈ history, 0 < len e.2) →
            viewBytes len block ≤ budget i ∨ block.length = 1) := by
  have hs := h.sound
  refine ⟨hs.total.trans (viewBytes_eq_sum_entries _), fun hc => ?_, hs.floor,
    fun start budget => ?_⟩
  · have hle := hs.cap (h.maxBytes_eq ▸ hc)
    have hne : o.views.length ≠ 0 := by
      intro hnil
      rw [hs.total, List.length_eq_zero_iff.mp hnil, viewBytes_nil] at hc
      omega
    omega
  · have hfuel : (o.sliceFrom start).length < o.views.length + 1 :=
      Nat.lt_succ_of_le (List.length_filter_le _ _)
    obtain ⟨blocks, hpages, hflat, hblocks⟩ := pages_spec hs.groups _ budget start hfuel
    refine ⟨blocks, hpages, hflat, ?_, fun i block hi => ⟨hblocks i block hi, fun hpos => ?_⟩⟩
    · rw [flatten_map_messages, hflat, messages_eq_map_entries, sliceFrom,
        entries_filter (fun k => decide (start ≤ k)), hs.kept, List.filter_filter]
      refine congrArg _ (List.filter_congr fun e _ => ?_)
      rw [Bool.decide_and, Bool.and_comm]
    · refine (hblocks i block hi).length_eq_one fun g hg => hs.groupBytes_pos hpos g ?_
      have hmem : g ∈ blocks.flatten :=
        List.mem_flatten.mpr ⟨block, List.mem_of_getElem? hi, hg⟩
      rw [hflat] at hmem
      exact (List.mem_filter.mp hmem).1

def withEmptyMessage : Outbox (List.length : List UInt8 → ℕ) :=
  ((new 100).record 1 [7, 7, 7]).record 2 []

theorem withEmptyMessage_reachable :
    Reachable 100 withEmptyMessage [(1, [7, 7, 7]), (2, [])] := by
  have h₁ : Reachable 100 ((new 100 : Outbox (List.length : List UInt8 → ℕ)).record 1 [7, 7, 7])
      [(1, [7, 7, 7])] := Reachable.record .new (by decide) (by decide)
  exact Reachable.record h₁ (by decide) (by decide)

theorem outbox_paging_lossless_withEmptyMessage :
    ∃ blocks : List (List (ViewGroup (List UInt8))),
      withEmptyMessage.pages 3 (fun _ => 2) 0 = some (blocks.map messages) ∧
      blocks.flatten = withEmptyMessage.sliceFrom 0 :=
  let ⟨blocks, hpages, hflat, _⟩ :=
    (outbox_paging_lossless withEmptyMessage_reachable).2.2.2 0 fun _ => 2
  ⟨blocks, hpages, hflat⟩

/-- One page of two views and three bytes, for a budget of two bytes: the view that follows the
oversized one has no bytes, so the budget does not stop it. -/
theorem oversized_page_of_two_views :
    Reachable 100 withEmptyMessage [(1, [7, 7, 7]), (2, [])] ∧
      withEmptyMessage.views.length = 2 ∧
      withEmptyMessage.takeBudgetedSlice 0 2 = ([[7, 7, 7], []], 3, true) ∧
      2 < viewBytes List.length withEmptyMessage.views :=
  ⟨withEmptyMessage_reachable, rfl, rfl, by decide⟩

end Outbox

end Vantage
