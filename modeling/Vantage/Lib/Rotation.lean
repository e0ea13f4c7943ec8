import Mathlib.Data.List.Chain
import Mathlib.Data.List.NodupEquivFin
import Mathlib.Data.List.Rotate

/-!
# Rotation through a growing pool

Elements are picked one after another from a pool without repetitions, each pick being the cyclic
successor of the one before it. Between two picks the pool may grow, in any position, as long as
the old elements keep their order.
-/

/-- A pool and the element picked from it. -/
structure Pick (α : Type) where
  pool : List α
  chosen : α

namespace Pick

variable {α : Type}

/-- The pool has only grown, and `b` is picked where the old pool continues after `a`. -/
def Next (a b : Pick α) : Prop :=
  a.pool.Sublist b.pool ∧
    ∃ p, a.pool[p]? = some a.chosen ∧ a.pool[(p + 1) % a.pool.length]? = some b.chosen

end Pick

namespace Rotation

variable {α : Type} [DecidableEq α]

/-- The steps from position `a` up to position `b` on a circle of `n` positions. -/
def ahead (n a b : ℕ) : ℕ := if a ≤ b then b - a else n + b - a

theorem idxOf_eq_of_getElem? {l : List α} (hl : l.Nodup) {p : ℕ} {x : α} (h : l[p]? = some x) :
    l.idxOf x = p := by
  obtain ⟨hp, rfl⟩ := List.getElem?_eq_some_iff.mp h
  exact hl.idxOf_getElem p hp

/-- The successor of `x` in a part of the circle that contains `c` does not pass `c`. -/
theorem ahead_lt {circle pool : List α} (hn : circle.Nodup) (hsub : pool.Sublist circle)
    {p : ℕ} {x y c : α} (hx : pool[p]? = some x)
    (hy : pool[(p + 1) % pool.length]? = some y) (hc : c ∈ pool) (hxc : x ≠ c) :
    ahead circle.length (circle.idxOf y) (circle.idxOf c) <
      ahead circle.length (circle.idxOf x) (circle.idxOf c) := by
  obtain ⟨f, hf⟩ := List.sublist_iff_exists_orderEmbedding_getElem?_eq.mp hsub
  obtain ⟨q, hq, hqc⟩ := List.getElem_of_mem hc
  have hc' : pool[q]? = some c := by rw [List.getElem?_eq_getElem hq, hqc]
  have hp : p < pool.length := (List.getElem?_eq_some_iff.mp hx).1
  have hpq : p ≠ q := by
    rintro rfl
    exact hxc (Option.some.inj (hx.symm.trans hc'))
  -- positions in the pool, read on the circle
  rw [idxOf_eq_of_getElem? hn ((hf p).symm.trans hx),
    idxOf_eq_of_getElem? hn ((hf q).symm.trans hc'),
    idxOf_eq_of_getElem? hn ((hf _).symm.trans hy)]
  have hlt : ∀ i, i < pool.length → f i < circle.length := by
    intro i hi
    have := hf i
    rw [List.getElem?_eq_getElem hi] at this
    exact (List.getElem?_eq_some_iff.mp this.symm).1
  have hmono : ∀ i j, i < j → f i < f j := fun i j hij => f.strictMono hij
  have hfp := hlt p hp
  have hle : ∀ i j, i ≤ j → f i ≤ f j := fun i j hij => f.monotone hij
  by_cases hlast : p + 1 < pool.length
  · rw [Nat.mod_eq_of_lt hlast]
    have h1 := hmono p (p + 1) (Nat.lt_succ_self p)
    have h2 := hlt _ hlast
    unfold ahead
    by_cases hqp : q < p
    · have := hmono q p hqp
      split_ifs <;> omega
    · have := hle (p + 1) q (by omega)
      split_ifs <;> omega
  · have hwrap : (p + 1) % pool.length = 0 := by
      rw [show p + 1 = pool.length by omega, Nat.mod_self]
    rw [hwrap]
    have h1 := hmono q p (by omega)
    have h2 := hle 0 q (Nat.zero_le q)
    unfold ahead
    split_ifs <;> omega

omit [DecidableEq α] in
theorem pool_sublist {a b : Pick α} {mid : List (Pick α)}
    (h : List.IsChain Pick.Next (a :: (mid ++ [b]))) : a.pool.Sublist b.pool := by
  induction mid generalizing a with
  | nil => exact (List.isChain_cons_cons.mp h).1.1
  | cons m mid ih =>
    obtain ⟨hnext, htail⟩ := List.isChain_cons_cons.mp h
    exact hnext.1.trans (ih htail)

/-- As long as `c` is not picked, the picks come closer to it. -/
theorem ahead_lt_of_chain {circle : List α} (hn : circle.Nodup) {a b : Pick α}
    {mid : List (Pick α)} (h : List.IsChain Pick.Next (a :: (mid ++ [b])))
    (hb : b.pool.Sublist circle) {c : α} (hc : c ∈ a.pool)
    (hmiss : ∀ m ∈ a :: mid, m.chosen ≠ c) :
    ahead circle.length (circle.idxOf b.chosen) (circle.idxOf c) <
      ahead circle.length (circle.idxOf a.chosen) (circle.idxOf c) := by
  have hsub := (pool_sublist h).trans hb
  induction mid generalizing a with
  | nil =>
    obtain ⟨-, p, hp, hnext⟩ := (List.isChain_cons_cons.mp h).1
    exact ahead_lt hn hsub hp hnext hc (hmiss a List.mem_cons_self)
  | cons m mid ih =>
    obtain ⟨⟨hgrow, p, hp, hnext⟩, htail⟩ := List.isChain_cons_cons.mp h
    have hfirst := ahead_lt hn hsub hp hnext hc (hmiss a List.mem_cons_self)
    refine lt_trans (ih htail (hgrow.subset hc) (fun m' hm' => ?_) ?_) hfirst
    · exact hmiss m' (List.mem_cons_of_mem _ hm')
    · exact (pool_sublist htail).trans hb

/-- A rotation that returns to an element has met everything that was in the pool when it left
it. -/
theorem mem_of_return {a b : Pick α} {mid : List (Pick α)}
    (h : List.IsChain Pick.Next (a :: (mid ++ [b]))) (hn : b.pool.Nodup)
    (hab : a.chosen = b.chosen) {c : α} (hc : c ∈ a.pool) :
    ∃ m ∈ a :: mid, m.chosen = c := by
  by_contra hmiss
  push Not at hmiss
  have := ahead_lt_of_chain hn h (List.Sublist.refl _) hc hmiss
  rw [hab] at this
  exact lt_irrefl _ this

theorem getElem?_chosen {pool : List α} (hn : pool.Nodup) {a : Pick α} {rest : List (Pick α)}
    (h : List.IsChain Pick.Next (a :: rest)) (hpool : ∀ m ∈ a :: rest, m.pool = pool) {p : ℕ}
    (hp : pool[p]? = some a.chosen) {i : ℕ} (hi : i < (a :: rest).length) :
    ((a :: rest).map Pick.chosen)[i]? = pool[(i + p) % pool.length]? := by
  induction rest generalizing a p i with
  | nil =>
    obtain rfl : i = 0 := by simpa using hi
    have hlt := (List.getElem?_eq_some_iff.mp hp).1
    rw [Nat.zero_add, Nat.mod_eq_of_lt hlt, hp]
    rfl
  | cons b rest ih =>
    have hlt := (List.getElem?_eq_some_iff.mp hp).1
    cases i with
    | zero =>
      rw [Nat.zero_add, Nat.mod_eq_of_lt hlt, hp]
      rfl
    | succ i =>
      obtain ⟨⟨-, p', hp', hnext⟩, htail⟩ := List.isChain_cons_cons.mp h
      rw [hpool a List.mem_cons_self] at hp' hnext
      obtain rfl : p' = p := by
        rw [← idxOf_eq_of_getElem? hn hp', idxOf_eq_of_getElem? hn hp]
      have hrest := ih htail (fun m hm => hpool m (List.mem_cons_of_mem _ hm)) hnext
        (by simpa using hi)
      rw [List.map_cons, List.getElem?_cons_succ, hrest]
      congr 1
      rw [Nat.add_mod_mod]
      congr 1
      omega

/-- A lap through a pool that does not change meets every element once. -/
theorem perm_of_lap {pool : List α} (hn : pool.Nodup) {lap : List (Pick α)}
    (h : List.IsChain Pick.Next lap) (hpool : ∀ m ∈ lap, m.pool = pool)
    (hchosen : ∀ m ∈ lap, m.chosen ∈ m.pool) (hlen : lap.length = pool.length) :
    (lap.map Pick.chosen).Perm pool := by
  cases lap with
  | nil =>
    rw [List.length_nil] at hlen
    rw [List.length_eq_zero_iff.mp hlen.symm]
    exact List.Perm.refl _
  | cons a rest =>
    have ha := hchosen a List.mem_cons_self
    rw [hpool a List.mem_cons_self] at ha
    obtain ⟨p, hp, hpa⟩ := List.getElem_of_mem ha
    have hp' : pool[p]? = some a.chosen := by rw [List.getElem?_eq_getElem hp, hpa]
    have heq : (a :: rest).map Pick.chosen = pool.rotate p := by
      refine List.ext_getElem? fun i => ?_
      by_cases hi : i < (a :: rest).length
      · rw [getElem?_chosen hn h hpool hp' hi, List.getElem?_rotate (hlen ▸ hi)]
      · rw [List.getElem?_eq_none, List.getElem?_eq_none]
        · rw [List.length_rotate]
          omega
        · rw [List.length_map]
          omega
    rw [heq]
    exact List.rotate_perm pool p

end Rotation
