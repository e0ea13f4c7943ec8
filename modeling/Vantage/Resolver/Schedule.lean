import Mathlib.Data.List.Perm.Basic
import Mathlib.Order.Interval.Finset.Nat
import Vantage.Resolver.Types

/-!
# The primary schedule of a resolver target

Resolver view `r` of a target is led by position `(r - 1) mod n` of a schedule that every party
derives from the session identifier and the target alone. The Fisher–Yates loop only exchanges
positions and the last step moves one member to the end, so the schedule is a permutation of the
committee that ends with the proposer of the target; read modulo `n` it gives every member one
turn in any `n` consecutive views.

* `shuffle_perm`, `resolverSchedule_perm`, `resolverSchedule_eq_append`.
-/

namespace Vantage

variable {K D : Type}

/-! ### The seed -/

/-- The first eight bytes of a hash, read as a little-endian word. -/
def seedOf (hash : D → ℕ → Vector UInt8 32) (sid : D) (target : ℕ) : UInt64 :=
  ((hash sid target).toList.take 8).foldr (fun byte word => word * 256 + byte.toUInt64) 0

/-- The party of `cfg` runs in the session `sid` over `committee`. -/
structure ResolverConfig.InSession (cfg : ResolverConfig K D) (committee : Committee K)
    (hash : D → ℕ → Vector UInt8 32) (sid : D) : Prop where
  committee : cfg.committee = committee
  seed : ∀ target, cfg.scheduleSeed target = seedOf hash sid target

/-! ### The shuffle is a permutation -/

section Shuffle

variable {α : Type}

theorem swapAt_perm (l : List α) {i j : ℕ} (hi : i < l.length) (hj : j < l.length) :
    (swapAt l i j).Perm l := by
  unfold swapAt
  rw [List.getElem?_eq_getElem hi, List.getElem?_eq_getElem hj]
  exact List.set_set_perm hi hj

theorem shuffle_perm (i : ℕ) (state : UInt64) (l : List α) (hi : i < l.length ∨ i = 0) :
    (shuffle i state l).Perm l := by
  induction i generalizing state l with
  | zero => exact List.Perm.refl l
  | succ i ih =>
    have hlt : i + 1 < l.length := by omega
    have hj : (splitmix (state + 0x9E3779B97F4A7C15)).toNat % (i + 2) < l.length :=
      (Nat.mod_lt _ (by omega)).trans_le hlt
    rw [shuffle]
    refine (ih _ _ ?_).trans (swapAt_perm l hlt hj)
    rw [length_swapAt]
    omega

end Shuffle

/-! ### The schedule -/

section Schedule

variable [LinearOrder K] (committee : Committee K) (seed : UInt64) (target : ℕ)

/-- The members other than the proposer of the target, in the order of their turns. -/
def otherPrimaries : List K :=
  (shuffle (committee.size - 1) seed committee.sorted).erase (committee.oneBased target)

theorem shuffle_sorted_perm :
    (shuffle (committee.size - 1) seed committee.sorted).Perm committee.sorted := by
  refine shuffle_perm _ _ _ (.inl ?_)
  have := committee.size_pos
  rw [committee.sorted_length]
  omega

theorem oneBased_mem_shuffle :
    committee.oneBased target ∈ shuffle (committee.size - 1) seed committee.sorted :=
  (shuffle_sorted_perm committee seed).mem_iff.mpr (List.get_mem _ _)

theorem resolverSchedule_eq_append : resolverSchedule committee seed target =
    otherPrimaries committee seed target ++ [committee.oneBased target] :=
  if_pos (oneBased_mem_shuffle committee seed target)

theorem resolverSchedule_perm : (resolverSchedule committee seed target).Perm committee.sorted := by
  rw [resolverSchedule_eq_append]
  refine (List.perm_append_singleton _ _).trans ?_
  exact (List.perm_cons_erase (oneBased_mem_shuffle committee seed target)).symm.trans
    (shuffle_sorted_perm committee seed)

theorem resolverSchedule_nodup : (resolverSchedule committee seed target).Nodup :=
  (resolverSchedule_perm committee seed target).nodup_iff.mpr committee.sorted_nodup

theorem mem_resolverSchedule {k : K} :
    k ∈ resolverSchedule committee seed target ↔ k ∈ committee.authorities :=
  (resolverSchedule_perm committee seed target).mem_iff.trans committee.mem_sorted

theorem length_otherPrimaries :
    (otherPrimaries committee seed target).length + 1 = committee.size := by
  rw [← length_resolverSchedule committee seed target, resolverSchedule_eq_append]
  simp

theorem resolverSchedule_get_eq_oneBased (p : Fin (resolverSchedule committee seed target).length) :
    (resolverSchedule committee seed target).get p = committee.oneBased target ↔
      p.val + 1 = committee.size := by
  have hlen := length_otherPrimaries committee seed target
  have hn := length_resolverSchedule committee seed target
  have hlast : (resolverSchedule committee seed target).get ⟨committee.size - 1, by omega⟩ =
      committee.oneBased target := by
    have h : committee.size - 1 = (otherPrimaries committee seed target).length := by omega
    simp only [List.get_eq_getElem, resolverSchedule_eq_append, h, List.getElem_concat_length]
  have hp := p.isLt
  rw [← hlast, (resolverSchedule_nodup committee seed target).get_inj_iff, Fin.ext_iff]
  simp only
  omega

end Schedule

/-! ### Turns -/

theorem existsUnique_view {n start p : ℕ} (hp : p < n) (hs : 1 ≤ start) :
    ∃! view, (start ≤ view ∧ view < start + n) ∧ (view - 1) % n = p := by
  have hmem : p ∈ (Finset.Ico (start - 1) (start - 1 + n)).image (· % n) := by
    rw [Nat.image_Ico_mod]
    exact Finset.mem_range.mpr hp
  obtain ⟨q, hq, rfl⟩ := Finset.mem_image.mp hmem
  have hq' := Finset.mem_Ico.mp hq
  refine ⟨q + 1, ⟨by omega, by rw [Nat.add_sub_cancel]⟩, ?_⟩
  rintro view ⟨hview, hmod⟩
  have hin : view - 1 ∈ Finset.Ico (start - 1) (start - 1 + n) := by
    rw [Finset.mem_Ico]
    omega
  have := Nat.mod_injOn_Ico (start - 1) n hin hq hmod
  omega

section Turns

variable [LinearOrder K] (cfg : ResolverConfig K D) (target : ℕ)

/-- The position of a view in the schedule of its target. -/
def turn (view : ℕ) : ℕ := (view - 1) % cfg.committee.size

theorem resolutionLeader_eq_getElem? (view : ℕ) :
    (resolverSchedule cfg.committee (cfg.scheduleSeed target) target)[turn cfg view]? =
      some (resolutionLeader cfg target view) := by
  rw [turn, ← length_resolverSchedule cfg.committee (cfg.scheduleSeed target) target]
  exact List.getElem?_eq_getElem _

/-- Every member has one turn in any `n` consecutive views. -/
theorem existsUnique_resolutionLeader {member : K} (hm : member ∈ cfg.committee.authorities)
    {start : ℕ} (hs : 1 ≤ start) :
    ∃! view, (start ≤ view ∧ view < start + cfg.committee.size) ∧
      resolutionLeader cfg target view = member := by
  obtain ⟨p, hp, hget⟩ := List.getElem_of_mem
    ((mem_resolverSchedule cfg.committee (cfg.scheduleSeed target) target).mpr hm)
  have hlead : ∀ view, resolutionLeader cfg target view = member ↔ turn cfg view = p := by
    intro view
    have hview := resolutionLeader_eq_getElem? cfg target view
    rw [← hget]
    constructor
    · intro h
      refine ((List.getElem?_inj hp (resolverSchedule_nodup _ _ _)).mp ?_).symm
      rw [hview, h, List.getElem?_eq_getElem hp]
    · rintro rfl
      rw [List.getElem?_eq_getElem hp] at hview
      exact (Option.some.inj hview).symm
  rw [length_resolverSchedule] at hp
  simpa only [hlead, turn] using existsUnique_view hp hs

theorem resolutionLeader_eq_oneBased {view : ℕ} :
    resolutionLeader cfg target view = cfg.committee.oneBased target ↔
      turn cfg view + 1 = cfg.committee.size := by
  refine (resolverSchedule_get_eq_oneBased _ _ _ _).trans ?_
  simp only [turn, length_resolverSchedule]

omit [LinearOrder K] in
theorem turn_succ_eq_size {view : ℕ} (h : turn cfg view + 1 = cfg.committee.size) :
    cfg.committee.size ∣ view := by
  have hpos := cfg.committee.size_pos
  have hdiv := Nat.div_add_mod (view - 1) cfg.committee.size
  rw [turn] at h
  obtain rfl | hv := Nat.eq_zero_or_pos view
  · exact Nat.dvd_zero _
  · refine ⟨(view - 1) / cfg.committee.size + 1, ?_⟩
    rw [Nat.mul_add, Nat.mul_one]
    omega

end Turns

/-- The schedule of a target is a permutation of the committee with the proposer of the target at
its end, and every party of the session leads by it; so every member is primary once in any `n`
consecutive resolver views, and the proposer only in views that `n` divides. -/
theorem resolver_schedule_visits_everyone [LinearOrder K] (committee : Committee K)
    (hash : D → ℕ → Vector UInt8 32) (sid : D) (target : ℕ) :
    (resolverSchedule committee (seedOf hash sid target) target).Perm committee.sorted ∧
      (resolverSchedule committee (seedOf hash sid target) target).getLast? =
        some (committee.oneBased target) ∧
      ∀ cfg : ResolverConfig K D, cfg.InSession committee hash sid →
        (∀ view, some (resolutionLeader cfg target view) =
          (resolverSchedule committee (seedOf hash sid target) target)[
            (view - 1) % committee.size]?) ∧
        (∀ start, 1 ≤ start → ∀ member ∈ committee.authorities,
          ∃! view, (start ≤ view ∧ view < start + committee.size) ∧
            resolutionLeader cfg target view = member) ∧
        ∀ view, resolutionLeader cfg target view = committee.oneBased target →
          committee.size ∣ view := by
  refine ⟨resolverSchedule_perm _ _ _, ?_, ?_⟩
  · rw [resolverSchedule_eq_append]
    exact List.getLast?_concat
  · rintro cfg ⟨rfl, hseed⟩
    refine ⟨fun view => ?_, fun start hs member hm => ?_, fun view hl => ?_⟩
    · rw [← hseed]
      exact (resolutionLeader_eq_getElem? cfg target view).symm
    · exact existsUnique_resolutionLeader cfg target hm hs
    · exact turn_succ_eq_size cfg ((resolutionLeader_eq_oneBased cfg target).mp hl)

end Vantage
