import Vantage.Cursor.Order
import Vantage.System.Terminal

/-!
# Correct nodes put out the same sequence

A node hands its completions and seals to its cursor. The correct nodes agree on them, and the
outcomes determine the output, so the outputs of two correct nodes differ in length only.

* `Deployment.Drives`: what a node tells its cursor;
* `Deployment.exists_settlement`: it fits one outcome per view, the same for all correct nodes;
* `output_total_order`: of two outputs one continues the other.
-/

namespace Vantage.Deployment

variable {K D : Type} [LinearOrder K] [LinearOrder D] [Inhabited D] {d : Deployment K D}
  {byzantine : Finset K} {σ : ∀ q, Node d q} {p q : K}

/-- A call of the cursor that an effect of the node causes, or a retry. -/
def Drives (out : List (Effect K D)) : Cursor.Call K D → Prop
  | .completed view c t => .completed view c t ∈ out
  | .sealed view o => ∃ route, .sealed view o route ∈ out
  | .retry => True

section

variable (hS : d.session.hash.CollisionFree) (hu : d.committee.UnitStakes)
  (hb : (d.committee.authorities ∩ byzantine).card ≤
    (Thresholds.fromPartyCount d.committee.size).fParties)
  (hσ : d.Reachable byzantine σ)
include hS hu hb hσ

theorem exists_settlement (B : BlockSet K D) (genesis : D) :
    ∃ O : ℕ → Outcome K D, ∀ p, (d.faults byzantine hb).Correct p → ∀ x, Drives (σ p).out x →
      x.Fits ⟨B, genesis, O⟩ := by
  have hview : ∀ view, ∃ o : Outcome K D, ∀ p, (d.faults byzantine hb).Correct p →
      (∀ o' route, .sealed view o' route ∈ (σ p).out → o' = o) ∧
      ∀ c t, .completed view c t ∈ (σ p).out → o.parts[0]? = some c := by
    intro view
    obtain ⟨s, T⟩ := hσ.restored hS hb hu view
    by_cases hsealed : ∃ p o route, (d.faults byzantine hb).Correct p ∧
        .sealed view o route ∈ (σ p).out
    · obtain ⟨q, o, route, hq, ho⟩ := hsealed
      refine ⟨o, fun p hp => ⟨fun o' route' h => ?_, fun c t h => ?_⟩⟩
      · exact T.settles_unique hp hq (.inl ⟨route', h⟩) (.inl ⟨route, ho⟩)
      · rcases (T.settles_completed hp hq h).1 o (.inl ⟨route, ho⟩) with rfl | rfl <;> rfl
    by_cases hcompleted : ∃ p c t, (d.faults byzantine hb).Correct p ∧
        .completed view c t ∈ (σ p).out
    · -- the view is not sealed yet, but its core is fixed
      obtain ⟨q, c, t, hq, hc⟩ := hcompleted
      refine ⟨.core c, fun p hp => ⟨fun o' route' h => ?_, fun c' t' h => ?_⟩⟩
      · exact absurd ⟨p, o', route', hp, h⟩ hsealed
      · rw [((T.settles_completed hq hp hc).2 c' t' h).1]
        rfl
    · exact ⟨.skip, fun p hp => ⟨fun o' route' h => absurd ⟨p, o', route', hp, h⟩ hsealed,
        fun c t h => absurd ⟨p, c, t, hp, h⟩ hcompleted⟩⟩
  choose O hO using hview
  refine ⟨O, fun p hp x hx => ?_⟩
  cases x with
  | completed view c t => exact (hO view p hp).2 c t hx
  | sealed view o =>
    obtain ⟨route, h⟩ := hx
    exact (hO view p hp).1 o route h
  | retry => trivial

/-- Total order: two correct nodes that feed their completions and seals to their cursors, in any
order and repeatedly, with any caches of the same blocks, put out sequences of which one continues
the other. -/
theorem output_total_order (hp : p ∈ d.committee.authorities \ byzantine)
    (hq : q ∈ d.committee.authorities \ byzantine) (B : BlockSet K D) (genesis : D)
    {calls calls' : List (BlockCache K D × Cursor.Call K D)}
    (h : ∀ x ∈ calls, B.Holds x.1 ∧ Drives (σ p).out x.2)
    (h' : ∀ x ∈ calls', B.Holds x.1 ∧ Drives (σ q).out x.2) :
    Cursor.Continues (Cursor.run genesis calls) (Cursor.run genesis calls') ∨
      Cursor.Continues (Cursor.run genesis calls') (Cursor.run genesis calls) := by
  obtain ⟨O, hO⟩ := exists_settlement hS hu hb hσ B genesis
  exact Cursor.continues_run (G := ⟨B, genesis, O⟩)
    (fun x hx => ⟨(h x hx).1, hO p (Finset.mem_sdiff.mp hp) x.2 (h x hx).2⟩)
    fun x hx => ⟨(h' x hx).1, hO q (Finset.mem_sdiff.mp hq) x.2 (h' x hx).2⟩

end

/-- The first block of party 0. -/
def oneBlock : Header (Fin 4) ℕ := ⟨7, 0, 1, 0, []⟩

/-- The view that names it is completed and sealed. -/
def blockScript : List (Event (Fin 4) ℕ) := completing ⟨1, [⟨0, 1, 7⟩], [], none⟩

/-- One party learns of the completion before it has the block, the other has it when it learns of
the seal. -/
theorem output_total_order_blockScript :
    let cache : BlockCache (Fin 4) ℕ := BlockCache.upsert ∅ oneBlock true true
    let r := Cursor.run 0 [(∅, .completed 1 [⟨0, 1, 7⟩] []), (cache, .retry)]
    let r' := Cursor.run 0 [(cache, .sealed 1 (.full [⟨0, 1, 7⟩] []))]
    r.1.delta = [7] ∧ (Cursor.finalized r'.2).map (·.2.2) = [[7]] ∧
      (Cursor.Continues r r' ∨ Cursor.Continues r' r) := by
  intro cache
  have hreachable : (numbered 4).Reachable {2} ((numbered 4).play (fun _ => {}) blockScript) :=
    Reachable.init.play (by decide +kernel)
  have h₀ : .completed 1 [⟨0, 1, 7⟩] [] ∈
      ((numbered 4).play (fun _ => {}) blockScript 0).out := by decide +kernel
  have h₁ : .sealed 1 (.full [⟨0, 1, 7⟩] []) .directFull ∈
      ((numbered 4).play (fun _ => {}) blockScript 1).out := by decide +kernel
  let B : BlockSet (Fin 4) ℕ := ⟨fun d => if d = 7 then some oneBlock else none, fun h => by
    obtain ⟨rfl, heq⟩ := Option.ite_none_right_eq_some.mp h
    exact Option.some.inj heq ▸ rfl⟩
  have hnone : B.Holds ∅ := fun d e he => by cases he
  have hcache : B.Holds cache := by
    intro d e he
    by_cases hd : d = 7
    · subst hd
      obtain rfl := Option.some.inj ((AList.lookup_insert _).symm.trans he)
      rfl
    · have hlookup : cache.lookup d = none := AList.lookup_insert_ne hd
      rw [hlookup] at he
      cases he
  refine ⟨by decide +kernel, by decide +kernel, output_total_order (numbered_collisionFree 4)
    (numbered_unitStakes 4) (by decide) hreachable (p := 0) (q := 1) (by decide) (by decide) B 0
    (fun x hx => ?_) fun x hx => ?_⟩
  · rcases List.mem_cons.mp hx with rfl | hx
    · exact ⟨hnone, h₀⟩
    · obtain rfl := List.mem_singleton.mp hx
      exact ⟨hcache, trivial⟩
  · obtain rfl := List.mem_singleton.mp hx
    exact ⟨hcache, _, h₁⟩

end Vantage.Deployment
