import Vantage.Resolver.Wishes
import Vantage.System.Script

/-!
# View entry of the resolvers of a committee

Every correct party runs a resolver on any calls; a wish that names a correct sender was sent by
it, everything else is arbitrary.

* `ResolverSystem.view_entry_safe`: no own wish runs ahead of the views entered by correct parties,
  every correct party enters the views one after another, and each on the wishes of `n - 2 * f`
  correct members.
-/

namespace Vantage

variable {K D : Type} [LinearOrder K] [LinearOrder D] [Inhabited D]

/-- The resolvers of all parties. -/
abbrev ResolverSystem (d : Deployment K D) : Type := ∀ p, ResolverParty d.session (d.cfg p)

namespace ResolverSystem

variable {d : Deployment K D}

def take (p : K) (fuel : ℕ) (c : ResolverCall K D) (σ : ResolverSystem d) : ResolverSystem d :=
  Function.update σ p ((σ p).take fuel c)

/-- A wish that names a correct sender was broadcast by it or repeated to the receiver. -/
def Deliverable (byzantine : Finset K) (σ : ResolverSystem d) (p : K) (c : ResolverCall K D) :
    Prop :=
  ∀ m, c = .wish m → m.sender ∈ d.committee.authorities → m.sender ∉ byzantine →
    .broadcastWish m ∈ (σ m.sender).out ∨ .wishTo p m ∈ (σ m.sender).out

/-- The states of runs in which only correct members take steps. -/
inductive Reachable (byzantine : Finset K) : ResolverSystem d → Prop
  | init : Reachable byzantine fun _ => {}
  | take {σ : ResolverSystem d} (h : Reachable byzantine σ) {p : K}
      (hp : p ∈ d.committee.authorities) (hc : p ∉ byzantine) (fuel : ℕ) {c : ResolverCall K D}
      (hd : Deliverable byzantine σ p c) : Reachable byzantine (take p fuel c σ)

/-- The resolver views of a target that a party has entered. -/
def entered (σ : ResolverSystem d) (t : ℕ) (p : K) : List ℕ := entriesOf (effectsOf t (σ p).out)

/-- The resolver views of a target that a party has wished for. -/
def wished (σ : ResolverSystem d) (t : ℕ) (p : K) : List ℕ := wishesOf (effectsOf t (σ p).out)

/-- What the resolver of a party cannot see. -/
def world (byzantine : Finset K) (σ : ResolverSystem d) (t : ℕ) (p : K) : WishWorld K where
  byzantine := byzantine
  mayStart := (σ p).resolver.retainedFloor ≤ t
  wished q v := v ∈ wished σ t q
  reached v := ∃ q ∈ d.committee.authorities, q ∉ byzantine ∧ ∃ r ∈ entered σ t q, v ≤ r + 1

/-- View entry is in order at every correct party. -/
structure Inv (byzantine : Finset K) (σ : ResolverSystem d) : Prop where
  filed : ∀ p, (σ p).resolver.Filed
  wish : ∀ p ∈ d.committee.authorities, p ∉ byzantine → ∀ t,
    WishInv (world byzantine σ t p) (d.cfg p) ((σ p).resolver.state t) (effectsOf t (σ p).out)

variable {byzantine : Finset K} {σ : ResolverSystem d} {p : K} {c : ResolverCall K D} {fuel : ℕ}

@[simp] theorem take_self : take p fuel c σ p = (σ p).take fuel c := Function.update_self _ _ _

theorem take_of_ne {q : K} (h : q ≠ p) : take p fuel c σ q = σ q := Function.update_of_ne h _ _

theorem out_subset_take (q : K) : (σ q).out ⊆ (take p fuel c σ q).out := by
  by_cases hq : q = p
  · subst hq
    rw [take_self]
    exact List.subset_append_left _ _
  · rw [take_of_ne hq]
    exact List.Subset.refl _

omit [LinearOrder K] [LinearOrder D] [Inhabited D] in
theorem effectsOf_subset {t : ℕ} {es es' : List (DirectResolutionEffect K D)} (h : es ⊆ es') :
    effectsOf t es ⊆ effectsOf t es' := fun _ hx =>
  mem_effectsOf.mpr ⟨h (mem_effectsOf.mp hx).1, (mem_effectsOf.mp hx).2⟩

theorem entered_subset_take (t : ℕ) (q : K) : entered σ t q ⊆ entered (take p fuel c σ) t q :=
  List.filterMap_subset _ (effectsOf_subset (out_subset_take q))

theorem wished_subset_take (t : ℕ) (q : K) : wished σ t q ⊆ wished (take p fuel c σ) t q :=
  List.filterMap_subset _ (effectsOf_subset (out_subset_take q))

theorem Inv.wished_of_deliverable (h : Inv byzantine σ) {m : DirectResolutionWish K}
    (hd : Deliverable byzantine σ p (.wish m)) (hm : m.sender ∈ d.committee.authorities)
    (hc : m.sender ∉ byzantine) : m.view ∈ wished σ m.target m.sender := by
  rcases hd m rfl hm hc with hx | hx
  · exact List.mem_filterMap.mpr ⟨_, mem_effectsOf.mpr ⟨hx, rfl⟩, rfl⟩
  · exact (h.wish m.sender hm hc m.target).rewished _ (mem_effectsOf.mpr ⟨hx, rfl⟩) _ rfl

theorem Inv.sound (h : Inv byzantine σ) (t : ℕ) (p : K) :
    (world byzantine σ t p).Sound d.committee.authorities where
  wished q hq hc v hv := by
    rcases (h.wish q hq hc t).near v hv with hone | ⟨r, hr, hvr⟩ | hreach
    · exact .inl hone
    · exact .inr ⟨q, hq, hc, r, hr, hvr⟩
    · exact .inr hreach
  reached v v' hv := by
    rintro ⟨q, hq, hc, r, hr, hvr⟩
    exact ⟨q, hq, hc, r, hr, hv.trans hvr⟩

/-- What a party cannot see grows with every call of any party. -/
theorem wishInv_take (p : K) (fuel : ℕ) (c : ResolverCall K D) {t : ℕ} {q : K}
    {s : TargetState d.session (d.cfg q).committee t} {out : List (DirectResolutionEffect K D)}
    (h : WishInv (world byzantine σ t q) (d.cfg q) s out)
    (hm : (take p fuel c σ q).resolver.retainedFloor ≤ t → (σ q).resolver.retainedFloor ≤ t) :
    WishInv (world byzantine (take p fuel c σ) t q) (d.cfg q) s out :=
  h.mono rfl (fun r _ hv => wished_subset_take t r hv)
    (fun _ ⟨r, hr, hc, x, hx, hv⟩ => ⟨r, hr, hc, x, entered_subset_take t r hx, hv⟩) hm

theorem Inv.wish_gcBelow (h : Inv byzantine σ) (hp : p ∈ d.committee.authorities)
    (hc : p ∉ byzantine) (floor t : ℕ) :
    WishInv (world byzantine (ResolverSystem.take p fuel (.gcBelow floor) σ) t p) (d.cfg p)
      ((ResolverSystem.take p fuel (.gcBelow floor) σ p).resolver.state t)
      (effectsOf t (ResolverSystem.take p fuel (.gcBelow floor) σ p).out) := by
  have htake : ResolverSystem.take p fuel (.gcBelow floor) σ p =
      { σ p with resolver := (σ p).resolver.gcBelow floor } := by
    rw [take_self, ResolverParty.take_gcBelow]
  have hkeep := wishInv_take p fuel (.gcBelow floor) (h.wish p hp hc t) (by
    rw [htake, DirectResolver.retainedFloor_gcBelow]
    exact (le_max_left _ _).trans)
  rw [htake, DirectResolver.state_gcBelow]
  split
  · next ht =>
    refine hkeep.prune ?_
    show ¬(ResolverSystem.take p fuel (.gcBelow floor) σ p).resolver.retainedFloor ≤ t
    rw [htake, DirectResolver.retainedFloor_gcBelow]
    exact fun hle => absurd ((le_max_right _ _).trans hle) (not_le.mpr ht)
  · exact hkeep

theorem Inv.wish_call (h : Inv byzantine σ)
    (hf : (d.committee.authorities ∩ byzantine).card ≤
      (Thresholds.fromPartyCount d.committee.size).fParties)
    (hp : p ∈ d.committee.authorities) (hc : p ∉ byzantine) (hd : Deliverable byzantine σ p c)
    (hgc : ∀ floor, c ≠ .gcBelow floor) (t : ℕ) :
    WishInv (world byzantine (ResolverSystem.take p fuel c σ) t p) (d.cfg p)
      ((ResolverSystem.take p fuel c σ p).resolver.state t)
      (effectsOf t (ResolverSystem.take p fuel c σ p).out) := by
  have hmoves := DirectResolver.call_moves hgc fuel (h.filed p)
  have hwish : ∀ q v, (c.inputs (σ p).resolver t).wish q v →
      (world byzantine σ t p).Counts (d.cfg p) [] q v := by
    rintro q v ⟨rfl, -, hmember⟩
    have hq : q ∈ d.committee.authorities := by
      by_contra hno
      have hstake : 0 < d.committee.stake q := of_decide_eq_true hmember
      rw [Committee.stake, if_neg hno] at hstake
      exact absurd hstake (Nat.lt_irrefl 0)
    exact ⟨hq, fun hqc => .inr (h.wished_of_deliverable hd hq hqc)⟩
  have hend := WishInv.of_steps (hmoves.steps t) (h.sound t p) hf hp id hwish (h.wish p hp hc t)
  rw [← effectsOf_append] at hend
  have hfloor : (ResolverSystem.take p fuel c σ p).resolver.retainedFloor ≤ t →
      (σ p).resolver.retainedFloor ≤ t := by
    rw [take_self]
    exact hmoves.floor.symm.le.trans
  have hlater := wishInv_take p fuel c hend hfloor
  rw [take_self]
  exact hlater

theorem Inv.take (h : Inv byzantine σ)
    (hf : (d.committee.authorities ∩ byzantine).card ≤
      (Thresholds.fromPartyCount d.committee.size).fParties)
    (hp : p ∈ d.committee.authorities) (hc : p ∉ byzantine)
    (hd : Deliverable byzantine σ p c) : Inv byzantine (ResolverSystem.take p fuel c σ) where
  filed q := by
    by_cases hq : q = p
    · subst hq
      rw [take_self]
      exact ResolverParty.filed_take (h.filed q) fuel c
    · rw [take_of_ne hq]
      exact h.filed q
  wish q hq hqc t := by
    by_cases hqp : q = p
    · subst hqp
      by_cases hgc : ∃ floor, c = .gcBelow floor
      · obtain ⟨floor, rfl⟩ := hgc
        exact h.wish_gcBelow hp hc floor t
      · exact h.wish_call hf hp hc hd (fun floor h => hgc ⟨floor, h⟩) t
    · have hkeep := wishInv_take p fuel c (h.wish q hq hqc t) (by rw [take_of_ne hqp]; exact id)
      rwa [take_of_ne hqp]

theorem Reachable.inv (h : Reachable byzantine σ)
    (hf : (d.committee.authorities ∩ byzantine).card ≤
      (Thresholds.fromPartyCount d.committee.size).fParties) : Inv byzantine σ := by
  induction h with
  | init =>
    refine ⟨fun p t => .empty, fun p _ _ t => ?_⟩
    refine ⟨nofun, nofun, nofun, nofun, fun _ _ _ => rfl, ⟨0, rfl⟩, nofun, nofun, nofun⟩
  | take _ hp hc fuel hd ih => exact ih.take hf hp hc hd

/-- With at most `f` Byzantine members and in every interleaving: the own wish of a correct party,
and every wish it has sent, is at most one view beyond a view that a correct party has entered, or
the first view; a correct party enters the views `1, 2, 3, …`, each once; and when it has entered a
view, `n - 2 * f` correct members have wished for it or for a later one. -/
theorem view_entry_safe (d : Deployment K D) (byzantine : Finset K)
    (hf : (d.committee.authorities ∩ byzantine).card ≤
      (Thresholds.fromPartyCount d.committee.size).fParties)
    {σ : ResolverSystem d} (h : Reachable byzantine σ) {p : K} (hp : p ∈ d.committee.authorities)
    (hc : p ∉ byzantine) (t : ℕ) :
    let withinReach v := ∃ r, v ≤ r + 1 ∧
      (r = 0 ∨ ∃ q ∈ d.committee.authorities, q ∉ byzantine ∧ r ∈ entered σ t q)
    (∀ i, ((σ p).resolver.state t).inst = some i → withinReach i.ownWish) ∧
    (∀ v ∈ wished σ t p, withinReach v) ∧
    (∃ k, entered σ t p = List.range' 1 k ∧
      ∀ i, ((σ p).resolver.state t).inst = some i → i.enteredThrough = k) ∧
    ∀ r ∈ entered σ t p, AtLeast d.committee.authorities
      (d.committee.size - 2 * (Thresholds.fromPartyCount d.committee.size).fParties) fun q =>
        q ∉ byzantine ∧ ∃ v ∈ wished σ t q, r ≤ v := by
  intro withinReach
  have hwish := (h.inv hf).wish p hp hc t
  have hnear : ∀ v, v ∈ wished σ t p → withinReach v := by
    intro v hv
    rcases hwish.near v hv with hone | ⟨r, hr, hvr⟩ | ⟨q, hq, hqc, r, hr, hvr⟩
    · exact ⟨0, hone, .inl rfl⟩
    · exact ⟨r, hvr, .inr ⟨p, hp, hc, hr⟩⟩
    · exact ⟨r, hvr, .inr ⟨q, hq, hqc, hr⟩⟩
  refine ⟨fun i hi => ?_, hnear, ?_, fun r hr => ?_⟩
  · rcases hwish.own i hi with hzero | hown
    · exact ⟨0, by omega, .inl rfl⟩
    · exact hnear _ hown
  · obtain ⟨k, hk⟩ := hwish.consecutive
    refine ⟨k, hk, fun i hi => ?_⟩
    have hlen := congrArg List.length ((hwish.current i hi).2.symm.trans hk)
    rwa [List.length_range', List.length_range'] at hlen
  · refine (hwish.supported r hr).mono ?_
    rintro q - ⟨hqc, v, hv, hw⟩
    refine ⟨hqc, v, ?_, hv⟩
    rcases hw with ⟨rfl, hw⟩ | hw
    · exact hw
    · exact hw

/-- Three of four parties activate target 1, and the first hears the wishes of the others. -/
def threeActive : ResolverSystem (.numbered 4) :=
  take 0 10 (.wish ⟨1, 1, 2⟩) (take 0 10 (.wish ⟨1, 1, 1⟩)
    (take 2 10 (.activateWithLocalTerminal 1) (take 1 10 (.activateWithLocalTerminal 1)
      (take 0 10 (.activateWithLocalTerminal 1) fun _ => {}))))

/-- The first party enters view 1 on the wishes of two correct members. -/
theorem view_entry_safe_threeActive :
    1 ∈ entered threeActive 1 0 ∧ AtLeast (Finset.univ : Finset (Fin 4)) 2 fun q =>
      q ∉ ({3} : Finset (Fin 4)) ∧ ∃ v ∈ wished threeActive 1 q, 1 ≤ v := by
  have hquiet : ∀ {σ : ResolverSystem (.numbered 4)} {p : Fin 4},
      Deliverable {3} σ p (.activateWithLocalTerminal 1) := nofun
  have hreach : Reachable {3} threeActive := by
    have hactive : Reachable {3} (take 2 10 (.activateWithLocalTerminal 1)
        (take 1 10 (.activateWithLocalTerminal 1) (take 0 10 (.activateWithLocalTerminal 1)
          fun _ => {})) : ResolverSystem (.numbered 4)) :=
      ((Reachable.init.take (Finset.mem_univ _) (by decide) 10 hquiet).take (Finset.mem_univ _)
        (by decide) 10 hquiet).take (Finset.mem_univ _) (by decide) 10 hquiet
    refine (hactive.take (Finset.mem_univ _) (by decide) 10 fun m hm _ _ => ?_).take
      (Finset.mem_univ _) (by decide) 10 fun m hm _ _ => ?_
    · cases hm
      exact .inl (by decide +kernel)
    · cases hm
      exact .inl (by decide +kernel)
  have hentered : 1 ∈ entered threeActive 1 0 := by decide +kernel
  exact ⟨hentered, (view_entry_safe (.numbered 4) {3} (by decide) hreach (Finset.mem_univ 0)
    (by decide) 1).2.2.2 1 hentered⟩

end ResolverSystem

end Vantage
