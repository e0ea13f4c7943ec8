import Vantage.Pacemaker.Pacemaker

/-!
# Pacemakers of a committee

Every correct party runs a pacemaker, booted by genesis; a wish that names a correct author is no
larger than that author's watermark, wishes of Byzantine authors are arbitrary.

* `PacemakerSystem.amplification_safe`: no watermark passes every local trigger, every view is
  entered once and in order, and on the wishes of `n - 2 * f` correct parties.
-/

namespace Vantage

variable {K : Type} [LinearOrder K]

/-- The pacemaker of one party, the inputs it has taken and the path it has gone. -/
structure PacemakerNode (K : Type) where
  pacemaker : Pacemaker K := {}
  inputs : List (PacemakerInput K) := []
  path : List EntryStep := []

def PacemakerNode.handle (name : K) (c : Committee K) (input : PacemakerInput K)
    (n : PacemakerNode K) : PacemakerNode K where
  pacemaker := (n.pacemaker.handle name c input).1
  inputs := n.inputs ++ [input]
  path := n.path ++ n.pacemaker.entrySteps name c input

/-- The view that genesis or a raise request wishes for. -/
def PacemakerInput.request : PacemakerInput K → Option ℕ
  | .genesis => some 2
  | .raise x => some x
  | .fastForward _ => none
  | .wish _ _ => none

/-- The pacemakers of all parties. -/
abbrev PacemakerSystem (K : Type) : Type := K → PacemakerNode K

namespace PacemakerSystem

variable (c : Committee K) (byzantine : Finset K)

def take (p : K) (input : PacemakerInput K) (σ : PacemakerSystem K) : PacemakerSystem K :=
  Function.update σ p ((σ p).handle p c input)

/-- Genesis comes first and once.  A wish is stamped with its author's watermark, which never
falls, so that of a correct author is at most the present one. -/
def Deliverable (σ : PacemakerSystem K) (p : K) : PacemakerInput K → Prop
  | .genesis => (σ p).inputs = []
  | .wish q x => (σ p).inputs ≠ [] ∧
      (q ∈ c.authorities → q ∉ byzantine → x ≤ (σ q).pacemaker.ownWatermark)
  | .raise _ => (σ p).inputs ≠ []
  | .fastForward _ => (σ p).inputs ≠ []

/-- The states of runs in which only correct members take steps. -/
inductive Reachable : PacemakerSystem K → Prop
  | init : Reachable fun _ => {}
  | take {σ : PacemakerSystem K} (h : Reachable σ) {p : K} (hp : p ∈ c.authorities)
      (hc : p ∉ byzantine) {input : PacemakerInput K} (hd : Deliverable c byzantine σ p input) :
      Reachable (take c p input σ)

/-- A party that is not Byzantine has wished for the view, or further, on a local trigger. -/
def Triggered (σ : PacemakerSystem K) (v : ℕ) : Prop :=
  ∃ q ∈ c.authorities, q ∉ byzantine ∧ ∃ x ∈ (σ q).inputs.filterMap PacemakerInput.trigger, v ≤ x

/-- What holds at every correct party. -/
structure Inv (σ : PacemakerSystem K) : Prop where
  slot : ∀ p ∈ c.authorities, p ∉ byzantine → ∀ q ∈ c.authorities, q ∉ byzantine →
    (σ p).pacemaker.omega q ≤ (σ q).pacemaker.ownWatermark
  own : ∀ p ∈ c.authorities, p ∉ byzantine → (σ p).pacemaker.ownWatermark = 0 ∨
    Triggered c byzantine σ (σ p).pacemaker.ownWatermark
  path : ∀ p, EntryPath (σ p).pacemaker.largestEnteredView (σ p).path
  fresh : ∀ p, (σ p).inputs = [] → (σ p).pacemaker = {}

variable {c byzantine} {σ : PacemakerSystem K} {p : K} {input : PacemakerInput K}

@[simp] theorem take_self : take c p input σ p = (σ p).handle p c input :=
  Function.update_self _ _ _

theorem take_of_ne {q : K} (h : q ≠ p) : take c p input σ q = σ q := Function.update_of_ne h _ _

theorem ownWatermark_le_take (q : K) :
    (σ q).pacemaker.ownWatermark ≤ (take c p input σ q).pacemaker.ownWatermark := by
  by_cases hq : q = p
  · subst hq
    rw [take_self]
    exact (Pacemaker.handle_change input (σ q).pacemaker).own_le
  · rw [take_of_ne hq]

theorem inputs_subset_take (q : K) : (σ q).inputs ⊆ (take c p input σ q).inputs := by
  by_cases hq : q = p
  · subst hq
    rw [take_self]
    exact List.subset_append_left _ _
  · rw [take_of_ne hq]
    exact List.Subset.refl _

theorem Triggered.take {v : ℕ} (h : Triggered c byzantine σ v) :
    Triggered c byzantine (take c p input σ) v := by
  obtain ⟨q, hq, hc, x, hx, hv⟩ := h
  obtain ⟨i, hi, hix⟩ := List.mem_filterMap.mp hx
  exact ⟨q, hq, hc, x, List.mem_filterMap.mpr ⟨i, inputs_subset_take q hi, hix⟩, hv⟩

theorem Inv.slot_take (h : Inv c byzantine σ) (hp : p ∈ c.authorities) (hc : p ∉ byzantine)
    (hd : Deliverable c byzantine σ p input) {q : K} (hq : q ∈ c.authorities)
    (hqc : q ∉ byzantine) : (PacemakerSystem.take c p input σ p).pacemaker.omega q ≤
      (PacemakerSystem.take c p input σ q).pacemaker.ownWatermark := by
  rw [take_self]
  have hchange : Pacemaker.Change p c input (σ p).pacemaker _ _ := Pacemaker.handle_change input _
  rcases hchange.slot q with hle | ⟨rfl, hown⟩ | hwish
  · exact (hle.trans (h.slot p hp hc q hq hqc)).trans (ownWatermark_le_take q)
  · rw [take_self]
    exact hown.le
  · rw [hwish] at hd
    exact (hd.2 hq hqc).trans (ownWatermark_le_take q)

section Faults

variable (hf : (c.authorities ∩ byzantine).card ≤ (Thresholds.fromPartyCount c.size).fParties)

include hf

theorem Inv.own_take (h : Inv c byzantine σ) (hp : p ∈ c.authorities) (hc : p ∉ byzantine)
    (hd : Deliverable c byzantine σ p input) :
    (PacemakerSystem.take c p input σ p).pacemaker.ownWatermark = 0 ∨
      Triggered c byzantine (PacemakerSystem.take c p input σ)
        (PacemakerSystem.take c p input σ p).pacemaker.ownWatermark := by
  have hchange : Pacemaker.Change p c input (σ p).pacemaker _ _ := Pacemaker.handle_change input _
  rw [take_self]
  rcases hchange.own with hsame | htrigger | ⟨q, x, rfl, hpos, hle⟩
  · exact (h.own p hp hc).imp (hsame.trans ·) fun ht => by
      rw [PacemakerNode.handle, hsame]
      exact ht.take
  · refine .inr ⟨p, hp, hc, _, List.mem_filterMap.mpr ⟨input, ?_, htrigger⟩, le_rfl⟩
    rw [take_self]
    exact List.mem_append_right _ (List.mem_singleton_self input)
  · -- one of the `f + 1` authors is correct, and its slot is below its watermark
    obtain ⟨r, hr, hrc, hrv⟩ := (Pacemaker.atLeast_of_le_kthLargest hpos (Nat.succ_pos _)
      hle).exists_notMem (Nat.lt_succ_of_le hf)
    have hslot : (Pacemaker.recordWish q x (σ p).pacemaker).omega r ≤
        (σ r).pacemaker.ownWatermark := by
      rcases Pacemaker.recordWish_omega q x (σ p).pacemaker r with hle | ⟨rfl, hx⟩
      · exact hle.trans (h.slot p hp hc r hr hrc)
      · exact hx.le.trans (hd.2 hr hrc)
    rcases h.own r hr hrc with hzero | ⟨u, hu, huc, y, hy, hry⟩
    · exact absurd (hpos.trans_le (hrv.trans hslot)) (by rw [hzero]; exact Nat.lt_irrefl 0)
    · exact .inr (Triggered.take ⟨u, hu, huc, y, hy, (hrv.trans hslot).trans hry⟩)

theorem Inv.take (h : Inv c byzantine σ) (hp : p ∈ c.authorities) (hc : p ∉ byzantine)
    (hd : Deliverable c byzantine σ p input) :
    Inv c byzantine (PacemakerSystem.take c p input σ) where
  slot r hr hrc q hq hqc := by
    by_cases hrp : r = p
    · subst hrp
      exact h.slot_take hp hc hd hq hqc
    · rw [take_of_ne hrp]
      exact (h.slot r hr hrc q hq hqc).trans (ownWatermark_le_take q)
  own r hr hrc := by
    by_cases hrp : r = p
    · subst hrp
      exact h.own_take hf hp hc hd
    · rw [take_of_ne hrp]
      exact (h.own r hr hrc).imp_right Triggered.take
  path r := by
    by_cases hrp : r = p
    · subst hrp
      rw [take_self]
      refine Pacemaker.handle_path (h.path r) input ?_
      rintro rfl
      rw [h.fresh r hd]
    · rw [take_of_ne hrp]
      exact h.path r
  fresh r hr := by
    by_cases hrp : r = p
    · subst hrp
      rw [take_self] at hr
      exact absurd hr (List.append_ne_nil_of_right_ne_nil _ (List.cons_ne_nil _ _))
    · rw [take_of_ne hrp] at hr ⊢
      exact h.fresh r hr

omit hf in
theorem Reachable.boot (h : Reachable c byzantine σ) (hp : p ∈ c.authorities) (hc : p ∉ byzantine)
    (hb : (σ p).inputs = []) : Reachable c byzantine (PacemakerSystem.take c p .genesis σ) :=
  h.take hp hc hb

theorem Reachable.inv (h : Reachable c byzantine σ) : Inv c byzantine σ := by
  induction h with
  | init => exact ⟨fun _ _ _ _ _ _ => le_rfl, fun _ _ _ => .inl rfl, fun _ => .nil, fun _ _ => rfl⟩
  | take _ hp hc hd ih => exact ih.take hf hp hc hd

theorem Inv.enter (h : Inv c byzantine σ) (hp : p ∈ c.authorities) (hc : p ∉ byzantine)
    (hd : Deliverable c byzantine σ p input) {v : ℕ}
    (hv : .enter v ∈ ((σ p).pacemaker.handle p c input).2) :
    AtLeast c.authorities (c.size - 2 * (Thresholds.fromPartyCount c.size).fParties) fun q =>
      q ∉ byzantine ∧ v ≤ (PacemakerSystem.take c p input σ q).pacemaker.ownWatermark := by
  have hchange : Pacemaker.Change p c input (σ p).pacemaker _ _ := Pacemaker.handle_change input _
  obtain ⟨hpos, hle⟩ := hchange.enter v hv
  have hq : 0 < (Thresholds.fromPartyCount c.size).nMinusFParties := by
    have := three_mul_fParties_lt c
    simp only [Thresholds.fromPartyCount] at this ⊢
    omega
  obtain ⟨A, hA, hcard, hAv⟩ := Pacemaker.atLeast_of_le_kthLargest hpos hq hle
  refine ⟨A \ byzantine, Finset.sdiff_subset.trans hA, ?_, fun q hqA => ?_⟩
  · have hcorrect := FaultModel.card_sub_le_correct (F := c.faultModel byzantine hf) hA
    simp only [Committee.faultModel] at hcorrect
    simp only [Thresholds.fromPartyCount] at hcard hcorrect ⊢
    omega
  · obtain ⟨hqA, hqc⟩ := Finset.mem_sdiff.mp hqA
    have hslot := h.slot_take hp hc hd (hA hqA) hqc
    rw [take_self] at hslot
    exact ⟨hqc, (hAv q hqA).trans hslot⟩

end Faults

/-- With at most `f` Byzantine parties and in every interleaving: the watermark of a correct party
is at most what a correct party has wished for at genesis, on a raise request or on an
installation; its views are entered once each, one after another from the last one entered or
fast-forwarded to; and each is entered when `n - 2 * f` correct parties have reached it. -/
theorem amplification_safe (c : Committee K) (byzantine : Finset K)
    (hf : (c.authorities ∩ byzantine).card ≤ (Thresholds.fromPartyCount c.size).fParties)
    {σ : PacemakerSystem K} (h : Reachable c byzantine σ) {p : K} (hp : p ∈ c.authorities)
    (hc : p ∉ byzantine) :
    ((σ p).pacemaker.ownWatermark = 0 ∨
      ∃ q ∈ c.authorities, q ∉ byzantine ∧
        ∃ x ∈ (σ q).inputs.filterMap PacemakerInput.trigger, (σ p).pacemaker.ownWatermark ≤ x) ∧
    EntryPath (σ p).pacemaker.largestEnteredView (σ p).path ∧
    ((σ p).path.filterMap EntryStep.entered).Pairwise (· < ·) ∧
    ∀ input, Deliverable c byzantine σ p input →
      ∀ v, .enter v ∈ ((σ p).pacemaker.handle p c input).2 →
        AtLeast c.authorities (c.size - 2 * (Thresholds.fromPartyCount c.size).fParties) fun q =>
          q ∉ byzantine ∧ v ≤ (take c p input σ q).pacemaker.ownWatermark := by
  have hinv := h.inv hf
  exact ⟨hinv.own p hp hc, hinv.path p, (hinv.path p).entered_pairwise.1,
    fun _ hd _ hv => hinv.enter hf hp hc hd hv⟩

def fourParties : Committee ℕ := ⟨Finset.range 4, fun _ => 1, ⟨0, by decide⟩⟩

def threeBooted : PacemakerSystem ℕ :=
  take fourParties 0 (.wish 1 2) (take fourParties 2 .genesis (take fourParties 1 .genesis
    (take fourParties 0 .genesis fun _ => {})))

/-- With the wish of the third booted party the first one enters view 2. -/
theorem amplification_safe_threeBooted :
    .enter 2 ∈ ((threeBooted 0).pacemaker.handle 0 fourParties (.wish 2 2)).2 ∧
      AtLeast (Finset.range 4) 2 fun q =>
        q ∉ ({3} : Finset ℕ) ∧
          2 ≤ (take fourParties 0 (.wish 2 2) threeBooted q).pacemaker.ownWatermark := by
  have hreach : Reachable fourParties {3} threeBooted := by
    have hboot : Reachable fourParties {3} (take fourParties 2 .genesis
        (take fourParties 1 .genesis (take fourParties 0 .genesis fun _ => {}))) := by
      refine Reachable.boot (.boot (.boot .init ?_ ?_ rfl) ?_ ?_ rfl) ?_ ?_ rfl <;> decide
    refine hboot.take (by decide) (by decide) ⟨List.cons_ne_nil _ _, fun _ _ => ?_⟩
    decide
  have henter : .enter 2 ∈ ((threeBooted 0).pacemaker.handle 0 fourParties (.wish 2 2)).2 := by
    decide
  have hd : Deliverable fourParties {3} threeBooted 0 (.wish 2 2) :=
    ⟨List.cons_ne_nil _ _, fun _ _ => by decide⟩
  exact ⟨henter, (amplification_safe fourParties {3} (by decide) hreach (p := 0) (by decide)
    (by decide)).2.2.2 _ hd 2 henter⟩

/-- A party that has installed a state at view 10 wishes for it, although only view 2 was wished
for at genesis and nobody has made a request. -/
theorem fastForward_passes_requests :
    ∃ σ, Reachable fourParties ∅ σ ∧ (σ 0).pacemaker.ownWatermark = 10 ∧
      ∀ q ∈ fourParties.authorities, ∀ x ∈ (σ q).inputs.filterMap PacemakerInput.request,
        x < (σ 0).pacemaker.ownWatermark := by
  refine ⟨take fourParties 0 (.fastForward 10) (take fourParties 0 .genesis fun _ => {}),
    .take (.boot .init (by decide) (by decide) rfl) (by decide) (by decide) ?_, by decide,
    by decide⟩
  exact List.cons_ne_nil _ _

end PacemakerSystem

end Vantage
