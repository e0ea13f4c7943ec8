import Mathlib.Data.List.MinMax
import Mathlib.Data.Prod.Lex
import Mathlib.Order.Lattice.Nat
import Vantage.Agb.Types
import Vantage.Lib.Once
import Vantage.Lib.Table

/-!
# The frontier and the own proposals

The frontier tracks the active views and the contiguous prefix of well-formed proposals, and builds
the proposals of its own party. A tip that completed open without an exact quorum is quarantined:
its author is left out of the ordinary tips and is probed after growing gaps, counted in own
proposals. Old views are pruned.

* `proposeView`, `proposeViewMixedOpen`, `proposeViewBatch`: the own proposals;
* `Activates`, `step_spec`: what a call does;
* `Frontier.laws`: every view is activated and proposed at most once, the frontier never goes back,
  and it stands as far as it can as long as pruning does not carry it to a well-formed proposal.
-/

namespace Vantage

/-- What the frontier asks the lane manager. -/
structure LaneCandidates (K D : Type) where
  isExactQAvailable : BlockRef K D → Bool
  prefixContains : BlockRef K D → BlockRef K D → Bool
  cCandidate : K → Option (BlockRef K D)
  confirmationCandidate : K → Option (BlockRef K D)
  tCandidate : K → Option (BlockRef K D)

/-- A tip that is held back, with the next probe for it. -/
structure TipQuarantine (K D : Type) where
  witness : BlockRef K D
  probeAttempt : ℕ
  probeDue : ℕ

/-- Active views and the contiguous well-formed proposal frontier. -/
structure Frontier (K D : Type) where
  name : K
  committee : Committee K
  aI : ℕ
  active : Finset ℕ
  fixedWellFormed : Table ℕ Bool
  proposed : Finset ℕ
  /-- A completed-open tip without a quorum suppresses its author. -/
  quarantinedTips : Table K (TipQuarantine K D)
  /-- The number of own proposals so far. -/
  ownProposalTurn : ℕ
  minLiveView : ℕ

namespace Frontier

variable {K D : Type}

def new (name : K) (committee : Committee K) : Frontier K D :=
  ⟨name, committee, 0, ∅, ∅, ∅, ∅, 0, 1⟩

/-! ### Views -/

def gcBelow (f : Frontier K D) (floor : ℕ) : Frontier K D :=
  if floor ≤ f.minLiveView then f
  else
    { f with
      active := f.active.filter (floor ≤ ·)
      fixedWellFormed := Table.retain (fun view => decide (floor ≤ view)) f.fixedWellFormed
      proposed := f.proposed.filter (floor ≤ ·)
      aI := max f.aI (floor - 1)
      minLiveView := floor }

def activate (f : Frontier K D) (view : ℕ) : Frontier K D × List ℕ :=
  if view ∈ f.active then (f, []) else ({ f with active := insert view f.active }, [view])

/-- The loop through the contiguous well-formed prefix, with the number of turns it may take. -/
def advanceLoop : ℕ → Frontier K D → Frontier K D × List ℕ
  | 0, f => (f, [])
  | fuel + 1, f =>
    match f.fixedWellFormed.lookup (f.aI + 1) with
    | some true =>
      let x := activate { f with aI := f.aI + 1 } (f.aI + 1)
      let y := advanceLoop fuel x.1
      (y.1, x.2 ++ y.2)
    | _ => (f, [])

def lastFixed (f : Frontier K D) : ℕ := f.fixedWellFormed.keys.toFinset.sup id

def advance (f : Frontier K D) : Frontier K D × List ℕ := advanceLoop (f.lastFixed + 1) f

/-- Activate `view`, raise the floor of the frontier, and return the newly active views. -/
def enter (f : Frontier K D) (view : ℕ) : Frontier K D × List ℕ :=
  if view < f.minLiveView then (f, [])
  else
    let x := f.activate view
    let floor := view - 1
    let y := advance (if x.1.aI < floor then { x.1 with aI := floor } else x.1)
    (y.1, x.2 ++ y.2)

/-- Record a fixed proposal and advance through the contiguous well-formed prefix. -/
def recordFixed (f : Frontier K D) (view : ℕ) (wellFormed : Bool) : Frontier K D × List ℕ :=
  if view < f.minLiveView then (f, [])
  else advance { f with fixedWellFormed := f.fixedWellFormed.insert view wellFormed }

def nextTurn (f : Frontier K D) : ℕ := f.aI + 1

variable [LinearOrder K] [DecidableEq D]

/-! ### The quarantine -/

def refreshTipQuarantine (f : Frontier K D) (lm : LaneCandidates K D) : Frontier K D :=
  { f with
    quarantinedTips := Table.filterMap (fun author q =>
      if lm.isExactQAvailable q.witness then none
      else if (lm.cCandidate author).any fun core =>
          decide (q.witness.height ≤ core.height) && lm.prefixContains core q.witness then none
      else some q) f.quarantinedTips }

/-- Quarantine the tips without an exact quorum; the first witness of an author stays. -/
def quarantineTips (f : Frontier K D) (tips : Manifest K D) (lm : LaneCandidates K D) :
    Frontier K D :=
  let f := f.refreshTipQuarantine lm
  { f with
    quarantinedTips := tips.foldl (fun m tip =>
      if lm.isExactQAvailable tip ∨ tip.author ∈ m then m
      else m.insert tip.author ⟨tip, 0, f.ownProposalTurn + 1⟩) f.quarantinedTips }

/-! ### Own proposals -/

/-- What `pick` names for each author in turn, except for digests already seen. -/
def collect (pick : K → Option (BlockRef K D)) : Finset D → List K → Finset D × Manifest K D
  | seen, [] => (seen, [])
  | seen, author :: authors =>
    match pick author with
    | none => collect pick seen authors
    | some r =>
      if r.digest ∈ seen then collect pick seen authors
      else
        let x := collect pick (insert r.digest seen) authors
        (x.1, r :: x.2)

/-- The confirmation candidate before the fresher tip. -/
def tipCandidate (lm : LaneCandidates K D) (author : K) : Option (BlockRef K D) :=
  (lm.confirmationCandidate author).or (lm.tCandidate author)

/-- The quarantined author whose probe is due first, with its candidate; ties go to the author that
comes first in the committee. -/
def probe (f : Frontier K D) (lm : LaneCandidates K D) (seen : Finset D) :
    Option (ℕ × ℕ × K × BlockRef K D) :=
  (f.committee.sorted.zipIdx.filterMap fun (author, index) =>
    (f.quarantinedTips.lookup author).bind fun q =>
      if f.ownProposalTurn < q.probeDue then none
      else (tipCandidate lm author).bind fun candidate =>
        if candidate.digest ∈ seen then none
        else some (q.probeDue, index, author, candidate)).argmin fun p => toLex (p.1, p.2.1)

/-- The next probe of an author is twice as far away as the last one. -/
def postpone (f : Frontier K D) (author : K) : Frontier K D :=
  match f.quarantinedTips.lookup author with
  | none => f
  | some q =>
    { f with
      quarantinedTips := f.quarantinedTips.insert author
        { q with
          probeDue := f.ownProposalTurn + 2 ^ min q.probeAttempt 63
          probeAttempt := q.probeAttempt + 1 } }

/-- The cores, then the tips of authors that are not quarantined and at most one probe. -/
def buildManifests (f : Frontier K D) (lm : LaneCandidates K D) :
    Frontier K D × Manifest K D × Manifest K D :=
  let f := f.refreshTipQuarantine lm
  let cores := collect lm.cCandidate ∅ f.committee.sorted
  let tips := collect (fun author =>
    if author ∈ f.quarantinedTips then none else tipCandidate lm author) cores.1 f.committee.sorted
  match f.probe lm tips.1 with
  | none => (f, cores.2, tips.2.insertionSort (·.author ≤ ·.author))
  | some (_, _, author, candidate) =>
    (f.postpone author, cores.2, (tips.2 ++ [candidate]).insertionSort (·.author ≤ ·.author))

/-- Propose at most once and only as the designated proposer. -/
def propose {α : Type} (f : Frontier K D) (view : ℕ) (build : Frontier K D → Frontier K D × α) :
    Frontier K D × Option α :=
  if view < f.minLiveView then (f, none)
  else if view ∈ f.proposed then (f, none)
  else if f.committee.oneBased view ≠ f.name then (f, none)
  else
    let x := build
      { f with proposed := insert view f.proposed, ownProposalTurn := f.ownProposalTurn + 1 }
    (x.1, some x.2)

def proposeView (f : Frontier K D) (view : ℕ) (lm : LaneCandidates K D)
    (m : Option (ResolutionEntry K D)) : Frontier K D × Option (ViewProposal K D) :=
  f.propose view fun f =>
    let x := f.buildManifests lm
    (x.1, ⟨view, x.2.1, x.2.2, m⟩)

def tryPropose (f : Frontier K D) (lm : LaneCandidates K D) (m : Option (ResolutionEntry K D)) :
    Frontier K D × Option (ViewProposal K D) :=
  f.proposeView f.nextTurn lm m

/-- The ordinary cores and the own tip, whether or not it is quarantined. -/
def proposeViewMixedOpen (f : Frontier K D) (view : ℕ) (lm : LaneCandidates K D) :
    Frontier K D × Option (ViewProposal K D) :=
  f.propose view fun f =>
    let f := f.refreshTipQuarantine lm
    let cores := collect lm.cCandidate ∅ f.committee.sorted
    let tips := collect (tipCandidate lm) cores.1 [f.name]
    (f, ⟨view, cores.2, tips.2, none⟩)

def proposeViewBatch (f : Frontier K D) (view : ℕ) (lm : LaneCandidates K D)
    (entries : List (ResolutionEntry K D)) : Frontier K D × Option (BatchViewProposal K D) :=
  f.propose view fun f =>
    let x := f.buildManifests lm
    (x.1, ⟨view, x.2.1, x.2.2, entries⟩)

/-! ### Calls -/

/-- The calls of the frontier. -/
inductive Call (K D : Type)
  | enter (view : ℕ)
  | recordFixed (view : ℕ) (wellFormed : Bool)
  | gcBelow (floor : ℕ)
  | quarantineTips (tips : Manifest K D) (lm : LaneCandidates K D)
  | tryPropose (lm : LaneCandidates K D) (m : Option (ResolutionEntry K D))
  | proposeView (view : ℕ) (lm : LaneCandidates K D) (m : Option (ResolutionEntry K D))
  | proposeViewMixedOpen (view : ℕ) (lm : LaneCandidates K D)
  | proposeViewBatch (view : ℕ) (lm : LaneCandidates K D) (entries : List (ResolutionEntry K D))

/-- What the frontier hands on. -/
inductive Out (K D : Type)
  | activated (view : ℕ)
  | proposal (p : ViewProposal K D)
  | batch (p : BatchViewProposal K D)

def Out.activatedView : Out K D → Option ℕ
  | .activated view => some view
  | _ => none

def Out.proposedView : Out K D → Option ℕ
  | .activated _ => none
  | .proposal p => some p.view
  | .batch p => some p.view

def call (f : Frontier K D) : Call K D → Frontier K D × List (Out K D)
  | .enter view => ((f.enter view).1, (f.enter view).2.map .activated)
  | .recordFixed view wellFormed =>
    ((f.recordFixed view wellFormed).1, (f.recordFixed view wellFormed).2.map .activated)
  | .gcBelow floor => (f.gcBelow floor, [])
  | .quarantineTips tips lm => (f.quarantineTips tips lm, [])
  | .tryPropose lm m => ((f.tryPropose lm m).1, (f.tryPropose lm m).2.toList.map .proposal)
  | .proposeView view lm m =>
    ((f.proposeView view lm m).1, (f.proposeView view lm m).2.toList.map .proposal)
  | .proposeViewMixedOpen view lm =>
    ((f.proposeViewMixedOpen view lm).1, (f.proposeViewMixedOpen view lm).2.toList.map .proposal)
  | .proposeViewBatch view lm entries =>
    ((f.proposeViewBatch view lm entries).1,
      (f.proposeViewBatch view lm entries).2.toList.map .batch)

/-- The frontier after a sequence of calls, and everything they returned. -/
def run (f : Frontier K D) : List (Call K D) → Frontier K D × List (Out K D)
  | [] => (f, [])
  | c :: calls =>
    let x := f.call c
    let y := run x.1 calls
    (y.1, x.2 ++ y.2)

/-! ### What a call does -/

section Views

omit [LinearOrder K] [DecidableEq D]

variable {f f' f'' : Frontier K D} {vs ws : List ℕ}

/-- The views `vs` have been activated, and the frontier has not gone back. -/
structure Activates (f f' : Frontier K D) (vs : List ℕ) : Prop where
  aI : f.aI ≤ f'.aI
  minLiveView : f'.minLiveView = f.minLiveView
  proposed : f'.proposed = f.proposed
  active : ∀ v, v ∈ f'.active ↔ v ∈ f.active ∨ v ∈ vs
  nodup : vs.Nodup
  fresh : ∀ v ∈ vs, v ∉ f.active ∧ f.minLiveView ≤ v

theorem Activates.trans (h : Activates f f' vs) (h' : Activates f' f'' ws) :
    Activates f f'' (vs ++ ws) where
  aI := h.aI.trans h'.aI
  minLiveView := h'.minLiveView.trans h.minLiveView
  proposed := h'.proposed.trans h.proposed
  active v := by rw [h'.active, h.active, List.mem_append, or_assoc]
  nodup := by
    refine List.nodup_append.mpr ⟨h.nodup, h'.nodup, ?_⟩
    rintro v hv w hw rfl
    exact (h'.fresh v hw).1 ((h.active v).mpr (.inr hv))
  fresh v hv := by
    rcases List.mem_append.mp hv with hv | hv
    · exact h.fresh v hv
    · obtain ⟨hno, hle⟩ := h'.fresh v hv
      rw [h.minLiveView] at hle
      exact ⟨fun hact => hno ((h.active v).mpr (.inl hact)), hle⟩

theorem activates_frame {aI : ℕ} {fixed : Table ℕ Bool} (h : f.aI ≤ aI) :
    Activates f { f with aI := aI, fixedWellFormed := fixed } [] :=
  ⟨h, rfl, rfl, by simp, .nil, by simp⟩

theorem activate_activates {view : ℕ} (hview : f.minLiveView ≤ view) :
    Activates f (f.activate view).1 (f.activate view).2 := by
  unfold activate
  split
  · exact ⟨le_rfl, rfl, rfl, by simp, .nil, by simp⟩
  · next hno =>
    refine ⟨le_rfl, rfl, rfl, fun v => ?_, List.nodup_singleton view, ?_⟩
    · simp [or_comm]
    · simpa using ⟨hno, hview⟩

@[simp] theorem activate_fixedWellFormed (f : Frontier K D) (view : ℕ) :
    (f.activate view).1.fixedWellFormed = f.fixedWellFormed := by
  unfold activate
  split <;> rfl

@[simp] theorem activate_aI (f : Frontier K D) (view : ℕ) : (f.activate view).1.aI = f.aI := by
  unfold activate
  split <;> rfl

/-- The next proposal is not recorded as well formed. -/
def Maximal (f : Frontier K D) : Prop := f.fixedWellFormed.lookup (f.aI + 1) ≠ some true

theorem le_lastFixed {v : ℕ} {b : Bool} (h : f.fixedWellFormed.lookup v = some b) :
    v ≤ f.lastFixed := by
  have hmem : v ∈ f.fixedWellFormed.keys.toFinset := by
    rw [List.mem_toFinset, ← AList.mem_keys, ← AList.lookup_isSome, h]
    rfl
  exact Finset.le_sup (f := id) hmem

/-- The loop activates views in the live range, and with enough turns it stops at a view that it
cannot pass. -/
theorem advanceLoop_spec (fuel : ℕ) (hlive : f.minLiveView ≤ f.aI + 1) :
    Activates f (advanceLoop fuel f).1 (advanceLoop fuel f).2 ∧
      (f.lastFixed < f.aI + 1 + fuel → (advanceLoop fuel f).1.Maximal) := by
  induction fuel generalizing f with
  | zero =>
    refine ⟨⟨le_rfl, rfl, rfl, by simp [advanceLoop], .nil, by simp [advanceLoop]⟩,
      fun hlt hnext => ?_⟩
    have : f.aI + 1 ≤ f.lastFixed := le_lastFixed hnext
    omega
  | succ fuel ih =>
    rw [advanceLoop]
    split
    · next hnext =>
      have hframe : Activates f { f with aI := f.aI + 1 } [] :=
        activates_frame (Nat.le_succ f.aI)
      have hact := hframe.trans (activate_activates (f := { f with aI := f.aI + 1 }) hlive)
      have hlive' := hact.minLiveView
      have hlast : (activate { f with aI := f.aI + 1 } (f.aI + 1)).1.lastFixed = f.lastFixed := by
        simp [lastFixed]
      obtain ⟨hloop, hmax⟩ := ih (f := (activate { f with aI := f.aI + 1 } (f.aI + 1)).1)
        (by rw [hlive', activate_aI]; simp only; omega)
      refine ⟨hact.trans hloop, fun hlt => hmax ?_⟩
      rw [hlast, activate_aI]
      simp only
      omega
    · next hstop =>
      exact ⟨⟨le_rfl, rfl, rfl, by simp, .nil, by simp⟩, fun _ hnext => hstop hnext⟩

theorem advance_spec (hlive : f.minLiveView ≤ f.aI + 1) :
    Activates f f.advance.1 f.advance.2 ∧ f.advance.1.Maximal := by
  obtain ⟨hact, hmax⟩ := advanceLoop_spec (f.lastFixed + 1) hlive
  exact ⟨hact, hmax (by omega)⟩

variable (hlive : f.minLiveView ≤ f.aI + 1)

include hlive

theorem enter_spec (view : ℕ) :
    Activates f (f.enter view).1 (f.enter view).2 ∧ (f.Maximal → (f.enter view).1.Maximal) := by
  unfold enter
  split
  · exact ⟨⟨le_rfl, rfl, rfl, by simp, .nil, by simp⟩, id⟩
  · next hview =>
    have hact := activate_activates (f := f) (Nat.not_lt.mp hview)
    simp only [activate_aI]
    have hraise : Activates (f.activate view).1
        (if f.aI < view - 1 then { (f.activate view).1 with aI := view - 1 }
          else (f.activate view).1) [] := by
      split
      · next hlt => exact activates_frame (by rw [activate_aI]; omega)
      · exact ⟨le_rfl, rfl, rfl, by simp, .nil, by simp⟩
    have hboth := hact.trans hraise
    rw [List.append_nil] at hboth
    obtain ⟨hadv, hmax⟩ := advance_spec (f := if f.aI < view - 1 then
        { (f.activate view).1 with aI := view - 1 } else (f.activate view).1)
      (by rw [hboth.minLiveView]; have := hboth.aI; omega)
    exact ⟨hboth.trans hadv, fun _ => hmax⟩

theorem recordFixed_spec (view : ℕ) (wellFormed : Bool) :
    Activates f (f.recordFixed view wellFormed).1 (f.recordFixed view wellFormed).2 ∧
      (f.Maximal → (f.recordFixed view wellFormed).1.Maximal) := by
  unfold recordFixed
  split
  · exact ⟨⟨le_rfl, rfl, rfl, by simp, .nil, by simp⟩, id⟩
  · obtain ⟨hadv, hmax⟩ :=
      advance_spec (f := { f with fixedWellFormed := f.fixedWellFormed.insert view wellFormed })
        hlive
    exact ⟨(activates_frame le_rfl).trans hadv, fun _ => hmax⟩

end Views

/-! ### Proposals -/

variable {f f' : Frontier K D} {c : Call K D}

/-- What stays when a proposal is built. -/
structure SameViews (f f' : Frontier K D) : Prop where
  aI : f'.aI = f.aI
  minLiveView : f'.minLiveView = f.minLiveView
  active : f'.active = f.active
  fixedWellFormed : f'.fixedWellFormed = f.fixedWellFormed

theorem buildManifests_same (f : Frontier K D) (lm : LaneCandidates K D) :
    SameViews f (f.buildManifests lm).1 ∧ (f.buildManifests lm).1.proposed = f.proposed := by
  unfold buildManifests
  simp only
  split
  · exact ⟨⟨rfl, rfl, rfl, rfl⟩, rfl⟩
  · unfold postpone
    split <;> exact ⟨⟨rfl, rfl, rfl, rfl⟩, rfl⟩

omit [DecidableEq D] in
theorem propose_spec {α : Type} (f : Frontier K D) (view : ℕ)
    {build : Frontier K D → Frontier K D × α}
    (hbuild : ∀ f, SameViews f (build f).1 ∧ (build f).1.proposed = f.proposed) :
    SameViews f (f.propose view build).1 ∧
      ((f.propose view build).2 = none ∧ (f.propose view build).1.proposed = f.proposed ∨
        (∃ f₁, (f.propose view build).2 = some (build f₁).2) ∧ f.minLiveView ≤ view ∧
          view ∉ f.proposed ∧ (f.propose view build).1.proposed = insert view f.proposed) := by
  unfold propose
  split
  · exact ⟨⟨rfl, rfl, rfl, rfl⟩, .inl ⟨rfl, rfl⟩⟩
  · next hlive =>
    split
    · exact ⟨⟨rfl, rfl, rfl, rfl⟩, .inl ⟨rfl, rfl⟩⟩
    · next hno =>
      split
      · exact ⟨⟨rfl, rfl, rfl, rfl⟩, .inl ⟨rfl, rfl⟩⟩
      · obtain ⟨hsame, hprop⟩ := hbuild { f with
          proposed := insert view f.proposed, ownProposalTurn := f.ownProposalTurn + 1 }
        exact ⟨⟨hsame.aI, hsame.minLiveView, hsame.active, hsame.fixedWellFormed⟩,
          .inr ⟨⟨_, rfl⟩, Nat.not_lt.mp hlive, hno, hprop⟩⟩

/-! ### Runs -/

/-- A view that is active or pruned, and one that is proposed or pruned. -/
def Entered (f : Frontier K D) (v : ℕ) : Prop := v ∈ f.active ∨ v < f.minLiveView

def Proposed (f : Frontier K D) (v : ℕ) : Prop := v ∈ f.proposed ∨ v < f.minLiveView

/-- What a call keeps, and that the views it returns are new. -/
structure Step (f f' : Frontier K D) (out : List (Out K D)) : Prop where
  live : f'.minLiveView ≤ f'.aI + 1
  aI : f.aI ≤ f'.aI
  entered : ∀ v, f.Entered v → f'.Entered v
  proposed : ∀ v, f.Proposed v → f'.Proposed v
  activatedNodup : (out.filterMap Out.activatedView).Nodup
  activated : ∀ v ∈ out.filterMap Out.activatedView, ¬f.Entered v ∧ f'.Entered v
  proposedNodup : (out.filterMap Out.proposedView).Nodup
  proposal : ∀ v ∈ out.filterMap Out.proposedView, ¬f.Proposed v ∧ f'.Proposed v

omit [LinearOrder K] [DecidableEq D] in
theorem Activates.step {vs : List ℕ} (h : Activates f f' vs) (hlive : f.minLiveView ≤ f.aI + 1) :
    Step f f' (vs.map .activated) := by
  have hviews : (vs.map (Out.activated (K := K) (D := D))).filterMap Out.activatedView = vs := by
    simp [List.filterMap_map, Function.comp_def, Out.activatedView]
  have hnone : (vs.map (Out.activated (K := K) (D := D))).filterMap Out.proposedView = [] := by
    simp [Out.proposedView]
  refine ⟨?_, h.aI, fun v hv => ?_, fun v hv => ?_, ?_, fun v hv => ?_, ?_, ?_⟩
  · rw [h.minLiveView]
    exact hlive.trans (Nat.succ_le_succ h.aI)
  · rw [Entered, h.active, h.minLiveView]
    exact hv.imp_left .inl
  · rwa [Proposed, h.proposed, h.minLiveView]
  · rw [hviews]
    exact h.nodup
  · rw [hviews] at hv
    obtain ⟨hno, hle⟩ := h.fresh v hv
    rw [Entered, Entered, h.active]
    exact ⟨by rintro (hact | hlt) <;> [exact hno hact; omega], .inl (.inr hv)⟩
  · rw [hnone]
    exact .nil
  · rw [hnone]
    simp

omit [LinearOrder K] [DecidableEq D] in
theorem SameViews.step (h : SameViews f f') (hp : f'.proposed = f.proposed)
    (hlive : f.minLiveView ≤ f.aI + 1) : Step f f' [] := by
  refine ⟨by rw [h.minLiveView, h.aI]; exact hlive, h.aI.ge, fun v hv => ?_, fun v hv => ?_, .nil,
    by simp, .nil, by simp⟩
  · rwa [Entered, h.active, h.minLiveView]
  · rwa [Proposed, hp, h.minLiveView]

omit [DecidableEq D] in
theorem propose_step {α : Type} {view : ℕ} {build : Frontier K D → Frontier K D × α}
    {out : α → Out K D} (hbuild : ∀ f, SameViews f (build f).1 ∧ (build f).1.proposed = f.proposed)
    (hout : ∀ f, (out (build f).2).proposedView = some view ∧
      (out (build f).2).activatedView = none)
    (hlive : f.minLiveView ≤ f.aI + 1) :
    Step f (f.propose view build).1 ((f.propose view build).2.toList.map out) := by
  obtain ⟨hsame, ⟨hnone, hprop⟩ | ⟨⟨f₁, hsome⟩, hview, hno, hprop⟩⟩ :=
    propose_spec f view hbuild
  · rw [hnone]
    exact hsame.step hprop hlive
  · obtain ⟨hkey, hactive⟩ := hout f₁
    rw [hsome]
    have hlist : (some (build f₁).2).toList.map out = [out (build f₁).2] := rfl
    rw [hlist]
    refine ⟨by rw [hsame.minLiveView, hsame.aI]; exact hlive, hsame.aI.ge, fun v hv => ?_,
      fun v hv => ?_, by simp [hactive], by simp [hactive], by simp [hkey], ?_⟩
    · rwa [Entered, hsame.active, hsame.minLiveView]
    · rw [Proposed, hprop, hsame.minLiveView]
      exact hv.imp_left (Finset.mem_insert_of_mem)
    · simp only [List.filterMap_cons, hkey, List.filterMap_nil, List.mem_singleton, forall_eq]
      refine ⟨?_, .inl (by rw [hprop]; exact Finset.mem_insert_self view _)⟩
      rintro (hmem | hlt)
      · exact hno hmem
      · omega

omit [LinearOrder K] [DecidableEq D] in
theorem gcBelow_step (floor : ℕ) (hlive : f.minLiveView ≤ f.aI + 1) :
    Step f (f.gcBelow floor) [] := by
  unfold gcBelow
  split
  · exact SameViews.step ⟨rfl, rfl, rfl, rfl⟩ rfl hlive
  · refine ⟨?_, le_max_left _ _, fun v hv => ?_, fun v hv => ?_, .nil, by simp, .nil, by simp⟩
    · simp only
      omega
    · simp only [Entered, Finset.mem_filter] at hv ⊢
      rcases Nat.lt_or_ge v floor with hlt | hge
      · exact .inr hlt
      · exact hv.imp (fun hact => ⟨hact, hge⟩) fun hlt => by omega
    · simp only [Proposed, Finset.mem_filter] at hv ⊢
      rcases Nat.lt_or_ge v floor with hlt | hge
      · exact .inr hlt
      · exact hv.imp (fun hmem => ⟨hmem, hge⟩) fun hlt => by omega

theorem call_step (c : Call K D) (hlive : f.minLiveView ≤ f.aI + 1) :
    Step f (f.call c).1 (f.call c).2 := by
  cases c with
  | enter view => exact (enter_spec hlive view).1.step hlive
  | recordFixed view wellFormed => exact (recordFixed_spec hlive view wellFormed).1.step hlive
  | gcBelow floor => exact gcBelow_step floor hlive
  | quarantineTips tips lm => exact SameViews.step ⟨rfl, rfl, rfl, rfl⟩ rfl hlive
  | tryPropose lm m =>
    exact propose_step (fun f => buildManifests_same f lm) (fun f => ⟨rfl, rfl⟩) hlive
  | proposeView view lm m =>
    exact propose_step (fun f => buildManifests_same f lm) (fun f => ⟨rfl, rfl⟩) hlive
  | proposeViewMixedOpen view lm =>
    exact propose_step (fun f => ⟨⟨rfl, rfl, rfl, rfl⟩, rfl⟩) (fun f => ⟨rfl, rfl⟩) hlive
  | proposeViewBatch view lm entries =>
    exact propose_step (fun f => buildManifests_same f lm) (fun f => ⟨rfl, rfl⟩) hlive

/-- Pruning does not carry the frontier to a proposal that is recorded as well formed. -/
def Clears (f : Frontier K D) : Call K D → Prop
  | .gcBelow floor =>
    f.minLiveView < floor → f.aI + 1 < floor → f.fixedWellFormed.lookup floor ≠ some true
  | _ => True

/-- No call of the sequence does when it is made. -/
def AllClear (f : Frontier K D) : List (Call K D) → Prop
  | [] => True
  | c :: calls => f.Clears c ∧ AllClear (f.call c).1 calls

omit [LinearOrder K] [DecidableEq D] in
theorem SameViews.maximal (h : SameViews f f') (hmax : f.Maximal) : f'.Maximal := by
  rwa [Maximal, h.fixedWellFormed, h.aI]

omit [DecidableEq D] in
theorem propose_maximal {α : Type} {view : ℕ} {build : Frontier K D → Frontier K D × α}
    (hbuild : ∀ f, SameViews f (build f).1 ∧ (build f).1.proposed = f.proposed)
    (hmax : f.Maximal) : (f.propose view build).1.Maximal :=
  (propose_spec f view hbuild).1.maximal hmax

theorem call_maximal (c : Call K D) (hlive : f.minLiveView ≤ f.aI + 1) (hmax : f.Maximal)
    (hc : f.Clears c) : (f.call c).1.Maximal := by
  cases c with
  | enter view => exact (enter_spec hlive view).2 hmax
  | recordFixed view wellFormed => exact (recordFixed_spec hlive view wellFormed).2 hmax
  | gcBelow floor =>
    simp only [call, gcBelow]
    split
    · exact hmax
    · next hfloor =>
      simp only [Maximal, Table.lookup_retain]
      rcases Nat.lt_or_ge (f.aI + 1) floor with hlt | hge
      · rw [show max f.aI (floor - 1) + 1 = floor by omega, if_pos (by simp)]
        exact hc (Nat.not_le.mp hfloor) hlt
      · rw [show max f.aI (floor - 1) = f.aI by omega, if_pos (by simpa using hge)]
        exact hmax
  | quarantineTips tips lm => exact SameViews.maximal ⟨rfl, rfl, rfl, rfl⟩ hmax
  | tryPropose lm m =>
    exact propose_maximal (fun f => buildManifests_same f lm) hmax
  | proposeView view lm m =>
    exact propose_maximal (fun f => buildManifests_same f lm) hmax
  | proposeViewMixedOpen view lm =>
    exact propose_maximal (fun f => ⟨⟨rfl, rfl, rfl, rfl⟩, rfl⟩) hmax
  | proposeViewBatch view lm entries =>
    exact propose_maximal (fun f => buildManifests_same f lm) hmax

/-- What holds of a frontier and of everything it has returned. -/
structure Lawful (f : Frontier K D) (out : List (Out K D)) : Prop where
  live : f.minLiveView ≤ f.aI + 1
  activated : Once Out.activatedView (fun _ => none) Entered f out
  proposed : Once Out.proposedView (fun _ => none) Proposed f out

theorem Lawful.run {out : List (Out K D)} (h : Lawful f out) (calls : List (Call K D)) :
    Lawful (f.run calls).1 (out ++ (f.run calls).2) ∧ f.aI ≤ (f.run calls).1.aI ∧
      (f.Maximal → f.AllClear calls → (f.run calls).1.Maximal) := by
  induction calls generalizing f out with
  | nil =>
    simp only [Frontier.run, List.append_nil]
    exact ⟨h, le_rfl, fun hmax _ => hmax⟩
  | cons c calls ih =>
    have hstep := call_step c h.live
    have hnext : Lawful (f.call c).1 (out ++ (f.call c).2) := ⟨hstep.live,
      h.activated.fresh hstep.entered hstep.activatedNodup hstep.activated,
      h.proposed.fresh hstep.proposed hstep.proposedNodup hstep.proposal⟩
    obtain ⟨hlaw, haI, hmax⟩ := ih hnext
    rw [List.append_assoc] at hlaw
    exact ⟨hlaw, hstep.aI.trans haI,
      fun hm hclear => hmax (call_maximal c h.live hm hclear.1) hclear.2⟩

/-- Whatever is called, the frontier never goes back, and every view is reported newly active and
proposed at most once, also across pruning. If pruning never carries the frontier to a proposal
recorded as well formed, the frontier has always advanced as far as it can. -/
theorem laws (name : K) (committee : Committee K) (calls : List (Call K D)) :
    let x := (new name committee).run calls
    (∀ v, keyCount Out.activatedView v x.2 ≤ 1) ∧ (∀ v, keyCount Out.proposedView v x.2 ≤ 1) ∧
    (∀ calls', x.1.aI ≤ (x.1.run calls').1.aI) ∧
    ((new name committee).AllClear calls →
      x.1.fixedWellFormed.lookup (x.1.aI + 1) ≠ some true) := by
  intro x
  have hnew : Lawful (new name committee : Frontier K D) [] :=
    ⟨le_rfl, ⟨by simp [keyCount], by simp [keyCount]⟩, ⟨by simp [keyCount], by simp [keyCount]⟩⟩
  obtain ⟨hlaw, -, hmax⟩ := hnew.run calls
  rw [List.nil_append] at hlaw
  have hnone : ∀ v (out : List (Out K D)),
      keyCount (fun _ => (none : Option ℕ)) v out = 0 := by
    simp [keyCount]
  refine ⟨fun v => ?_, fun v => ?_, fun calls' => (hlaw.run calls').2.1,
    hmax (by simp [Maximal, new])⟩
  · have := hlaw.activated.le v
    rwa [hnone] at this
  · have := hlaw.proposed.le v
    rwa [hnone] at this

def soloCommittee : Committee ℕ := ⟨{0}, fun _ => 1, ⟨0, by simp⟩⟩

theorem laws_solo :
    (((new 0 soloCommittee : Frontier ℕ ℕ).run [.recordFixed 1 true, .gcBelow 2]).1.aI = 1) ∧
      ((new 0 soloCommittee : Frontier ℕ ℕ).run
        [.recordFixed 1 true, .gcBelow 2]).1.fixedWellFormed.lookup 2 ≠ some true := by
  have hclear : (new 0 soloCommittee : Frontier ℕ ℕ).AllClear
      [.recordFixed 1 true, .gcBelow 2] := by
    refine ⟨trivial, fun _ _ => ?_, trivial⟩
    decide +kernel
  exact ⟨by decide +kernel, (laws 0 soloCommittee _).2.2.2 hclear⟩

/-- Pruning carries the frontier to view 4, and view 5 stays behind although its proposal is
recorded as well formed. -/
theorem pruned_not_maximal :
    ((new 0 soloCommittee : Frontier ℕ ℕ).run [.recordFixed 5 true, .gcBelow 5]).1.aI = 4 ∧
      ((new 0 soloCommittee : Frontier ℕ ℕ).run
        [.recordFixed 5 true, .gcBelow 5]).1.fixedWellFormed.lookup 5 = some true := by
  decide +kernel

end Frontier

end Vantage
