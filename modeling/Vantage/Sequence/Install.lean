import Vantage.Cursor.Blocks
import Vantage.Sequence.Store

/-!
# Installing a verified sequence

The views of a verified transfer are staged and installed in order. A view is admitted for fetching
while fewer than a window of views are in flight, its digests are checked in order under a budget,
and it is installed once all of them are cached and validated. Local progress removes views.

* `admitViews`, `refreshBudgeted`, `rebase`, `installable`, `markInstalled`: the operations;
* `Staged`, `Admission`: what every sequence of calls keeps;
* `install_laws`: order, window, readiness, divergence, progress and admission.
-/

namespace Vantage

/-- What local progress leaves of an installation: something, nothing, or another history. -/
inductive RebaseOutcome (D : Type)
  | continues
  | overtaken
  | diverged (view : ℕ) (expected localHead : D)
  deriving DecidableEq

/-- A staged view: the number of digests already checked never passes the end, and a complete view
has them all checked. -/
structure StagedView (K D : Type) where
  outcome : SequenceOutcome K D
  delta : List D
  refs : List (BlockRef K D)
  admitted : Bool
  readyPrefix : ℕ
  complete : Bool
  ready_le : readyPrefix ≤ delta.length
  complete_ready : complete = true → readyPrefix = delta.length

/-- A view whose digests were asked for and are not all there. -/
def StagedView.inFlight {K D : Type} (st : StagedView K D) : Bool := st.admitted && !st.complete

/-- An installation: the staged views, the verified heads, and how far views are admitted and
installed. -/
structure SequenceInstall (K D : Type) where
  baseView : ℕ
  targetView : ℕ
  targetHead : D
  views : Table ℕ (StagedView K D)
  laneTips : Table K (BlockRef K D)
  installedLaneTips : Table K (Header K D)
  heads : Table ℕ D
  nextAdmit : ℕ
  nextInstall : ℕ
  windowViews : ℕ

namespace SequenceInstall

variable {K D : Type} [DecidableEq K] [DecidableEq D]

/-- The blocks that an outcome names. -/
def manifestRefs : SequenceOutcome K D → List (BlockRef K D)
  | .full c t => c ++ t
  | .core c => c
  | .skip => []

/-- A view as it is staged: an empty one is complete. -/
def stage (outcome : SequenceOutcome K D) (delta : List D) : StagedView K D where
  outcome := outcome
  delta := delta
  refs := manifestRefs outcome
  admitted := false
  readyPrefix := 0
  complete := delta.isEmpty && (manifestRefs outcome).isEmpty
  ready_le := Nat.zero_le _
  complete_ready h := by
    rw [Bool.and_eq_true, List.isEmpty_iff] at h
    rw [h.1, List.length_nil]

/-- The highest block of each lane. -/
def raiseTip (m : Table K (BlockRef K D)) (r : BlockRef K D) : Table K (BlockRef K D) :=
  if (m.lookup r.author).all fun current => decide (current.height < r.height)
  then m.insert r.author r else m

/-- Stage the entries of the views after `baseView` up to `targetView`. -/
def new (baseView targetView : ℕ) (targetHead : D)
    (staged : List (ℕ × SequenceOutcome K D × List D)) (heads : List (ℕ × D)) (windowViews : ℕ) :
    SequenceInstall K D :=
  let inRange := fun view => decide (baseView < view) && decide (view ≤ targetView)
  let kept := staged.filter fun e => inRange e.1
  { baseView := baseView
    targetView := targetView
    targetHead := targetHead
    views := kept.foldl (fun m e => m.insert e.1 (stage e.2.1 e.2.2)) ∅
    laneTips := kept.foldl (fun m e => (manifestRefs e.2.1).foldl raiseTip m) ∅
    installedLaneTips := ∅
    heads := (heads.filter fun e => inRange e.1).foldl (fun m e => m.insert e.1 e.2) ∅
    nextAdmit := baseView + 1
    nextInstall := baseView + 1
    windowViews := max windowViews 1 }

/-- Every view after the base up to the target is staged. -/
def isContiguous (s : SequenceInstall K D) : Bool :=
  (List.range' (s.baseView + 1) (s.targetView - s.baseView)).all fun view =>
    (s.views.lookup view).isSome

/-- The loop of `rebase`: the views up to the local one are removed. -/
def removeThrough (localView : ℕ) : ℕ → SequenceInstall K D → SequenceInstall K D
  | 0, s => s
  | fuel + 1, s =>
    if s.nextInstall ≤ localView ∧ s.nextInstall ≤ s.targetView then
      removeThrough localView fuel
        { s with views := s.views.erase s.nextInstall, nextInstall := s.nextInstall + 1 }
    else s

/-- Rebase onto local progress, and reject a conflicting verified head. -/
def rebase (s : SequenceInstall K D) (localView : ℕ) (localHead : D) :
    RebaseOutcome D × SequenceInstall K D :=
  match if s.nextInstall ≤ localView then
      (s.heads.lookup localView).filter fun expected => decide (expected ≠ localHead)
    else none with
  | some expected => (.diverged localView expected localHead, s)
  | none =>
    let s := removeThrough localView (s.targetView + 1 - s.nextInstall) s
    let s := { s with nextAdmit := max s.nextAdmit s.nextInstall }
    (if s.targetView < s.nextInstall then .overtaken else .continues, s)

/-- How many views are in flight. -/
def viewsInFlight (s : SequenceInstall K D) : ℕ := Table.count StagedView.inFlight s.views

/-- A cached header that passed `block_ok`. -/
def deliverable (cache : BlockCache K D) (digest : D) : Bool :=
  (cache.lookup digest).any (·.blockOkVerified)

/-- Check digests in order under a budget: how many are deliverable, and how many were examined. -/
def checkDigests (cache : BlockCache K D) : List D → ℕ → ℕ × ℕ
  | [], _ => (0, 0)
  | _ :: _, 0 => (0, 0)
  | digest :: digests, budget + 1 =>
    if deliverable cache digest then
      let x := checkDigests cache digests budget
      (x.1 + 1, x.2 + 1)
    else (0, 1)

omit [DecidableEq K] in
theorem checkDigests_le (cache : BlockCache K D) (digests : List D) (budget : ℕ) :
    (checkDigests cache digests budget).1 ≤ digests.length := by
  induction digests generalizing budget with
  | nil => simp [checkDigests]
  | cons digest digests ih =>
    cases budget with
    | zero => simp [checkDigests]
    | succ budget =>
      rw [checkDigests]
      split
      · simpa using ih budget
      · simp

/-- One admitted view: its checked prefix grows, and it is complete when that reaches the end. -/
def refreshView (cache : BlockCache K D) (budget : ℕ) (st : StagedView K D) : StagedView K D :=
  let passed := (checkDigests cache (st.delta.drop st.readyPrefix) budget).1
  { st with
    readyPrefix := st.readyPrefix + passed
    complete := st.complete || decide (st.readyPrefix + passed = st.delta.length)
    ready_le := by
      have h := checkDigests_le cache (st.delta.drop st.readyPrefix) budget
      have := st.ready_le
      rw [List.length_drop] at h
      omega
    complete_ready := by
      intro h
      have hle := checkDigests_le cache (st.delta.drop st.readyPrefix) budget
      rw [List.length_drop] at hle
      rcases Bool.or_eq_true _ _ |>.mp h with h | h
      · have := st.complete_ready h
        omega
      · exact of_decide_eq_true h }

/-- The loop of `refresh_budgeted` over the staged views, with what is left of the budget. -/
def refreshLoop (cache : BlockCache K D) : List ℕ → ℕ → Table ℕ (StagedView K D) →
    Table ℕ (StagedView K D) × ℕ
  | [], budget, m => (m, budget)
  | view :: views, budget, m =>
    match m.lookup view with
    | none => refreshLoop cache views budget m
    | some st =>
      if st.complete ∨ !st.admitted then refreshLoop cache views budget m
      else
        let examined := (checkDigests cache (st.delta.drop st.readyPrefix) budget).2
        let m := m.insert view (refreshView cache budget st)
        if examined = budget then (m, 0) else refreshLoop cache views (budget - examined) m

/-- Check at most `budget` digests, and return the number examined. -/
def refreshBudgeted (s : SequenceInstall K D) (cache : BlockCache K D) (budget : ℕ) :
    SequenceInstall K D × ℕ :=
  let x := refreshLoop cache (Table.sortedKeys s.views) budget s.views
  ({ s with views := x.1 }, budget - x.2)

/-- The loop of `admitViews`, with the number of views in flight. -/
def admitLoop : ℕ → ℕ → SequenceInstall K D → SequenceInstall K D × List (BlockRef K D)
  | 0, _, s => (s, [])
  | fuel + 1, inFlight, s =>
    if s.targetView < s.nextAdmit ∨ s.windowViews ≤ inFlight then (s, [])
    else
      match s.views.lookup s.nextAdmit with
      | none => (s, [])
      | some st =>
        if st.complete then admitLoop fuel inFlight { s with nextAdmit := s.nextAdmit + 1 }
        else
          let x := admitLoop fuel (inFlight + 1) { s with
            views := s.views.insert s.nextAdmit { st with admitted := true }
            nextAdmit := s.nextAdmit + 1 }
          (x.1, st.refs ++ x.2)

/-- Admit views in order while the fetch window has capacity. -/
def admitViews (s : SequenceInstall K D) : SequenceInstall K D × List (BlockRef K D) :=
  admitLoop (s.targetView + 1 - s.nextAdmit) s.viewsInFlight s

/-- The next view, once it is complete. -/
def installable (s : SequenceInstall K D) : Option ℕ :=
  if s.targetView < s.nextInstall then none
  else (s.views.lookup s.nextInstall).bind fun st =>
    if st.complete then some s.nextInstall else none

/-- The highest installed block of each lane. -/
def raiseInstalled (cache : BlockCache K D) (m : Table K (Header K D)) (digest : D) :
    Table K (Header K D) :=
  match cache.lookup digest with
  | none => m
  | some entry =>
    if entry.blockOkVerified ∧
        (m.lookup entry.block.author).all fun current =>
          decide (current.height < entry.block.height)
    then m.insert entry.block.author entry.block else m

/-- Remove the view that was installed; a view out of order or not staged is a panic. -/
def markInstalled (s : SequenceInstall K D) (view : ℕ) (cache : BlockCache K D) :
    Option (SequenceInstall K D) :=
  if view ≠ s.nextInstall then none
  else (s.views.lookup view).map fun st =>
    { s with
      views := s.views.erase view
      installedLaneTips := st.delta.foldl (raiseInstalled cache) s.installedLaneTips
      nextInstall := s.nextInstall + 1 }

/-! ### Sequences of calls -/

/-- A view that was installed, or the local view of a rebase that was not rejected. -/
inductive Progress
  | installed (view : ℕ)
  | rebased (view : ℕ)

/-- The view that was reached. -/
def Progress.view : Progress → ℕ
  | .installed view => view
  | .rebased view => view

/-- An installation with a contiguous staging after any calls over a growing cache. -/
inductive Reach (window : ℕ) : SequenceInstall K D → BlockCache K D → List Progress → Prop
  | new (baseView targetView : ℕ) (targetHead : D)
      (staged : List (ℕ × SequenceOutcome K D × List D)) (heads : List (ℕ × D))
      (cache : BlockCache K D)
      (h : (new baseView targetView targetHead staged heads window).isContiguous = true) :
      Reach window (new baseView targetView targetHead staged heads window) cache []
  | grow {s : SequenceInstall K D} {cache cache' : BlockCache K D} {log : List Progress}
      (h : Reach window s cache log)
      (hgrow : ∀ d, deliverable cache d = true → deliverable cache' d = true) :
      Reach window s cache' log
  | admission {s : SequenceInstall K D} {cache : BlockCache K D} {log : List Progress}
      (h : Reach window s cache log) : Reach window s.admitViews.1 cache log
  | refresh {s : SequenceInstall K D} {cache : BlockCache K D} {log : List Progress}
      (h : Reach window s cache log) (budget : ℕ) :
      Reach window (s.refreshBudgeted cache budget).1 cache log
  | rebase {s s' : SequenceInstall K D} {cache : BlockCache K D} {log : List Progress}
      (h : Reach window s cache log) {localView : ℕ} {localHead : D} {outcome : RebaseOutcome D}
      (hr : s.rebase localView localHead = (outcome, s'))
      (hout : outcome = .continues ∨ outcome = .overtaken) :
      Reach window s' cache (log ++ [.rebased localView])
  | install {s s' : SequenceInstall K D} {cache : BlockCache K D} {log : List Progress}
      (h : Reach window s cache log) {view : ℕ} (hv : s.installable = some view)
      (hm : s.markInstalled view cache = some s') :
      Reach window s' cache (log ++ [.installed view])

/-! ### Checking digests -/

variable {s s' : SequenceInstall K D} {cache : BlockCache K D} {window : ℕ} {log : List Progress}

section Refresh

omit [DecidableEq K]

theorem checkDigests_deliverable (cache : BlockCache K D) (digests : List D) (budget : ℕ) :
    ∀ d ∈ digests.take (checkDigests cache digests budget).1, deliverable cache d = true := by
  induction digests generalizing budget with
  | nil => simp
  | cons digest digests ih =>
    cases budget with
    | zero => simp [checkDigests]
    | succ budget =>
      rw [checkDigests]
      split
      · next hd =>
        simp only [List.take_succ_cons, List.mem_cons, forall_eq_or_imp]
        exact ⟨hd, ih budget⟩
      · simp

theorem checkDigests_all (digests : List D) (budget : ℕ)
    (h : ∀ d ∈ digests, deliverable cache d = true) (hb : digests.length ≤ budget) :
    (checkDigests cache digests budget).1 = digests.length := by
  induction digests generalizing budget with
  | nil => rfl
  | cons digest digests ih =>
    obtain ⟨hd, hrest⟩ := List.forall_mem_cons.mp h
    cases budget with
    | zero => simp at hb
    | succ budget =>
      rw [checkDigests, if_pos hd]
      simp [ih budget hrest (Nat.le_of_succ_le_succ hb)]

/-- The checked digests of a view are deliverable. -/
def Checked (cache : BlockCache K D) (st : StagedView K D) : Prop :=
  ∀ d ∈ st.delta.take st.readyPrefix, deliverable cache d = true

/-- What checking keeps of a view. -/
structure Refreshed (cache : BlockCache K D) (st st' : StagedView K D) : Prop where
  delta : st'.delta = st.delta
  admitted : st'.admitted = st.admitted
  inFlight : st'.inFlight = true → st.inFlight = true
  checked : Checked cache st → Checked cache st'
  complete : st.complete = true → st'.complete = true

theorem refreshView_refreshed (budget : ℕ) (st : StagedView K D) :
    Refreshed cache st (refreshView cache budget st) where
  delta := rfl
  admitted := rfl
  inFlight h := by
    simp only [StagedView.inFlight, refreshView, Bool.and_eq_true, Bool.not_eq_eq_eq_not,
      Bool.not_true, Bool.or_eq_false_iff] at h ⊢
    exact ⟨h.1, h.2.1⟩
  checked h := by
    have hpassed := checkDigests_deliverable cache (st.delta.drop st.readyPrefix) budget
    intro d hd
    rw [refreshView] at hd
    simp only [List.take_add, List.mem_append] at hd
    exact hd.elim (h d) (hpassed d)
  complete h := by simp [refreshView, h]

theorem refreshLoop_lookup (cache : BlockCache K D) (views : List ℕ) (budget : ℕ)
    (m : Table ℕ (StagedView K D)) (v : ℕ) :
    Option.Rel (Refreshed cache) (m.lookup v) ((refreshLoop cache views budget m).1.lookup v) := by
  have hrefl : ∀ o : Option (StagedView K D), Option.Rel (Refreshed cache) o o := by
    rintro (_ | st)
    · exact .none
    · exact .some ⟨rfl, rfl, id, id, id⟩
  have htrans : ∀ {a b c : Option (StagedView K D)}, Option.Rel (Refreshed cache) a b →
      Option.Rel (Refreshed cache) b c → Option.Rel (Refreshed cache) a c := by
    rintro _ _ _ (h | _) (h' | _)
    · exact .some ⟨h'.delta.trans h.delta, h'.admitted.trans h.admitted, h.inFlight ∘ h'.inFlight,
        h'.checked ∘ h.checked, h'.complete ∘ h.complete⟩
    · exact .none
  induction views generalizing budget m with
  | nil => exact hrefl _
  | cons view views ih =>
    rw [refreshLoop]
    split
    · exact ih budget m
    · next st hst =>
      split
      · exact ih budget m
      · -- the view is replaced by its checked form
        have hins : Option.Rel (Refreshed cache) (m.lookup v)
            ((m.insert view (refreshView cache budget st)).lookup v) := by
          by_cases hv : v = view
          · subst hv
            rw [hst, AList.lookup_insert]
            exact .some (refreshView_refreshed budget st)
          · rw [AList.lookup_insert_ne hv]
            exact hrefl _
        simp only
        split
        · exact hins
        · exact htrans hins (ih _ _)

theorem refreshLoop_completes (views : List ℕ) {budget view : ℕ} {m : Table ℕ (StagedView K D)}
    {st : StagedView K D} (hst : m.lookup view = some st)
    (hready : st.admitted = true ∨ st.complete = true)
    (hall : ∀ d ∈ st.delta, deliverable cache d = true)
    (hb : st.delta.length - st.readyPrefix ≤ budget) :
    ∃ st', (refreshLoop cache (view :: views) budget m).1.lookup view = some st' ∧
      st'.complete = true := by
  have hkeep : ∀ (m' : Table ℕ (StagedView K D)) (budget' : ℕ) (st' : StagedView K D),
      m'.lookup view = some st' → st'.complete = true →
        ∃ st'', (refreshLoop cache views budget' m').1.lookup view = some st'' ∧
          st''.complete = true := by
    intro m' budget' st' hst' hc
    have hrel := refreshLoop_lookup cache views budget' m' view
    rw [hst'] at hrel
    generalize (refreshLoop cache views budget' m').1.lookup view = o at hrel
    cases hrel with
    | some h => exact ⟨_, rfl, h.complete hc⟩
  rw [refreshLoop, hst]
  simp only
  split
  · next hskip =>
    refine hkeep m budget st hst ?_
    rcases hready with ha | hc
    · simpa [ha] using hskip
    · exact hc
  · have hcomplete : (refreshView cache budget st).complete = true := by
      have hpassed := checkDigests_all (st.delta.drop st.readyPrefix) budget
        (fun d hd => hall d (List.mem_of_mem_drop hd)) (by simpa using hb)
      have := st.ready_le
      simp only [refreshView, Bool.or_eq_true, decide_eq_true_eq, hpassed, List.length_drop]
      right
      omega
    split
    · exact ⟨_, AList.lookup_insert _, hcomplete⟩
    · exact hkeep _ _ _ (AList.lookup_insert _) hcomplete

end Refresh

/-! ### What a sequence of calls keeps -/

/-- The staged views are those from the next one to install up to the target, their checked digests
are deliverable, the window holds, and everything in the log lies below the next view. -/
structure Staged (window : ℕ) (s : SequenceInstall K D) (cache : BlockCache K D)
    (log : List Progress) : Prop where
  window_eq : s.windowViews = max window 1
  keys : ∀ v, (s.views.lookup v).isSome = true ↔ s.nextInstall ≤ v ∧ v ≤ s.targetView
  checked : ∀ v st, s.views.lookup v = some st → Checked cache st
  inFlight : s.viewsInFlight ≤ s.windowViews
  heads : ∀ v d, s.heads.lookup v = some d → v ≤ s.targetView
  past : ∀ p ∈ log, p.view < s.nextInstall ∨ s.targetView < s.nextInstall
  order : log.Pairwise fun p q => ∀ view, q = .installed view → p.view < view

theorem staged_new {baseView targetView : ℕ} {targetHead : D}
    {staged : List (ℕ × SequenceOutcome K D × List D)} {heads : List (ℕ × D)}
    (h : (new baseView targetView targetHead staged heads window).isContiguous = true) :
    Staged window (new baseView targetView targetHead staged heads window) cache [] := by
  have hviews : ∀ v st,
      (new baseView targetView targetHead staged heads window).views.lookup v = some st →
        (baseView < v ∧ v ≤ targetView) ∧ st.readyPrefix = 0 ∧ st.admitted = false := by
    intro v st hst
    obtain hempty | ⟨e, he, rfl, rfl⟩ := Table.lookup_foldl_insert_cases hst
    · simp at hempty
    · exact ⟨by simpa using (List.mem_filter.mp he).2, rfl, rfl⟩
  refine ⟨rfl, fun v => ⟨fun hv => ?_, fun hv => ?_⟩, fun v st hst => ?_, ?_, fun v d hd => ?_,
    by simp, .nil⟩
  · obtain ⟨st, hst⟩ := Option.isSome_iff_exists.mp hv
    exact (hviews v st hst).1
  · rw [isContiguous, List.all_eq_true] at h
    refine h v (List.mem_range'_1.mpr ?_)
    simp only [new] at hv ⊢
    omega
  · rw [Checked, (hviews v st hst).2.1]
    simp
  · have hzero : viewsInFlight (new baseView targetView targetHead staged heads window) = 0 :=
      Table.count_eq_zero fun v st hst => by simp [StagedView.inFlight, (hviews v st hst).2.2]
    exact hzero.le.trans (Nat.zero_le _)
  · obtain hempty | ⟨e, he, rfl, -⟩ := Table.lookup_foldl_insert_cases hd
    · simp at hempty
    · exact of_decide_eq_true (Bool.and_eq_true _ _ |>.mp (List.mem_filter.mp he).2).2

omit [DecidableEq K] in
/-- A view after a refresh is one from before it that was checked. -/
theorem refreshed_of_lookup {budget v : ℕ} {st' : StagedView K D}
    (hst' : (s.refreshBudgeted cache budget).1.views.lookup v = some st') :
    ∃ st, s.views.lookup v = some st ∧ Refreshed cache st st' := by
  have hrel := refreshLoop_lookup cache (Table.sortedKeys s.views) budget s.views v
  simp only [refreshBudgeted] at hst'
  rw [hst'] at hrel
  generalize s.views.lookup v = o at hrel
  cases hrel with
  | some h => exact ⟨_, rfl, h⟩

omit [DecidableEq K] in
theorem Staged.refresh (h : Staged window s cache log) (budget : ℕ) :
    Staged window (s.refreshBudgeted cache budget).1 cache log := by
  have hrel := refreshLoop_lookup cache (Table.sortedKeys s.views) budget s.views
  refine ⟨h.window_eq, fun v => ?_, fun v st' hst' => ?_, ?_, h.heads, h.past, h.order⟩
  · rw [show (s.refreshBudgeted cache budget).1.nextInstall = s.nextInstall from rfl,
      show (s.refreshBudgeted cache budget).1.targetView = s.targetView from rfl, ← h.keys v]
    have := hrel v
    simp only [refreshBudgeted]
    generalize s.views.lookup v = o, (refreshLoop cache _ budget s.views).1.lookup v = o' at this
    cases this <;> rfl
  · obtain ⟨st, hst, href⟩ := refreshed_of_lookup hst'
    exact href.checked (h.checked v st hst)
  · refine le_trans (Table.count_le_count fun v st' hst' hf => ?_) h.inFlight
    obtain ⟨st, hst, href⟩ := refreshed_of_lookup hst'
    exact ⟨st, hst, href.inFlight hf⟩

omit [DecidableEq K] in
theorem Staged.admitLoop (h : Staged window s cache log) (fuel inFlight : ℕ)
    (hf : s.viewsInFlight ≤ inFlight) : Staged window (admitLoop fuel inFlight s).1 cache log := by
  induction fuel generalizing s inFlight with
  | zero => exact h
  | succ fuel ih =>
    rw [SequenceInstall.admitLoop]
    split
    · exact h
    · next hroom =>
      split
      · exact h
      · next st hst =>
        split
        · have h' : Staged window { s with nextAdmit := s.nextAdmit + 1 } cache log := { h with }
          exact ih h' inFlight hf
        · -- one more view is in flight, and the window had room for it
          have hcount := Table.count_insert_add StagedView.inFlight s.views s.nextAdmit
            { st with admitted := true }
          have hone := Bool.toNat_le (StagedView.inFlight { st with admitted := true })
          have hmore : viewsInFlight { s with
              views := s.views.insert s.nextAdmit { st with admitted := true }
              nextAdmit := s.nextAdmit + 1 } ≤ s.viewsInFlight + 1 := by
            simp only [viewsInFlight]
            omega
          have h' : Staged window { s with
              views := s.views.insert s.nextAdmit { st with admitted := true }
              nextAdmit := s.nextAdmit + 1 } cache log := by
            refine ⟨h.window_eq, fun v => ?_, fun v st' hst' => ?_, ?_, h.heads, h.past, h.order⟩
            · rw [← h.keys v]
              by_cases hv : v = s.nextAdmit
              · subst hv
                simp [hst]
              · simp [AList.lookup_insert_ne hv]
            · rcases Table.lookup_insert_cases hst' with ⟨rfl, rfl⟩ | hold
              · exact h.checked _ st hst
              · exact h.checked v st' hold
            · exact hmore.trans (hf.trans_lt (Nat.not_le.mp (not_or.mp hroom).2))
          exact ih h' (inFlight + 1) (hmore.trans (Nat.add_le_add_right hf 1))

omit [DecidableEq K] in
theorem Staged.remove (h : Staged window s cache log)
    {tips : Table K (Header K D)} {nextAdmit : ℕ} :
    Staged window { s with
      views := s.views.erase s.nextInstall
      installedLaneTips := tips
      nextAdmit := nextAdmit
      nextInstall := s.nextInstall + 1 } cache log := by
  refine ⟨h.window_eq, fun v => ?_, fun v st hst =>
    h.checked v st (Table.lookup_erase_some hst).2, ?_,
    h.heads, fun p hp => ?_, h.order⟩
  · have hkeys := h.keys v
    by_cases hv : v = s.nextInstall
    · subst hv
      simp
    · simp only [AList.lookup_erase_ne hv, hkeys]
      omega
  · exact le_trans (Table.count_le_count fun v st hst hf =>
      ⟨st, (Table.lookup_erase_some hst).2, hf⟩) h.inFlight
  · have := h.past p hp
    simp only
    omega

omit [DecidableEq K] in
theorem Staged.removeThrough (h : Staged window s cache log) (localView fuel : ℕ)
    (hfuel : s.targetView + 1 - s.nextInstall ≤ fuel) :
    Staged window (removeThrough localView fuel s) cache log ∧
      (localView < (removeThrough localView fuel s).nextInstall ∨
        (removeThrough localView fuel s).targetView <
          (removeThrough localView fuel s).nextInstall) := by
  induction fuel generalizing s with
  | zero =>
    refine ⟨h, .inr ?_⟩
    simp only [SequenceInstall.removeThrough]
    omega
  | succ fuel ih =>
    rw [SequenceInstall.removeThrough]
    split
    · next hin => exact ih h.remove (by simp only; omega)
    · refine ⟨h, ?_⟩
      omega

omit [DecidableEq K] in
theorem Staged.append (h : Staged window s cache log) {p : Progress}
    (hpast : p.view < s.nextInstall ∨ s.targetView < s.nextInstall)
    (horder : ∀ q ∈ log, ∀ view, p = .installed view → q.view < view) :
    Staged window s cache (log ++ [p]) :=
  { h with
    past := fun q hq => by
      rcases List.mem_append.mp hq with hq | hq
      · exact h.past q hq
      · rwa [List.mem_singleton.mp hq]
    order := List.pairwise_append.mpr ⟨h.order, List.pairwise_singleton _ _, fun q hq r hr => by
      rw [List.mem_singleton.mp hr]
      exact horder q hq⟩ }

omit [DecidableEq K] [DecidableEq D] in
theorem installable_eq_some {view : ℕ} (hv : s.installable = some view) :
    view = s.nextInstall ∧ s.nextInstall ≤ s.targetView ∧
      ∃ st, s.views.lookup view = some st ∧ st.complete = true := by
  unfold installable at hv
  split at hv
  · cases hv
  · next hle =>
    obtain ⟨st, hst, hc⟩ := Option.bind_eq_some_iff.mp hv
    split at hc
    · next hcomplete =>
      cases hc
      exact ⟨rfl, Nat.not_lt.mp hle, st, hst, hcomplete⟩
    · cases hc

theorem Reach.staged (h : Reach window s cache log) : Staged window s cache log := by
  induction h with
  | new baseView targetView targetHead staged heads cache h => exact staged_new h
  | grow h hgrow ih =>
    exact { ih with checked := fun v st hst d hd => hgrow d (ih.checked v st hst d hd) }
  | admission h ih => exact ih.admitLoop _ _ le_rfl
  | refresh h budget ih => exact ih.refresh budget
  | @rebase s s' cache log h localView localHead outcome hr hout ih =>
    obtain ⟨hstaged, hpast⟩ := ih.removeThrough localView _ le_rfl
    unfold SequenceInstall.rebase at hr
    split at hr
    · cases hr
      rcases hout with hout | hout <;> cases hout
    · cases hr
      refine Staged.append (p := .rebased localView) ?_ hpast fun q _ view hq => by cases hq
      exact { hstaged with }
  | @install s s' cache log h view hv hm ih =>
    obtain ⟨rfl, hle, st, hst, -⟩ := installable_eq_some hv
    rw [markInstalled, if_neg (not_not.mpr rfl), hst, Option.map_some, Option.some.injEq] at hm
    subst hm
    refine ih.remove.append (.inl (Nat.lt_succ_self _)) fun q hq view hview => ?_
    cases hview
    exact (ih.past q hq).resolve_right (Nat.not_lt.mpr hle)

/-! ### Admission -/

/-- What `admitViews` has passed is admitted or complete, and nothing else is admitted. -/
structure Admission (s : SequenceInstall K D) : Prop where
  before : ∀ v st, s.views.lookup v = some st → v < s.nextAdmit →
    st.admitted = true ∨ st.complete = true
  after : ∀ v st, s.views.lookup v = some st → s.nextAdmit ≤ v → st.admitted = false

/-- The next view to install is there, and refreshes look at it. -/
def NextReady (s : SequenceInstall K D) : Prop :=
  ∃ st, s.views.lookup s.nextInstall = some st ∧ (st.admitted = true ∨ st.complete = true)

omit [DecidableEq D] in
theorem admission_new (baseView targetView : ℕ) (targetHead : D)
    (staged : List (ℕ × SequenceOutcome K D × List D)) (heads : List (ℕ × D)) :
    Admission (new baseView targetView targetHead staged heads window) := by
  have hviews : ∀ v st,
      (new baseView targetView targetHead staged heads window).views.lookup v = some st →
        baseView < v ∧ st.admitted = false := by
    intro v st hst
    obtain hempty | ⟨e, he, rfl, rfl⟩ := Table.lookup_foldl_insert_cases hst
    · simp at hempty
    · exact ⟨(by simpa using (List.mem_filter.mp he).2 : _ ∧ _).1, rfl⟩
  exact ⟨fun v st hst hv => absurd (hviews v st hst).1 (Nat.not_lt.mpr (Nat.le_of_lt_succ hv)),
    fun v st hst _ => (hviews v st hst).2⟩

omit [DecidableEq K] in
theorem Admission.refresh (h : Admission s) (budget : ℕ) :
    Admission (s.refreshBudgeted cache budget).1 := by
  constructor
  · intro v st' hst' hv
    obtain ⟨st, hst, href⟩ := refreshed_of_lookup hst'
    exact (h.before v st hst hv).imp (href.admitted.trans ·) href.complete
  · intro v st' hst' hv
    obtain ⟨st, hst, href⟩ := refreshed_of_lookup hst'
    exact href.admitted.trans (h.after v st hst hv)

omit [DecidableEq K] [DecidableEq D] in
/-- Views that are removed are not asked about. -/
theorem Admission.of_views (h : Admission s) (hadmitted : s'.nextAdmit = s.nextAdmit)
    (hviews : ∀ v st, s'.views.lookup v = some st → s.views.lookup v = some st) :
    Admission s' :=
  ⟨fun v st hst hv => h.before v st (hviews v st hst) (hadmitted ▸ hv),
    fun v st hst hv => h.after v st (hviews v st hst) (hadmitted ▸ hv)⟩

omit [DecidableEq K] [DecidableEq D] in
/-- A view is passed once it is admitted or complete. -/
theorem Admission.pass (h : Admission s) {views : Table ℕ (StagedView K D)}
    (hnow : ∀ st, views.lookup s.nextAdmit = some st → st.admitted = true ∨ st.complete = true)
    (hother : ∀ v, v ≠ s.nextAdmit → views.lookup v = s.views.lookup v) :
    Admission { s with views := views, nextAdmit := s.nextAdmit + 1 } := by
  constructor <;> intro v st hst hv <;> simp only at hst hv
  · by_cases heq : v = s.nextAdmit
    · exact hnow st (heq ▸ hst)
    · exact h.before v st (hother v heq ▸ hst) (by omega)
  · exact h.after v st (hother v (by omega) ▸ hst) (by omega)

omit [DecidableEq K] [DecidableEq D] in
/-- The loop passes views only forward. -/
theorem le_nextAdmit_admitLoop (fuel inFlight : ℕ) {v : ℕ} (hv : v ≤ s.nextAdmit) :
    v ≤ (admitLoop fuel inFlight s).1.nextAdmit := by
  induction fuel generalizing s inFlight with
  | zero => exact hv
  | succ fuel ih =>
    rw [admitLoop]
    split
    · exact hv
    split
    · exact hv
    split
    · exact ih _ (hv.trans (Nat.le_succ _))
    · exact ih _ (hv.trans (Nat.le_succ _))

omit [DecidableEq K] [DecidableEq D] in
theorem range_admitLoop (fuel inFlight : ℕ) :
    (admitLoop fuel inFlight s).1.nextInstall = s.nextInstall ∧
      (admitLoop fuel inFlight s).1.targetView = s.targetView := by
  induction fuel generalizing s inFlight with
  | zero => exact ⟨rfl, rfl⟩
  | succ fuel ih =>
    rw [admitLoop]
    split
    · exact ⟨rfl, rfl⟩
    split
    · exact ⟨rfl, rfl⟩
    split
    · exact ih _
    · exact ih _

omit [DecidableEq K] [DecidableEq D] in
theorem Admission.admitLoop (h : Admission s) (fuel inFlight : ℕ) :
    Admission (admitLoop fuel inFlight s).1 := by
  induction fuel generalizing s inFlight with
  | zero => exact h
  | succ fuel ih =>
    rw [SequenceInstall.admitLoop]
    split
    · exact h
    split
    · exact h
    next st hst =>
    split
    · next hc =>
      exact ih (h.pass (fun st' hst' => .inr (Option.some.inj (hst.symm.trans hst') ▸ hc))
        fun _ _ => rfl) inFlight
    · refine ih (h.pass (fun st' hst' => .inl ?_) fun v hv => AList.lookup_insert_ne hv) _
      exact Option.some.inj ((AList.lookup_insert _).symm.trans hst') ▸ rfl

omit [DecidableEq K] [DecidableEq D] in
theorem removeThrough_lookup (localView fuel v : ℕ) {st : StagedView K D}
    (hst : (removeThrough localView fuel s).views.lookup v = some st) :
    s.views.lookup v = some st := by
  induction fuel generalizing s with
  | zero => exact hst
  | succ fuel ih =>
    rw [removeThrough] at hst
    split at hst
    · exact (Table.lookup_erase_some (ih hst)).2
    · exact hst

omit [DecidableEq K] [DecidableEq D] in
theorem removeThrough_nextAdmit (localView fuel : ℕ) :
    (removeThrough localView fuel s).nextAdmit = s.nextAdmit := by
  induction fuel generalizing s with
  | zero => rfl
  | succ fuel ih =>
    rw [removeThrough]
    split
    · exact ih
    · rfl

theorem Reach.admission_kept (h : Reach window s cache log) : Admission s := by
  induction h with
  | new baseView targetView targetHead staged heads cache h =>
    exact admission_new baseView targetView targetHead staged heads
  | grow h hgrow ih => exact ih
  | admission h ih => exact ih.admitLoop _ _
  | refresh h budget ih => exact ih.refresh budget
  | @rebase s s' cache log h localView localHead outcome hr hout ih =>
    obtain ⟨hstaged, -⟩ := h.staged.removeThrough localView _ le_rfl
    have hkept : Admission (removeThrough localView (s.targetView + 1 - s.nextInstall) s) :=
      ih.of_views (removeThrough_nextAdmit _ _) fun v st => removeThrough_lookup _ _ v
    unfold SequenceInstall.rebase at hr
    split at hr
    · cases hr
      rcases hout with hout | hout <;> cases hout
    · cases hr
      refine ⟨fun v st hst hv => ?_, fun v st hst hv => ?_⟩
      · have hle := ((hstaged.keys v).mp (Option.isSome_of_eq_some hst)).1
        exact hkept.before v st hst ((lt_max_iff.mp hv).resolve_right (Nat.not_lt.mpr hle))
      · exact hkept.after v st hst ((le_max_left _ _).trans hv)
  | @install s s' cache log h view hv hm ih =>
    obtain ⟨rfl, -, st, hst, -⟩ := installable_eq_some hv
    rw [markInstalled, if_neg (not_not.mpr rfl), hst, Option.map_some, Option.some.injEq] at hm
    subst hm
    exact ih.of_views rfl fun v st' hst' => (Table.lookup_erase_some hst').2

omit [DecidableEq K] in
/-- Unless admission lies behind installation, it passes the next view to install: if it stands
there, nothing is in flight. -/
theorem nextInstall_lt_nextAdmit (h : Staged window s cache log) (ha : Admission s)
    (hle : s.nextInstall ≤ s.targetView) (hadmitted : s.nextInstall ≤ s.nextAdmit) :
    s.nextInstall + 1 ≤ s.admitViews.1.nextAdmit := by
  rcases hadmitted.lt_or_eq with hlt | heq
  · exact le_nextAdmit_admitLoop _ _ hlt
  have hzero : s.viewsInFlight = 0 := by
    refine Table.count_eq_zero fun v st hst => ?_
    have hv := ((h.keys v).mp (Option.isSome_of_eq_some hst)).1
    rw [StagedView.inFlight, ha.after v st hst (heq ▸ hv), Bool.false_and]
  have hroom : ¬ (s.targetView < s.nextAdmit ∨ s.windowViews ≤ s.viewsInFlight) := by
    have := h.window_eq
    omega
  obtain ⟨st, hst⟩ := Option.isSome_iff_exists.mp
    ((h.keys s.nextAdmit).mpr ⟨heq.le, heq ▸ hle⟩)
  obtain ⟨fuel, hfuel⟩ : ∃ fuel, s.targetView + 1 - s.nextAdmit = fuel + 1 :=
    Nat.exists_eq_add_one.mpr (by omega)
  rw [admitViews, hfuel, admitLoop, if_neg hroom, hst, heq]
  dsimp only
  split
  · exact le_nextAdmit_admitLoop fuel _ le_rfl
  · exact le_nextAdmit_admitLoop fuel _ le_rfl

omit [DecidableEq K] in
/-- `admitViews` readies the next view to install exactly if admission does not lie behind
installation. -/
theorem nextReady_admitViews (h : Staged window s cache log) (ha : Admission s)
    (hle : s.nextInstall ≤ s.targetView) :
    NextReady s.admitViews.1 ↔ s.nextInstall ≤ s.nextAdmit ∨ NextReady s := by
  by_cases hadmitted : s.nextInstall ≤ s.nextAdmit
  · refine iff_of_true ?_ (.inl hadmitted)
    obtain ⟨hnext, htarget⟩ : s.admitViews.1.nextInstall = s.nextInstall ∧
      s.admitViews.1.targetView = s.targetView := range_admitLoop _ _
    have hstaged : Staged window s.admitViews.1 cache log := h.admitLoop _ _ le_rfl
    have hlt := nextInstall_lt_nextAdmit h ha hle hadmitted
    obtain ⟨st, hst⟩ := Option.isSome_iff_exists.mp
      ((hstaged.keys s.nextInstall).mpr ⟨hnext.le, htarget ▸ hle⟩)
    exact ⟨st, hnext ▸ hst, (ha.admitLoop _ _).before _ st hst hlt⟩
  · -- admission stops at a view that is gone
    have hgone : s.views.lookup s.nextAdmit = none := by
      rw [← Option.isNone_iff_eq_none, ← Option.not_isSome, Bool.not_eq_true', ← Bool.not_eq_true,
        h.keys]
      omega
    have hstay : s.admitViews.1 = s := by
      unfold admitViews
      cases s.targetView + 1 - s.nextAdmit with
      | zero => rfl
      | succ fuel =>
        rw [admitLoop, hgone]
        split <;> rfl
    rw [hstay, or_iff_right hadmitted]

omit [DecidableEq K] in
/-- Rebasing diverges exactly on another head of a remaining view. -/
theorem rebase_diverged {localView : ℕ} {localHead : D}
    {outcome : RebaseOutcome D} (hr : (s.rebase localView localHead).1 = outcome) :
    (∃ view expected found, outcome = .diverged view expected found) ↔
      s.nextInstall ≤ localView ∧
        ∃ expected, s.heads.lookup localView = some expected ∧ expected ≠ localHead := by
  subst hr
  unfold rebase
  split
  · next expected hfilter =>
    refine iff_of_true ⟨_, _, _, rfl⟩ ?_
    split at hfilter
    · next hle =>
      obtain ⟨hlook, hne⟩ := Option.filter_eq_some_iff.mp hfilter
      exact ⟨hle, expected, hlook, of_decide_eq_true hne⟩
    · cases hfilter
  · next hfilter =>
    refine iff_of_false (by rintro ⟨_, _, _, h⟩; simp only at h; split at h <;> cases h) ?_
    rintro ⟨hle, expected, hlook, hne⟩
    rw [if_pos hle, hlook] at hfilter
    simp [hne] at hfilter

omit [DecidableEq K] in
theorem Staged.progress (h : Staged window s cache log) {st : StagedView K D} {budget : ℕ}
    (hst : s.views.lookup s.nextInstall = some st)
    (hready : st.admitted = true ∨ st.complete = true)
    (hall : ∀ d ∈ st.delta, deliverable cache d = true)
    (hb : st.delta.length - st.readyPrefix ≤ budget) :
    (s.refreshBudgeted cache budget).1.installable = some s.nextInstall := by
  have hle : s.nextInstall ≤ s.targetView :=
    ((h.keys s.nextInstall).mp (Option.isSome_of_eq_some hst)).2
  -- the next view is the first one of the loop
  have hsorted : Table.sortedKeys s.views =
      s.nextInstall :: List.range' (s.nextInstall + 1) (s.targetView - s.nextInstall) := by
    rw [← List.range'_succ, ← Nat.sub_add_comm hle]
    refine Table.sortedKeys_eq (List.sortedLT_range' _ _ Nat.one_ne_zero) fun v => ?_
    rw [← AList.lookup_isSome, h.keys, List.mem_range'_1]
    omega
  obtain ⟨st', hst', hc⟩ := refreshLoop_completes
    (List.range' (s.nextInstall + 1) (s.targetView - s.nextInstall)) hst hready hall hb
  rw [installable, if_neg (by simpa [refreshBudgeted] using hle)]
  simp only [refreshBudgeted, hsorted, hst', Option.bind_some, hc, if_true]

omit [DecidableEq K] in
/-- After a rebase that goes on, admission does not lie behind installation. -/
theorem rebase_continues {localView : ℕ} {localHead : D}
    (hr : (s.rebase localView localHead).1 = .continues) :
    (s.rebase localView localHead).2.nextInstall ≤ (s.rebase localView localHead).2.targetView ∧
      (s.rebase localView localHead).2.nextInstall ≤
        (s.rebase localView localHead).2.nextAdmit := by
  unfold rebase at hr ⊢
  split at hr
  · cases hr
  · dsimp only at hr ⊢
    split at hr
    · cases hr
    · next hle => exact ⟨Nat.not_lt.mp hle, le_max_right _ _⟩

/-- Views are installed in increasing order, each at most once and none at or below the local view
of a rebase; at most a window of views is in flight; an installable view has all its digests cached
and validated, and marking it does not panic; rebasing diverges exactly on another head of a view
that remains; once the digests of the next view are deliverable, a refresh with enough budget makes
it installable if it was admitted; and the next call of `admitViews` admits it, unless installation
has overtaken admission, which a rebase makes up for. -/
theorem install_laws (h : Reach window s cache log) :
    (log.Pairwise fun p q => ∀ view, q = .installed view → p.view < view) ∧
    s.viewsInFlight ≤ max window 1 ∧
    (∀ view, s.installable = some view → (s.markInstalled view cache).isSome = true ∧
      ∃ st, s.views.lookup view = some st ∧ ∀ d ∈ st.delta, deliverable cache d = true) ∧
    (∀ localView localHead,
      (∃ view expected found,
        (s.rebase localView localHead).1 = .diverged view expected found) ↔
      (s.nextInstall ≤ localView ∧ localView ≤ s.targetView) ∧
        ∃ expected, s.heads.lookup localView = some expected ∧ expected ≠ localHead) ∧
    (∀ st budget, s.views.lookup s.nextInstall = some st →
      st.admitted = true ∨ st.complete = true → (∀ d ∈ st.delta, deliverable cache d = true) →
      st.delta.length - st.readyPrefix ≤ budget →
        (s.refreshBudgeted cache budget).1.installable = some s.nextInstall) ∧
    (s.nextInstall ≤ s.targetView →
      (NextReady s.admitViews.1 ↔ s.nextInstall ≤ s.nextAdmit ∨ NextReady s)) ∧
    (∀ localView localHead, (s.rebase localView localHead).1 = .continues →
      NextReady (s.rebase localView localHead).2.admitViews.1) := by
  have hs := h.staged
  refine ⟨hs.order, hs.window_eq ▸ hs.inFlight, fun view hv => ?_, fun localView localHead => ?_,
    fun st budget hst hready hall hb => hs.progress hst hready hall hb,
    nextReady_admitViews hs h.admission_kept, fun localView localHead hr => ?_⟩
  · obtain ⟨rfl, -, st, hst, hc⟩ := installable_eq_some hv
    refine ⟨by simp [markInstalled, hst], st, hst, fun d hd => hs.checked _ st hst d ?_⟩
    rwa [st.complete_ready hc, List.take_length]
  · rw [rebase_diverged rfl]
    constructor
    · rintro ⟨hle, expected, hlook, hne⟩
      exact ⟨⟨hle, hs.heads _ _ hlook⟩, expected, hlook, hne⟩
    · rintro ⟨⟨hle, -⟩, hhead⟩
      exact ⟨hle, hhead⟩
  · have hrebased := h.rebase (Prod.ext hr rfl) (.inl rfl)
    obtain ⟨hle, hadmitted⟩ := rebase_continues hr
    exact (nextReady_admitViews hrebased.staged hrebased.admission_kept hle).mpr (.inl hadmitted)

/-- Two staged views, the second one empty, and a window of none. -/
def sample : SequenceInstall ℕ ℕ :=
  new 0 2 9 [(1, .core [], [5]), (2, .skip, [])] [(1, 8), (2, 9)] 0

/-- The only digest of the first view is cached. -/
def sampleCache : BlockCache ℕ ℕ := AList.insert 5 ⟨⟨5, 1, 1, 0, []⟩, true, true⟩ ∅

theorem install_laws_sample :
    sample.admitViews.1.viewsInFlight ≤ max 0 1 ∧
      (sample.admitViews.1.refreshBudgeted sampleCache 1).1.installable = some 1 := by
  have hreach : Reach 0 sample.admitViews.1 sampleCache [] :=
    .admission (.new 0 2 9 [(1, .core [], [5]), (2, .skip, [])] [(1, 8), (2, 9)] sampleCache
      (by decide +kernel))
  obtain ⟨-, hwindow, -, -, hprogress, -⟩ := install_laws hreach
  have hst : ∃ st, sample.admitViews.1.views.lookup 1 = some st ∧ st.admitted = true ∧
      st.delta = [5] := by
    refine ⟨_, rfl, ?_, ?_⟩ <;> decide +kernel
  obtain ⟨st, hlook, hadm, hdelta⟩ := hst
  have hone : sample.admitViews.1.nextInstall = 1 := by decide +kernel
  rw [hone] at hprogress
  refine ⟨hwindow, hprogress st 1 hlook (.inl hadm) ?_ ?_⟩
  · rw [hdelta]
    decide +kernel
  · rw [hdelta]
    exact Nat.sub_le 1 _

/-- A window of no views admits one, and a view that was not admitted is not installable although
its digests are deliverable. -/
theorem window_zero_and_unadmitted :
    sample.admitViews.1.viewsInFlight = 1 ∧ deliverable sampleCache 5 = true ∧
      (sample.refreshBudgeted sampleCache 1).1.installable = none := by
  decide +kernel

end SequenceInstall

end Vantage
