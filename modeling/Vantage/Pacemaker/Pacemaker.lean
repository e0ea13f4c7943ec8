import Mathlib.Order.Nat
import Vantage.Basic
import Vantage.Lib.Handler
import Vantage.Lib.OrderStat

/-!
# The pacemaker

`Pacemaker` keeps the largest wish heard from every author, the own watermark, the entry target
and the largest view entered.  A wish that `f + 1` authors have reached is adopted; a view that
`n - f` authors have reached is entered.

* `Pacemaker.Change`, `Pacemaker.handle_change`: what one call does to the wishes.
-/

namespace Vantage

/-- What the pacemaker does. -/
inductive PacemakerEffect
  | broadcastWish (view : ℕ)
  | enter (view : ℕ)
  deriving DecidableEq

/-- The watermarks of the members and the views entered. -/
structure Pacemaker (K : Type) where
  omega : K → ℕ := fun _ => 0
  ownWatermark : ℕ := 0
  entryTarget : ℕ := 0
  largestEnteredView : ℕ := 0

/-- What reaches the pacemaker. -/
inductive PacemakerInput (K : Type)
  | genesis
  | wish (sender : K) (x : ℕ)
  | raise (x : ℕ)
  | fastForward (nextLive : ℕ)

namespace Pacemaker

variable {K : Type} [LinearOrder K] (name : K) (c : Committee K)

def kthLargest (k : ℕ) (p : Pacemaker K) : ℕ :=
  OrderStat.kthLargest (c.sorted.map p.omega) k

def omegaPlus (p : Pacemaker K) : ℕ :=
  kthLargest c (Thresholds.fromPartyCount c.size).fPlus1Parties p

def omegaQ (p : Pacemaker K) : ℕ :=
  kthLargest c (Thresholds.fromPartyCount c.size).nMinusFParties p

def setOwn (x : ℕ) (p : Pacemaker K) : Pacemaker K :=
  { p with omega := Function.update p.omega name x, ownWatermark := x }

/-- The loop of `advanceEntryTarget`: enter the next views, one after another. -/
def enterMissing : ℕ → Handler (Pacemaker K) PacemakerEffect
  | 0 => .skip
  | n + 1 => fun p =>
    (enterMissing n).after
      ({ p with largestEnteredView := p.largestEnteredView + 1 },
        [.enter (p.largestEnteredView + 1)])

def advanceEntryTarget (target : ℕ) : Handler (Pacemaker K) PacemakerEffect := fun p =>
  if p.entryTarget < target then
    enterMissing (target - p.largestEnteredView) { p with entryTarget := target }
  else (p, [])

def raiseOwnWish (x : ℕ) : Handler (Pacemaker K) PacemakerEffect := fun p =>
  if x ≤ p.ownWatermark then (p, [])
  else advanceEntryTarget (omegaQ c (setOwn name x p)) (setOwn name x p)

def genesis : Handler (Pacemaker K) PacemakerEffect := fun p =>
  (raiseOwnWish name c 2).after ({ p with largestEnteredView := 1 }, [.broadcastWish 2])

def recordWish (sender : K) (x : ℕ) (p : Pacemaker K) : Pacemaker K :=
  if p.omega sender < x then { p with omega := Function.update p.omega sender x } else p

def amplify : Handler (Pacemaker K) PacemakerEffect := fun p =>
  if p.ownWatermark < omegaPlus c p then
    (setOwn name (omegaPlus c p) p, [.broadcastWish (omegaPlus c p)])
  else (p, [])

/-- Records a first-hand wish, amplifies at `f + 1`, then advances entry at `n - f`. -/
def onWish (sender : K) (x : ℕ) : Handler (Pacemaker K) PacemakerEffect := fun p =>
  if sender ∈ c.authorities then
    Handler.seq (amplify name c) (fun p => advanceEntryTarget (omegaQ c p) p)
      (recordWish sender x p)
  else (p, [])

/-- Advances local entry bookkeeping after verified state installation. -/
def fastForwardInstalledEntry (nextLive : ℕ) (p : Pacemaker K) : Pacemaker K :=
  let p := { p with
    entryTarget := max p.entryTarget nextLive
    largestEnteredView := max p.largestEnteredView nextLive }
  if p.ownWatermark < nextLive then setOwn name nextLive p else p

def handle : PacemakerInput K → Handler (Pacemaker K) PacemakerEffect
  | .genesis => genesis name c
  | .wish sender x => onWish name c sender x
  | .raise x => raiseOwnWish name c x
  | .fastForward nextLive => .modify (fastForwardInstalledEntry name nextLive)

end Pacemaker

def PacemakerInput.trigger {K : Type} : PacemakerInput K → Option ℕ
  | .genesis => some 2
  | .raise x => some x
  | .fastForward nextLive => some nextLive
  | .wish _ _ => none

/-! ### What one call does to the wishes -/

namespace Pacemaker

variable {K : Type} [LinearOrder K] {name : K} {c : Committee K}

variable {p : Pacemaker K}

theorem atLeast_of_le_kthLargest {v k : ℕ} (hv : 0 < v) (hk : 0 < k) (h : v ≤ kthLargest c k p) :
    AtLeast c.authorities k fun q => v ≤ p.omega q := by
  rw [kthLargest, ← List.filterMap_eq_map] at h
  refine (OrderStat.atLeast_of_le_kthLargest c.sorted_nodup (fun q => c.mem_sorted.mp) _ hv hk
    h).mono ?_
  rintro q - ⟨x, hx, hvx⟩
  cases hx
  exact hvx

omit [LinearOrder K] in
theorem enterMissing_eq (n : ℕ) (p : Pacemaker K) :
    enterMissing n p = ({ p with largestEnteredView := p.largestEnteredView + n },
      (List.range' (p.largestEnteredView + 1) n).map .enter) := by
  induction n generalizing p with
  | zero => rfl
  | succ n ih =>
    simp only [enterMissing, Handler.after_apply, ih, List.range'_succ, List.map_cons,
      List.singleton_append, Nat.add_assoc, Nat.add_comm 1 n]

omit [LinearOrder K] in
theorem advanceEntryTarget_eq (target : ℕ) (p : Pacemaker K) :
    ∃ n, advanceEntryTarget target p =
      ({ p with
          entryTarget := max p.entryTarget target
          largestEnteredView := p.largestEnteredView + n },
        (List.range' (p.largestEnteredView + 1) n).map .enter) ∧
      (0 < n → p.largestEnteredView + n ≤ target) := by
  unfold advanceEntryTarget
  split
  · next h =>
    refine ⟨target - p.largestEnteredView, ?_, by omega⟩
    rw [enterMissing_eq, max_eq_right h.le]
  · next h =>
    refine ⟨0, ?_, fun h => absurd h (Nat.lt_irrefl 0)⟩
    rw [max_eq_left (not_lt.mp h)]
    rfl

/-- What one call does to the wishes, and what the views it enters rest on. -/
structure Change (name : K) (c : Committee K) (input : PacemakerInput K) (p p' : Pacemaker K)
    (es : List PacemakerEffect) : Prop where
  own_le : p.ownWatermark ≤ p'.ownWatermark
  own : p'.ownWatermark = p.ownWatermark ∨ input.trigger = some p'.ownWatermark ∨
    ∃ q x, input = .wish q x ∧ 0 < p'.ownWatermark ∧
      p'.ownWatermark ≤ omegaPlus c (recordWish q x p)
  slot : ∀ q, p'.omega q ≤ p.omega q ∨ q = name ∧ p'.omega q = p'.ownWatermark ∨
    input = .wish q (p'.omega q)
  enter : ∀ v, .enter v ∈ es → 0 < v ∧ v ≤ omegaQ c p'

namespace Change

variable {input : PacemakerInput K} {p p' : Pacemaker K} {es : List PacemakerEffect}

theorem refl (input : PacemakerInput K) (p : Pacemaker K) : Change name c input p p [] where
  own_le := le_rfl
  own := .inl rfl
  slot _ := .inl le_rfl
  enter := by simp

theorem advance (h : Change name c input p p' es) (hes : ∀ v, .enter v ∉ es) :
    Change name c input p (advanceEntryTarget (omegaQ c p') p').1
      (es ++ (advanceEntryTarget (omegaQ c p') p').2) := by
  obtain ⟨n, heq, hn⟩ := advanceEntryTarget_eq (omegaQ c p') p'
  rw [heq]
  refine ⟨h.own_le, h.own, h.slot, fun v hv => ?_⟩
  rcases List.mem_append.mp hv with hv | hv
  · exact absurd hv (hes v)
  · obtain ⟨w, hw, hwv⟩ := List.mem_map.mp hv
    cases hwv
    have hrange := List.mem_range'_1.mp hw
    have hle : v ≤ omegaQ c p' := by
      have := hn (by omega)
      omega
    exact ⟨by omega, hle⟩

end Change

theorem raiseOwnWish_change {input : PacemakerInput K} {x : ℕ} (hx : input.trigger = some x)
    (p : Pacemaker K) : Change name c input p (raiseOwnWish name c x p).1
      (raiseOwnWish name c x p).2 := by
  unfold raiseOwnWish
  split
  · exact .refl input p
  · next hlt =>
    have hset : Change name c input p (setOwn name x p) [] := by
      refine ⟨(not_le.mp hlt).le, .inr (.inl hx), fun q => ?_, by simp⟩
      by_cases hq : q = name
      · subst hq
        exact .inr (.inl ⟨rfl, Function.update_self _ _ _⟩)
      · exact .inl (Function.update_of_ne hq _ _).le
    exact hset.advance (by simp)

theorem recordWish_omega (q : K) (x : ℕ) (p : Pacemaker K) (u : K) :
    (recordWish q x p).omega u ≤ p.omega u ∨ u = q ∧ (recordWish q x p).omega u = x := by
  unfold recordWish
  split
  · by_cases hu : u = q
    · subst hu
      exact .inr ⟨rfl, Function.update_self _ _ _⟩
    · exact .inl (Function.update_of_ne hu _ _).le
  · exact .inl le_rfl

theorem onWish_change (q : K) (x : ℕ) (p : Pacemaker K) :
    Change name c (.wish q x) p (onWish name c q x p).1 (onWish name c q x p).2 := by
  have hrecord : ∀ u, (recordWish q x p).omega u ≤ p.omega u ∨
      PacemakerInput.wish q x = .wish u ((recordWish q x p).omega u) := by
    intro u
    rcases recordWish_omega q x p u with hle | ⟨rfl, hx⟩
    · exact .inl hle
    · exact .inr (by rw [hx])
  have hown : (recordWish q x p).ownWatermark = p.ownWatermark := by
    unfold recordWish
    split <;> rfl
  unfold onWish
  split
  · rw [Handler.seq_apply]
    refine Change.advance ?_ ?_
    · unfold amplify
      split
      · next hlt =>
        rw [hown] at hlt
        refine ⟨hlt.le, .inr (.inr ⟨q, x, rfl, Nat.zero_lt_of_lt hlt, le_rfl⟩), fun u => ?_,
          by simp⟩
        by_cases hu : u = name
        · subst hu
          exact .inr (.inl ⟨rfl, Function.update_self _ _ _⟩)
        · have hsame : (setOwn name (omegaPlus c (recordWish q x p)) (recordWish q x p)).omega u =
              (recordWish q x p).omega u := Function.update_of_ne hu _ _
          rw [hsame]
          exact (hrecord u).imp_right .inr
      · exact ⟨hown.ge, .inl hown, fun u => (hrecord u).imp_right .inr, by simp⟩
    · unfold amplify
      split <;> simp
  · exact .refl _ p

theorem handle_change (input : PacemakerInput K) (p : Pacemaker K) :
    Change name c input p (handle name c input p).1 (handle name c input p).2 := by
  cases input with
  | genesis =>
    have h := @raiseOwnWish_change K _ name c .genesis 2 rfl { p with largestEnteredView := 1 }
    refine ⟨h.own_le, h.own.imp_right (Or.imp_right ?_), h.slot, fun v hv => h.enter v ?_⟩
    · rintro ⟨_, _, hwish, -⟩
      cases hwish
    · simpa [handle, genesis] using hv
  | wish q x => exact onWish_change q x p
  | raise x => exact raiseOwnWish_change rfl p
  | fastForward nextLive =>
    unfold handle fastForwardInstalledEntry
    dsimp only [Handler.modify_apply]
    split
    · next hlt =>
      refine ⟨hlt.le, .inr (.inl rfl), fun q => ?_, by simp⟩
      by_cases hq : q = name
      · subst hq
        exact .inr (.inl ⟨rfl, Function.update_self _ _ _⟩)
      · exact .inl (Function.update_of_ne hq _ _).le
    · exact ⟨le_rfl, .inl rfl, fun q => .inl le_rfl, by simp⟩

end Pacemaker

/-! ### The views that are entered -/

/-- A view is entered with an effect, or counts as entered: the first one at genesis, the live one
after an installation that is ahead. -/
inductive EntryStep
  | jump (view : ℕ)
  | enter (view : ℕ)
  deriving DecidableEq

def PacemakerEffect.entryStep : PacemakerEffect → Option EntryStep
  | .enter view => some (.enter view)
  | .broadcastWish _ => none

def EntryStep.entered : EntryStep → Option ℕ
  | .enter view => some view
  | .jump _ => none

/-- The view that an input makes count as entered. -/
def PacemakerInput.jump {K : Type} (p : Pacemaker K) : PacemakerInput K → Option ℕ
  | .genesis => some 1
  | .fastForward nextLive => if p.largestEnteredView < nextLive then some nextLive else none
  | .raise _ => none
  | .wish _ _ => none

def Pacemaker.entrySteps {K : Type} [LinearOrder K] (name : K) (c : Committee K)
    (input : PacemakerInput K) (p : Pacemaker K) : List EntryStep :=
  (input.jump p).toList.map .jump ++ (handle name c input p).2.filterMap PacemakerEffect.entryStep

/-- A path through the views that ends at one: each entry with an effect is one above the last
view, each jump goes further up. -/
inductive EntryPath : ℕ → List EntryStep → Prop
  | nil : EntryPath 0 []
  | enter {v : ℕ} {l : List EntryStep} (h : EntryPath v l) :
      EntryPath (v + 1) (l ++ [.enter (v + 1)])
  | jump {v w : ℕ} {l : List EntryStep} (h : EntryPath v l) (hw : v < w) :
      EntryPath w (l ++ [.jump w])

namespace EntryPath

variable {v : ℕ} {l : List EntryStep}

theorem entered_pairwise (h : EntryPath v l) :
    (l.filterMap EntryStep.entered).Pairwise (· < ·) ∧
      ∀ u ∈ l.filterMap EntryStep.entered, u ≤ v := by
  induction h with
  | nil => exact ⟨.nil, by simp⟩
  | @enter v l h ih =>
    rw [List.filterMap_append]
    refine ⟨List.pairwise_append.mpr ⟨ih.1, List.pairwise_singleton _ _, ?_⟩, ?_⟩
    · intro u hu w hw
      rw [List.mem_singleton.mp hw]
      exact Nat.lt_succ_of_le (ih.2 u hu)
    · intro u hu
      rcases List.mem_append.mp hu with hu | hu
      · exact (ih.2 u hu).trans (Nat.le_succ v)
      · exact (List.mem_singleton.mp hu).le
  | @jump v w l h hw ih =>
    have hnone : [EntryStep.jump w].filterMap EntryStep.entered = [] := rfl
    rw [List.filterMap_append, hnone, List.append_nil]
    exact ⟨ih.1, fun u hu => (ih.2 u hu).trans hw.le⟩

theorem enters (h : EntryPath v l) (n : ℕ) :
    EntryPath (v + n) (l ++ (List.range' (v + 1) n).map .enter) := by
  induction n generalizing v l with
  | zero => simpa using h
  | succ n ih =>
    have := ih h.enter
    rw [List.range'_succ, List.map_cons]
    rwa [List.append_assoc, Nat.add_assoc, Nat.add_comm 1 n] at this

end EntryPath

namespace Pacemaker

variable {K : Type} [LinearOrder K] {name : K} {c : Committee K} {l : List EntryStep}

omit [LinearOrder K] in
theorem advanceEntryTarget_path (h : EntryPath p.largestEnteredView l) (target : ℕ) :
    EntryPath (advanceEntryTarget target p).1.largestEnteredView
      (l ++ (advanceEntryTarget target p).2.filterMap PacemakerEffect.entryStep) := by
  obtain ⟨n, heq, -⟩ := advanceEntryTarget_eq target p
  rw [heq, List.filterMap_map]
  have hcomp : PacemakerEffect.entryStep ∘ .enter = some ∘ EntryStep.enter := rfl
  rw [hcomp, List.filterMap_eq_map]
  exact h.enters n

theorem raiseOwnWish_path (h : EntryPath p.largestEnteredView l) (x : ℕ) :
    EntryPath (raiseOwnWish name c x p).1.largestEnteredView
      (l ++ (raiseOwnWish name c x p).2.filterMap PacemakerEffect.entryStep) := by
  unfold raiseOwnWish
  split
  · simpa using h
  · exact advanceEntryTarget_path (p := setOwn name x p) h _

/-- Every call continues the path; genesis comes before every view. -/
theorem handle_path (h : EntryPath p.largestEnteredView l) (input : PacemakerInput K)
    (hgenesis : input = .genesis → p.largestEnteredView = 0) :
    EntryPath (handle name c input p).1.largestEnteredView (l ++ entrySteps name c input p) := by
  cases input with
  | genesis =>
    have hjump : EntryPath 1 (l ++ [.jump 1]) := h.jump (by rw [hgenesis rfl]; exact Nat.one_pos)
    rw [entrySteps, ← List.append_assoc]
    exact raiseOwnWish_path (p := { p with largestEnteredView := 1 }) hjump 2
  | wish q x =>
    have hrecord : (recordWish q x p).largestEnteredView = p.largestEnteredView := by
      unfold recordWish
      split <;> rfl
    have hsilent : (amplify name c (recordWish q x p)).1.largestEnteredView =
          p.largestEnteredView ∧
        (amplify name c (recordWish q x p)).2.filterMap PacemakerEffect.entryStep = [] := by
      unfold amplify
      split
      · exact ⟨hrecord, rfl⟩
      · exact ⟨hrecord, rfl⟩
    change EntryPath (onWish name c q x p).1.largestEnteredView
      (l ++ (onWish name c q x p).2.filterMap PacemakerEffect.entryStep)
    unfold onWish
    split
    · rw [Handler.seq_apply, List.filterMap_append, hsilent.2]
      exact advanceEntryTarget_path (by rwa [hsilent.1]) _
    · simpa using h
  | raise x => exact raiseOwnWish_path h x
  | fastForward nextLive =>
    have hview : (handle name c (.fastForward nextLive) p).1.largestEnteredView =
        max p.largestEnteredView nextLive := by
      unfold handle fastForwardInstalledEntry
      dsimp only [Handler.modify_apply]
      split <;> rfl
    rw [hview, entrySteps, PacemakerInput.jump]
    split
    · next hlt =>
      rw [max_eq_right hlt.le]
      exact h.jump hlt
    · next hge =>
      rw [max_eq_left (not_lt.mp hge)]
      simpa [handle] using h

end Pacemaker

end Vantage
