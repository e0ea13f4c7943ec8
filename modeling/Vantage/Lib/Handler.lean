import Mathlib.Logic.Basic
import Mathlib.Data.List.Basic
import Mathlib.Order.Defs.Unbundled

/-!
# Handlers that emit effects

A handler takes a state to the next state and the list of effects it emits.

* `Steps R s es s'`: a finite run of the labelled step relation `R`;
* `Handler.Follows R h`: every call of `h` is a run of `R`, with one rule per combinator;
* `Handler.Keeps f h`: no call of `h` changes what `f` reads off the state;
* `Handler.Along R h`: every call of `h` moves the state along a preorder;
* `Handler.Simulates R h k`: `h` and `k` answer alike from related states.
-/

/-- A state transformer that emits effects. -/
abbrev Handler (σ ε : Type) : Type := σ → σ × List ε

/-- A finite run of labelled steps; the labels are concatenated. -/
inductive Steps {σ ε : Type} (R : σ → List ε → σ → Prop) : σ → List ε → σ → Prop
  | refl (s : σ) : Steps R s [] s
  | step {s s' s'' : σ} {es es' : List ε} (h : R s es s') (t : Steps R s' es' s'') :
      Steps R s (es ++ es') s''

namespace Steps

variable {σ ε : Type} {R : σ → List ε → σ → Prop} {s s' s'' : σ} {es es' : List ε}

theorem single (h : R s es s') : Steps R s es s' := by
  have := Steps.step h (Steps.refl s')
  rwa [List.append_nil] at this

/-- Start a run with a step that emits nothing. -/
theorem silent (h : R s [] s') (t : Steps R s' es s'') : Steps R s es s'' := .step h t

theorem trans (h : Steps R s es s') (h' : Steps R s' es' s'') :
    Steps R s (es ++ es') s'' := by
  induction h with
  | refl => exact h'
  | step hr _ ih => rw [List.append_assoc]; exact .step hr (ih h')

/-- Start a run with a run that emits nothing. -/
theorem silentTrans (h : Steps R s [] s') (t : Steps R s' es s'') : Steps R s es s'' := h.trans t

/-- A predicate on the state and on everything emitted so far that each step preserves
holds after every run. -/
theorem invariant {I : σ → List ε → Prop}
    (hstep : ∀ s out es s', I s out → R s es s' → I s' (out ++ es))
    {out : List ε} (h : Steps R s es s') (h0 : I s out) : I s' (out ++ es) := by
  induction h generalizing out with
  | refl => rwa [List.append_nil]
  | step hr _ ih => rw [← List.append_assoc]; exact ih (hstep _ _ _ _ h0 hr)

/-- What each step keeps is kept by every run. -/
theorem kept {P : σ → Prop} (hstep : ∀ s es s', R s es s' → P s → P s') (h : Steps R s es s')
    (h0 : P s) : P s' := by
  induction h with
  | refl => exact h0
  | step hr _ ih => exact ih (hstep _ _ _ hr h0)

theorem mono {R' : σ → List ε → σ → Prop} (hR : ∀ s es s', R s es s' → R' s es s')
    (h : Steps R s es s') : Steps R' s es s' := by
  induction h with
  | refl => exact .refl _
  | step hr _ ih => exact .step (hR _ _ _ hr) ih

end Steps

namespace Handler

variable {σ ε α : Type}

def skip : Handler σ ε := fun s => (s, [])

def modify (f : σ → σ) : Handler σ ε := fun s => (f s, [])

def seq (h k : Handler σ ε) : Handler σ ε := fun s =>
  ((k (h s).1).1, (h s).2 ++ (k (h s).1).2)

/-- Run a handler on a state, after the effects already emitted. -/
def after (k : Handler σ ε) (r : σ × List ε) : σ × List ε := ((k r.1).1, r.2 ++ (k r.1).2)

instance : AndThen (Handler σ ε) := ⟨fun h k => seq h (k ())⟩

/-- Run a handler for every element of a list, in order. -/
def forEach (xs : List α) (h : α → Handler σ ε) : Handler σ ε :=
  match xs with
  | [] => skip
  | x :: xs => seq (h x) (forEach xs h)

@[simp] theorem skip_apply (s : σ) : (skip : Handler σ ε) s = (s, []) := rfl

@[simp] theorem modify_apply (f : σ → σ) (s : σ) :
    (modify f : Handler σ ε) s = (f s, []) := rfl

@[simp] theorem after_apply (k : Handler σ ε) (s : σ) (es : List ε) :
    k.after (s, es) = ((k s).1, es ++ (k s).2) := rfl

@[simp] theorem andThen_apply (h k : Handler σ ε) (s : σ) :
    (h >> k) s = ((k (h s).1).1, (h s).2 ++ (k (h s).1).2) := rfl

@[simp] theorem seq_apply (h k : Handler σ ε) (s : σ) :
    seq h k s = ((k (h s).1).1, (h s).2 ++ (k (h s).1).2) := rfl

/-! ### Handlers as runs of a step relation -/

variable {R : σ → List ε → σ → Prop} {h k : Handler σ ε}

/-- The call of `h` in state `s` is a run of `R`. -/
def FollowsAt (R : σ → List ε → σ → Prop) (h : Handler σ ε) (s : σ) : Prop :=
  Steps R s (h s).2 (h s).1

/-- Every call of `h` is a run of `R`. -/
def Follows (R : σ → List ε → σ → Prop) (h : Handler σ ε) : Prop := ∀ s, FollowsAt R h s

theorem followsAt_skip (s : σ) : FollowsAt R skip s := .refl s

theorem FollowsAt.seq {s : σ} (hh : FollowsAt R h s) (hk : FollowsAt R k (h s).1) :
    FollowsAt R (h.seq k) s := hh.trans hk

theorem Follows.seq (hh : Follows R h) (hk : Follows R k) :
    Follows R (h.seq k) := fun s => (hh s).seq (hk _)

/-- A handler may take an argument off the state. -/
theorem Follows.read {α : Type} {k : α → Handler σ ε} (hk : ∀ a, Follows R (k a)) (f : σ → α) :
    Follows R fun s => k (f s) s := fun s => hk (f s) s

theorem Follows.andThen (hh : Follows R h) (hk : Follows R k) :
    Follows R (h >> k) := hh.seq hk

theorem FollowsAt.after {k : Handler σ ε} {s s' : σ} {es : List ε} (h : Steps R s es s')
    (hk : FollowsAt R k s') : Steps R s (k.after (s', es)).2 (k.after (s', es)).1 := h.trans hk

/-- Every call of `h` from a state with `P` is a run of `R` that ends in a state with `P`. -/
def FollowsIn (R : σ → List ε → σ → Prop) (P : σ → Prop) (h : Handler σ ε) : Prop :=
  ∀ s, P s → FollowsAt R h s ∧ P (h s).1

variable {P : σ → Prop} {f : σ → α}

theorem FollowsIn.skip : FollowsIn R P (skip : Handler σ ε) := fun s hs => ⟨.refl s, hs⟩

theorem FollowsIn.seq (hh : FollowsIn R P h) (hk : FollowsIn R P k) :
    FollowsIn R P (h.seq k) := by
  intro s hs
  obtain ⟨h1, p1⟩ := hh s hs
  obtain ⟨h2, p2⟩ := hk _ p1
  exact ⟨h1.seq h2, p2⟩

/-- A handler whose calls are runs of steps that keep `P`. -/
theorem FollowsIn.of_kept {h : Handler σ ε} (hP : ∀ s es s', R s es s' → P s → P s')
    (hh : ∀ s, P s → FollowsAt R h s) : FollowsIn R P h := fun s hs =>
  ⟨hh s hs, (hh s hs).kept hP hs⟩

theorem FollowsIn.mono {R' : σ → List ε → σ → Prop} {h : Handler σ ε}
    (hR : ∀ s es s', R s es s' → R' s es s') (hh : FollowsIn R P h) : FollowsIn R' P h :=
  fun s hs => ⟨(hh s hs).1.mono hR, (hh s hs).2⟩

theorem Follows.forEach {xs : List α} {h : α → Handler σ ε} (hh : ∀ x ∈ xs, Follows R (h x)) :
    Follows R (Handler.forEach xs h) := by
  induction xs with
  | nil => exact followsAt_skip
  | cons x xs ih =>
    refine (hh x List.mem_cons_self).seq (ih fun y hy => hh y (List.mem_cons_of_mem _ hy))

/-! ### Handlers that leave a part of the state alone -/

/-- No call of `h` changes what `f` reads off the state. -/
def Keeps (f : σ → α) (h : Handler σ ε) : Prop := ∀ s, f (h s).1 = f s

theorem Keeps.skip : Keeps f (skip : Handler σ ε) := fun _ => rfl

theorem Keeps.seq (hh : Keeps f h) (hk : Keeps f k) :
    Keeps f (h.seq k) := fun s => (hk _).trans (hh s)

theorem Keeps.andThen (hh : Keeps f h) (hk : Keeps f k) :
    Keeps f (h >> k) := hh.seq hk

theorem Keeps.after {k : Handler σ ε} {r : σ × List ε} {s : σ} (hk : Keeps f k) (hr : f r.1 = f s) :
    f (k.after r).1 = f s := (hk _).trans hr

theorem Keeps.forEach {β : Type} {xs : List β} {h : β → Handler σ ε} (hh : ∀ x, Keeps f (h x)) :
    Keeps f (Handler.forEach xs h) := by
  induction xs with
  | nil => exact Keeps.skip
  | cons x xs ih => exact (hh x).seq ih

/-! ### Handlers that move along a preorder -/

/-- Every call of `h` moves the state along `R`. -/
def Along (R : σ → σ → Prop) (h : Handler σ ε) : Prop := ∀ s, R s (h s).1

theorem Along.seq {R : σ → σ → Prop} [IsTrans σ R] (hh : Along R h) (hk : Along R k) :
    Along R (h.seq k) := fun s => trans_of R (hh s) (hk _)

/-! ### Simulation -/

theorem forEach_append (xs ys : List α) (h : α → Handler σ ε) (s : σ) :
    forEach (xs ++ ys) h s = (forEach ys h).after (forEach xs h s) := by
  induction xs generalizing s with
  | nil => rfl
  | cons x xs ih => simp [forEach, ih, after, List.append_assoc]

/-- From related states the two handlers emit the same effects and reach related states. -/
def Simulates {τ : Type} (R : σ → τ → Prop) (h : Handler σ ε) (k : Handler τ ε) : Prop :=
  ∀ s t, R s t → R (h s).1 (k t).1 ∧ (h s).2 = (k t).2

theorem Simulates.seq {τ : Type} {R : σ → τ → Prop} {h h' : Handler σ ε} {k k' : Handler τ ε}
    (hh : Simulates R h k) (hh' : Simulates R h' k') :
    Simulates R (Handler.seq h h') (Handler.seq k k') := by
  intro s t hR
  obtain ⟨hR₁, he₁⟩ := hh s t hR
  obtain ⟨hR₂, he₂⟩ := hh' _ _ hR₁
  exact ⟨hR₂, congrArg₂ (· ++ ·) he₁ he₂⟩

theorem Simulates.forEach {τ : Type} {R : σ → τ → Prop} {h : α → Handler σ ε}
    {k : α → Handler τ ε} (hh : ∀ x, Simulates R (h x) (k x)) (xs : List α) :
    Simulates R (Handler.forEach xs h) (Handler.forEach xs k) := by
  induction xs with
  | nil => exact fun s t hR => ⟨hR, rfl⟩
  | cons x xs ih => exact (hh x).seq ih

end Handler
