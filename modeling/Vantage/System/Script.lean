import Vantage.Agb.Numbering
import Vantage.System.Node

/-!
# Runs as scripts

A run of a deployment is a list of events, and whether the events may happen is decidable: a
script can be played, and what it leads to is reachable.
-/

namespace Vantage

/-- A correct party handles an input, or a Byzantine party makes resolver statements. -/
inductive Event (K D : Type)
  | handle (p : K) (lm : Lanes K D) (fuel : ℕ) (input : NodeInput K D)
  | say (q : K) (es : List (DirectResolutionEffect K D))

/-- A party that misses no block handles an input. -/
def Event.take {K D : Type} (p : K) (input : NodeInput K D) : Event K D :=
  .handle p .complete 10 input

section Messages

variable {K D : Type}

def Effect.echo? : Effect K D → Option (EchoOut K D)
  | .broadcastEcho m => some m
  | _ => none

def Effect.ready? : Effect K D → Option (ReadyOut K D)
  | .broadcastReady m => some m
  | _ => none

variable {es : List (Effect K D)}

theorem mem_filterMap_echo? {m : EchoOut K D} :
    m ∈ es.filterMap Effect.echo? ↔ .broadcastEcho m ∈ es := by
  rw [List.mem_filterMap]
  refine ⟨?_, fun h => ⟨_, h, rfl⟩⟩
  rintro ⟨x, hx, hm⟩
  cases x <;> cases hm
  exact hx

theorem mem_filterMap_ready? {m : ReadyOut K D} :
    m ∈ es.filterMap Effect.ready? ↔ .broadcastReady m ∈ es := by
  rw [List.mem_filterMap]
  refine ⟨?_, fun h => ⟨_, h, rfl⟩⟩
  rintro ⟨x, hx, hm⟩
  cases x <;> cases hm
  exact hx

instance {P : EchoOut K D → Prop} [DecidablePred P] :
    Decidable (∃ m, .broadcastEcho m ∈ es ∧ P m) :=
  decidable_of_iff (∃ m ∈ es.filterMap Effect.echo?, P m) (by simp only [mem_filterMap_echo?])

instance {P : ReadyOut K D → Prop} [DecidablePred P] :
    Decidable (∃ m, .broadcastReady m ∈ es ∧ P m) :=
  decidable_of_iff (∃ m ∈ es.filterMap Effect.ready?, P m) (by simp only [mem_filterMap_ready?])

end Messages

variable {K D : Type} [LinearOrder K] [LinearOrder D] [Inhabited D]

namespace Deployment

variable (d : Deployment K D) (byzantine : Finset K)

instance (σ : ∀ q, Node d q) (p : K) (input : NodeInput K D) :
    Decidable (d.Deliverable byzantine σ p input) := by
  cases input <;> unfold Deliverable <;> infer_instance

def perform (σ : ∀ q, Node d q) : Event K D → ∀ q, Node d q
  | .handle p lm fuel input => Function.update σ p ((σ p).handle lm fuel input)
  | .say q es => Function.update σ q { σ q with resolverOut := (σ q).resolverOut ++ es }

/-- An event that may happen: correct members handle what is deliverable, Byzantine parties
say anything. -/
def Allowed (σ : ∀ q, Node d q) : Event K D → Prop
  | .handle p _ _ input =>
      p ∈ d.committee.authorities ∧ p ∉ byzantine ∧ d.Deliverable byzantine σ p input
  | .say q _ => q ∈ byzantine

instance (σ : ∀ q, Node d q) (e : Event K D) : Decidable (d.Allowed byzantine σ e) := by
  cases e <;> unfold Allowed <;> infer_instance

def play (σ : ∀ q, Node d q) (script : List (Event K D)) : ∀ q, Node d q :=
  script.foldl d.perform σ

/-- Every event of the script may happen when its turn comes. -/
def Playable (σ : ∀ q, Node d q) : List (Event K D) → Prop
  | [] => True
  | e :: script => d.Allowed byzantine σ e ∧ Playable (d.perform σ e) script

instance decidablePlayable (σ : ∀ q, Node d q) :
    (script : List (Event K D)) → Decidable (d.Playable byzantine σ script)
  | [] => .isTrue trivial
  | e :: script =>
    have := decidablePlayable (d.perform σ e) script
    inferInstanceAs (Decidable (_ ∧ _))

variable {d byzantine}

theorem Reachable.perform {σ : ∀ q, Node d q} (h : d.Reachable byzantine σ) {e : Event K D}
    (he : d.Allowed byzantine σ e) : d.Reachable byzantine (d.perform σ e) := by
  cases e with
  | handle p lm fuel input => exact .handle h p he.1 he.2.1 lm fuel input he.2.2
  | say q es => exact .byzantine h q he es

theorem Reachable.play {σ : ∀ q, Node d q} (h : d.Reachable byzantine σ)
    {script : List (Event K D)} (hs : d.Playable byzantine σ script) :
    d.Reachable byzantine (d.play σ script) := by
  induction script generalizing σ with
  | nil => exact h
  | cons e script ih => exact ih (h.perform hs.1) hs.2

/-! ### Numbered parties -/

/-- Parties `0, …, n - 1` with unit stakes, and digests that are numbers. -/
def numbered (n : ℕ) [NeZero n] : Deployment (Fin n) ℕ where
  session := ⟨0, DomainHash.numbering _⟩
  committee := .numbered n
  delta := fun _ => 1
  scheduleSeed := fun _ => 0
  serialize := fun c t => [Encodable.encode (c, t)]

theorem numbered_collisionFree (n : ℕ) [NeZero n] :
    (numbered n).session.hash.CollisionFree :=
  DomainHash.numbering_collisionFree _

theorem numbered_unitStakes (n : ℕ) [NeZero n] : (numbered n).committee.UnitStakes :=
  fun _ _ => rfl

end Deployment

end Vantage
