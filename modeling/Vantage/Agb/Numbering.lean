import Mathlib.Logic.Equiv.List
import Vantage.Agb.Types

/-!
# A collision-free hash

`DomainHash.CollisionFree` asks for an injective hash. Over numbers as digests there is one:
it numbers the pairs of a tag and a value.

* `DomainHash.numbering`: the hash that numbers its arguments, `numbering_collisionFree`;
* the numbering of the values that the agreement layer hashes.
-/

namespace Vantage

def Tag.toNat : Tag → ℕ
  | viewProposal => 0
  | viewProposalBatch => 1
  | resolutionValue => 2
  | sequenceOutcome => 3
  | sequenceDelta => 4
  | sequenceItem => 5
  | sequenceRecord => 6
  | sequenceGenesis => 7

theorem Tag.toNat_injective : Function.Injective Tag.toNat := by
  intro t t' h
  cases t <;> cases t' <;> first | rfl | cases h

def DomainHash.numbering (P : Type) [Encodable P] : DomainHash ℕ P where
  domainHash t _ p := Nat.pair t.toNat (Encodable.encode p)

theorem DomainHash.numbering_collisionFree (P : Type) [Encodable P] :
    (DomainHash.numbering P).CollisionFree := by
  intro _ t p t' p' h
  obtain ⟨ht, hp⟩ := Nat.pair_eq_pair.mp h
  exact ⟨Tag.toNat_injective ht, Encodable.encode_injective hp⟩

/-! ### Numbering proposals and entries -/

section Encodable

variable {K D : Type} [Encodable K] [Encodable D]

instance : Encodable (BlockRef K D) :=
  Encodable.ofLeftInjection (fun r => (r.author, r.height, r.digest))
    (fun x => some ⟨x.1, x.2.1, x.2.2⟩) fun _ => rfl

def ResolutionEntry.toSum : ResolutionEntry K D →
    (ℕ × Manifest K D × Manifest K D) ⊕ (ℕ × Manifest K D × Manifest K D) ⊕ ℕ
  | .full u c t => .inl (u, c, t)
  | .core u c t => .inr (.inl (u, c, t))
  | .skip u => .inr (.inr u)

def ResolutionEntry.ofSum :
    (ℕ × Manifest K D × Manifest K D) ⊕ (ℕ × Manifest K D × Manifest K D) ⊕ ℕ →
      ResolutionEntry K D
  | .inl (u, c, t) => .full u c t
  | .inr (.inl (u, c, t)) => .core u c t
  | .inr (.inr u) => .skip u

instance : Encodable (ResolutionEntry K D) :=
  Encodable.ofLeftInjection ResolutionEntry.toSum (fun x => some (.ofSum x)) fun e => by
    cases e <;> rfl

instance : Encodable (ViewProposal K D) :=
  Encodable.ofLeftInjection (fun p => (p.view, p.c, p.t, p.m))
    (fun x => some ⟨x.1, x.2.1, x.2.2.1, x.2.2.2⟩) fun _ => rfl

instance : Encodable (BatchViewProposal K D) :=
  Encodable.ofLeftInjection (fun p => (p.view, p.c, p.t, p.m))
    (fun x => some ⟨x.1, x.2.1, x.2.2.1, x.2.2.2⟩) fun _ => rfl

def Preimage.toSum :
    Preimage K D → ViewProposal K D ⊕ BatchViewProposal K D ⊕ ResolutionEntry K D
  | .proposal p => .inl p
  | .batchProposal p => .inr (.inl p)
  | .entry e => .inr (.inr e)

def Preimage.ofSum :
    ViewProposal K D ⊕ BatchViewProposal K D ⊕ ResolutionEntry K D → Preimage K D
  | .inl p => .proposal p
  | .inr (.inl p) => .batchProposal p
  | .inr (.inr e) => .entry e

instance : Encodable (Preimage K D) :=
  Encodable.ofLeftInjection Preimage.toSum (fun x => some (.ofSum x)) fun p => by
    cases p <;> rfl

end Encodable

/-! ### Numbered parties -/

/-- A session of parties `0, …, n - 1` whose digests are numbers. -/
def Session.numbered (n : ℕ) : Session (Fin n) ℕ := ⟨0, DomainHash.numbering _⟩

def Committee.numbered (n : ℕ) [NeZero n] : Committee (Fin n) :=
  ⟨Finset.univ, fun _ => 1, Finset.univ_nonempty⟩

def Config.numbered (n : ℕ) [NeZero n] (p : Fin n) : Config (Fin n) := ⟨p, .numbered n, 1⟩

end Vantage
