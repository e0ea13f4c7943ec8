import Vantage.Lib.Chain
import Vantage.Lib.Table
import Vantage.Agb.Types

/-!
# The sequence of terminal views and its store

Every terminal view is committed to the head before it, in a record of its outcome and of the
digests it has put out. A store keeps the records with what they commit to and serves them.

* `SequenceOutcome.digest`, `deltaCommitment`, `SequenceRecord.head`: the commitments.
-/

namespace Vantage

/-! ### Commitments -/

/-- The outcome of a view. -/
inductive SequenceOutcome (K D : Type)
  | full (c t : Manifest K D)
  | core (c : Manifest K D)
  | skip
  deriving DecidableEq

/-- The unit of the response size. -/
def SequenceOutcome.manifestItems {K D : Type} : SequenceOutcome K D → ℕ
  | .full c t => c.length + t.length
  | .core c => c.length
  | .skip => 0

/-- The record of a view in the chain of heads. -/
structure SequenceRecord (D : Type) where
  version : ℕ
  view : ℕ
  previousHead : D
  outcomeDigest : D
  deltaLen : ℕ
  deltaHead : D
  deriving DecidableEq

def sequenceVersion : ℕ := 1

/-- The values whose serialization the sequence hashes. -/
inductive SequencePreimage (K D : Type)
  | outcome (view : ℕ) (outcome : SequenceOutcome K D)
  | seed (view : ℕ)
  | item (view index : ℕ) (previous item : D)
  | record (r : SequenceRecord D)
  | genesis

/-- The session identifier and the hash function of the sequence. -/
structure SequenceSession (K D : Type) where
  sid : D
  hash : DomainHash D (SequencePreimage K D)

section Commitments

variable {K D : Type} (S : SequenceSession K D)

def SequenceOutcome.digest (view : ℕ) (o : SequenceOutcome K D) : D :=
  S.hash.domainHash .sequenceOutcome S.sid (.outcome view o)

def deltaSeed (view : ℕ) : D := S.hash.domainHash .sequenceDelta S.sid (.seed view)

def deltaStep (view index : ℕ) (previous item : D) : D :=
  S.hash.domainHash .sequenceItem S.sid (.item view index previous item)

def deltaChain (view : ℕ) : Chain D D where
  seed := deltaSeed S view
  link := deltaStep S view

def deltaCommitment (view : ℕ) (items : List D) : ℕ × D :=
  (items.length, (deltaChain S view).head items)

def genesisHead : D := S.hash.domainHash .sequenceGenesis S.sid .genesis

def SequenceRecord.head (r : SequenceRecord D) : D :=
  S.hash.domainHash .sequenceRecord S.sid (.record r)

/-- What a record says besides its position and the head before it. -/
structure RecordBody (D : Type) where
  outcomeDigest : D
  deltaLen : ℕ
  deltaHead : D

def RecordBody.toRecord (b : RecordBody D) (view : ℕ) (previousHead : D) : SequenceRecord D where
  version := sequenceVersion
  view := view
  previousHead := previousHead
  outcomeDigest := b.outcomeDigest
  deltaLen := b.deltaLen
  deltaHead := b.deltaHead

def RecordBody.of (view : ℕ) (o : SequenceOutcome K D) (delta : List D) : RecordBody D where
  outcomeDigest := o.digest S view
  deltaLen := (deltaCommitment S view delta).1
  deltaHead := (deltaCommitment S view delta).2

def recordChain : Chain D (RecordBody D) where
  seed := genesisHead S
  link i previous b := (b.toRecord (i + 1) previous).head S

end Commitments

/-! ### The store -/

/-- Why a view is not recorded. -/
inductive SequenceError
  | outOfOrder (expected got : ℕ)

/-- The record chain with the bodies that it commits to. -/
structure SequenceStore {K D : Type} (S : SequenceSession K D) where
  interval : ℕ
  head : D
  nextView : ℕ
  records : Table ℕ (SequenceRecord D)
  boundaries : Table ℕ D
  outcomes : Table ℕ (SequenceOutcome K D)
  deltas : Table ℕ (List D)

/-- The outcome of one view in an answer. -/
structure SequenceOutcomeEntry (K D : Type) where
  view : ℕ
  outcome : SequenceOutcome K D

/-- A part of the delta of one view in an answer. -/
structure SequenceDeltaEntry (D : Type) where
  view : ℕ
  startIndex : ℕ
  items : List D
  complete : Bool

namespace SequenceStore

variable {K D : Type} {S : SequenceSession K D}

def new (S : SequenceSession K D) (interval : ℕ) : SequenceStore S where
  interval := max interval 1
  head := genesisHead S
  nextView := 1
  records := ∅
  boundaries := ∅
  outcomes := ∅
  deltas := ∅

def headView (s : SequenceStore S) : ℕ := s.nextView - 1

def isBoundary (s : SequenceStore S) (view : ℕ) : Bool := decide (view % s.interval = 0)

/-- Appends exactly the next view and rejects gaps and reordering. -/
def record (s : SequenceStore S) (view : ℕ) (outcome : SequenceOutcome K D) (delta : List D) :
    Except SequenceError (SequenceStore S) :=
  if view ≠ s.nextView then .error (.outOfOrder s.nextView view)
  else
    let r := (RecordBody.of S view outcome delta).toRecord view s.head
    .ok { s with
      head := r.head S
      nextView := view + 1
      records := s.records.insert view r
      outcomes := s.outcomes.insert view outcome
      deltas := s.deltas.insert view delta
      boundaries :=
        if s.isBoundary view then s.boundaries.insert view (r.head S) else s.boundaries }

/-- The head after a view of the store; the genesis head is the one after view 0. -/
def headAt (s : SequenceStore S) (view : ℕ) : Option D :=
  if view = 0 then some (genesisHead S) else (s.records.lookup view).map (·.head S)

def viewOutput (s : SequenceStore S) (view : ℕ) : Option (ℕ × SequenceOutcome K D × List D) :=
  (s.outcomes.lookup view).bind fun o => (s.deltas.lookup view).map fun delta => (view, o, delta)

/-- A contiguous range of records that stops at the first missing view. -/
def recordsFrom (s : SequenceStore S) (view : ℕ) : ℕ → List (SequenceRecord D)
  | 0 => []
  | max + 1 =>
    match s.records.lookup view with
    | none => []
    | some r => r :: recordsFrom s (view + 1) max

/-- The outcomes from `view` on; only the first may exceed what remains of the item cap. -/
def outcomesLoop (s : SequenceStore S) (through : ℕ) :
    ℕ → Bool → ℕ → ℕ → List (SequenceOutcomeEntry K D)
  | 0, _, _, _ => []
  | maxViews + 1, first, view, remaining =>
    if through < view then []
    else
      match s.outcomes.lookup view with
      | none => []
      | some o =>
        if !first && decide (remaining < o.manifestItems) then []
        else
          ⟨view, o⟩ ::
            if view = through then []
            else outcomesLoop s through maxViews false (view + 1) (remaining - o.manifestItems)

def outcomesFrom (s : SequenceStore S) (view through maxViews maxItems : ℕ) :
    List (SequenceOutcomeEntry K D) :=
  s.outcomesLoop through maxViews true view maxItems

/-- Consecutive delta chunks; only the first view starts at `start`. -/
def deltaEntriesLoop (s : SequenceStore S) (through : ℕ) :
    ℕ → ℕ → ℕ → ℕ → List (SequenceDeltaEntry D)
  | 0, _, _, _ => []
  | maxViews + 1, view, start, remaining =>
    if through < view ∨ remaining = 0 then []
    else
      match s.deltas.lookup view with
      | none => []
      | some delta =>
        if delta.length < start then []
        else
          let stop := min delta.length (start + remaining)
          let items := (delta.drop start).take (stop - start)
          let complete := decide (stop = delta.length)
          ⟨view, start, items, complete⟩ ::
            if !complete || decide (view = through) then []
            else deltaEntriesLoop s through maxViews (view + 1) 0 (remaining - items.length)

/-- Consecutive delta chunks bounded by view count and total item count. -/
def deltaEntriesFrom (s : SequenceStore S) (view start through maxViews maxItems : ℕ) :
    List (SequenceDeltaEntry D) :=
  s.deltaEntriesLoop through maxViews view start maxItems

/-- The stores that recording builds. -/
inductive Built : SequenceStore S → Prop
  | new (interval : ℕ) : Built (new S interval)
  | record {s s' : SequenceStore S} (h : Built s) {view : ℕ} {outcome : SequenceOutcome K D}
      {delta : List D} (hr : s.record view outcome delta = .ok s') : Built s'

end SequenceStore

end Vantage
