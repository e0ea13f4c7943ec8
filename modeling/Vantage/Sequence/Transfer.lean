import Vantage.Sequence.Ledger

/-!
# Downloading a certified sequence

A transfer fetches the records up to a certified head, then the outcomes and the deltas they
commit to, from sources that may send anything.

* `onRecords`, `onOutcomes`, `onDelta`, `onDeltaRange`, `onUnavailable`: the responses.
-/

namespace Vantage

/-! ### The record chain -/

/-- Why an answer does not fit the chain. -/
inductive ChainError
  | version
  | unexpectedView (expected got : ℕ)
  | brokenLink (view : ℕ)
  | headMismatch (view : ℕ)
  | pastTarget (target : ℕ)
  | unexpectedIndex (expected got : ℕ)
  | deltaMismatch (view : ℕ)
  | deltaTooLong (view : ℕ)
  | skipWithDelta (view : ℕ)
  | outcomeMismatch (view : ℕ)
  deriving DecidableEq

/-- Verifies an ordered record chain against a trusted base and target head. -/
structure ChainVerifier {K D : Type} (S : SequenceSession K D) where
  targetView : ℕ
  targetHead : D
  nextView : ℕ
  head : D
  verified : Table ℕ (SequenceRecord D)
  complete : Bool

namespace ChainVerifier

variable {K D : Type} [DecidableEq K] [DecidableEq D] {S : SequenceSession K D}

def new (S : SequenceSession K D) (baseView : ℕ) (baseHead : D) (targetView : ℕ)
    (targetHead : D) : ChainVerifier S where
  targetView := targetView
  targetHead := targetHead
  nextView := baseView + 1
  head := baseHead
  verified := ∅
  complete := false

def verifiedRecord (c : ChainVerifier S) (view : ℕ) : Option (SequenceRecord D) :=
  c.verified.lookup view

def checkRecords (S : SequenceSession K D) (targetView : ℕ) :
    ℕ → D → List (SequenceRecord D) → Except ChainError (ℕ × D)
  | view, head, [] => .ok (view, head)
  | view, head, r :: records =>
    if r.version ≠ sequenceVersion then .error .version
    else if targetView < view then .error (.pastTarget targetView)
    else if r.view ≠ view then .error (.unexpectedView view r.view)
    else if r.previousHead ≠ head then .error (.brokenLink view)
    else checkRecords S targetView (view + 1) (r.head S) records

/-- Accept consecutive records; on failure nothing changes. -/
def absorbRecords (c : ChainVerifier S) (records : List (SequenceRecord D)) :
    Except ChainError (Bool × ChainVerifier S) :=
  match checkRecords S c.targetView c.nextView c.head records with
  | .error e => .error e
  | .ok (view, head) =>
    let reached := decide (c.targetView < view)
    if reached ∧ head ≠ c.targetHead then .error (.headMismatch c.targetView)
    else .ok (reached,
      { c with
        verified := records.foldl (fun m r => m.insert r.view r) c.verified
        nextView := view
        head := head
        complete := reached })

/-- Check an outcome against its verified record; `skip` requires an empty delta. -/
def checkOutcome (c : ChainVerifier S) (view : ℕ) (o : SequenceOutcome K D) :
    Except ChainError Unit :=
  match c.verifiedRecord view with
  | none => .error (.unexpectedView c.nextView view)
  | some r =>
    if o.digest S view ≠ r.outcomeDigest then .error (.outcomeMismatch view)
    else if o = .skip ∧ r.deltaLen ≠ 0 then .error (.skipWithDelta view)
    else .ok ()

end ChainVerifier

/-! ### The items of one view -/

/-- Verifies consecutive items against the length and the final hash of a record. -/
structure DeltaVerifier {K D : Type} (S : SequenceSession K D) where
  view : ℕ
  expectedLen : ℕ
  expectedHead : D
  nextIndex : ℕ
  running : D
  items : List D
  nextIndex_eq : nextIndex = items.length
  running_eq : running = (deltaChain S view).head items

namespace DeltaVerifier

variable {K D : Type} [DecidableEq D] {S : SequenceSession K D}

def new (S : SequenceSession K D) (view : ℕ) (r : SequenceRecord D) : DeltaVerifier S where
  view := view
  expectedLen := r.deltaLen
  expectedHead := r.deltaHead
  nextIndex := 0
  running := deltaSeed S view
  items := []
  nextIndex_eq := rfl
  running_eq := rfl

def extend (v : DeltaVerifier S) (items : List D) : DeltaVerifier S where
  view := v.view
  expectedLen := v.expectedLen
  expectedHead := v.expectedHead
  nextIndex := v.nextIndex + items.length
  running := (deltaChain S v.view).runFrom v.nextIndex v.running items
  items := v.items ++ items
  nextIndex_eq := by rw [v.nextIndex_eq, List.length_append]
  running_eq := by rw [v.nextIndex_eq, v.running_eq, Chain.head_append]

/-- Accept the next consecutive items; on failure nothing changes. -/
def absorb (v : DeltaVerifier S) (startIndex : ℕ) (items : List D) :
    Except ChainError (Bool × DeltaVerifier S) :=
  if startIndex ≠ v.nextIndex then .error (.unexpectedIndex v.nextIndex startIndex)
  else if v.expectedLen < v.nextIndex + items.length then .error (.deltaTooLong v.view)
  else
    let v' := v.extend items
    let complete := decide (v'.nextIndex = v.expectedLen)
    if complete ∧ v'.running ≠ v.expectedHead then .error (.deltaMismatch v.view)
    else .ok (complete, v')

end DeltaVerifier

/-! ### The transfer -/

/-- What a transfer is waiting for. -/
inductive TransferState
  | fetchingRecords
  | fetchingOutcomes
  | fetchingDeltas
  | verified
  | exhausted
  deriving DecidableEq

/-- One invalid response is tolerated; the second removes its source. -/
def maxInvalidPerSource : ℕ := 2

/-- A transfer of the views up to a head. -/
structure SequenceTransfer {K D : Type} (S : SequenceSession K D) where
  transferId : ℕ
  targetView : ℕ
  targetHead : D
  sources : List K
  cursor : ℕ
  invalid : Table K ℕ
  chain : ChainVerifier S
  outcomes : Table ℕ (SequenceOutcome K D)
  deltas : Table ℕ (List D)
  deltaInFlight : Table ℕ (DeltaVerifier S)
  outcomeScanFrom : ℕ
  deltaScanFrom : ℕ
  state : TransferState

/-- A response names its transfer and the target head. -/
structure SequenceRecordChunk (D : Type) where
  transferId : ℕ
  targetHead : D
  records : List (SequenceRecord D)

/-- An answer with outcomes. -/
structure SequenceOutcomeServe (K D : Type) where
  transferId : ℕ
  targetHead : D
  outcomes : List (SequenceOutcomeEntry K D)

/-- An answer with a part of one delta. -/
structure SequenceDeltaChunk (D : Type) where
  transferId : ℕ
  targetHead : D
  view : ℕ
  startIndex : ℕ
  items : List D
  complete : Bool

/-- An answer with parts of several deltas. -/
structure SequenceDeltaRangeChunk (D : Type) where
  transferId : ℕ
  targetHead : D
  entries : List (SequenceDeltaEntry D)

/-- An answer that there is nothing to serve. -/
structure SequenceUnavailable (D : Type) where
  transferId : ℕ
  targetHead : D

namespace SequenceTransfer

variable {K D : Type} [DecidableEq K] [DecidableEq D] {S : SequenceSession K D}

def new (S : SequenceSession K D) (transferId baseView : ℕ) (baseHead : D) (targetView : ℕ)
    (targetHead : D) (sources : List K) : SequenceTransfer S where
  transferId := transferId
  targetView := targetView
  targetHead := targetHead
  sources := sources
  cursor := 0
  invalid := ∅
  chain := .new S baseView baseHead targetView targetHead
  outcomes := ∅
  deltas := ∅
  deltaInFlight := ∅
  outcomeScanFrom := 1
  deltaScanFrom := 1
  state := if sources.isEmpty then .exhausted else .fetchingRecords

/-- The results in view order, once everything is verified. -/
def verifiedOutput (t : SequenceTransfer S) :
    Option (List (ℕ × SequenceOutcome K D × List D)) :=
  if t.state ≠ .verified then none
  else
    some ((Table.sortedKeys t.outcomes).filterMap fun view =>
      (t.outcomes.lookup view).bind fun o => (t.deltas.lookup view).map fun delta =>
        (view, o, delta))

/-- Advance only over views with both a verified record and a body. -/
def scan (t : SequenceTransfer S) (held : ℕ → Bool) : ℕ → ℕ → ℕ × Option ℕ
  | 0, view => (view, none)
  | fuel + 1, view =>
    if t.targetView < view then (view, none)
    else if (t.chain.verifiedRecord view).isNone then (view, none)
    else if !held view then (view, some view)
    else scan t held fuel (view + 1)

def isMissing (t : SequenceTransfer S) (held : ℕ → Bool) (view : ℕ) : Bool :=
  (t.chain.verifiedRecord view).isSome && !held view

def viewsFrom (t : SequenceTransfer S) (view : ℕ) : List ℕ :=
  List.range' view (t.targetView + 1 - view)

def firstMissing (t : SequenceTransfer S) (held : ℕ → Bool) (position : ℕ) : Option ℕ × ℕ :=
  match t.scan held (t.targetView + 1 - position) position with
  | (view, some missing) => (some missing, view)
  | (view, none) => ((t.viewsFrom view).find? (t.isMissing held), view)

def hasOutcome (t : SequenceTransfer S) (view : ℕ) : Bool := (t.outcomes.lookup view).isSome

def hasDelta (t : SequenceTransfer S) (view : ℕ) : Bool := (t.deltas.lookup view).isSome

def firstMissingOutcome (t : SequenceTransfer S) : Option ℕ × SequenceTransfer S :=
  let r := t.firstMissing t.hasOutcome t.outcomeScanFrom
  (r.1, { t with outcomeScanFrom := r.2 })

def firstMissingDelta (t : SequenceTransfer S) : Option ℕ × SequenceTransfer S :=
  let r := t.firstMissing t.hasDelta t.deltaScanFrom
  (r.1, { t with deltaScanFrom := r.2 })

/-- Responses count only from a source of this transfer, for its target. -/
def accepts (t : SequenceTransfer S) (sender : K) (transferId : ℕ) (targetHead : D) : Bool :=
  decide (transferId = t.transferId) && decide (targetHead = t.targetHead) &&
    decide (sender ∈ t.sources)

def dropSource (t : SequenceTransfer S) (sender : K) : SequenceTransfer S :=
  let sources := t.sources.erase sender
  let cursor :=
    if sender ∈ t.sources ∧ t.sources.idxOf sender < t.cursor then t.cursor - 1 else t.cursor
  if sources.isEmpty then { t with sources := sources, cursor := cursor, state := .exhausted }
  else { t with sources := sources, cursor := cursor % sources.length }

def penalize (t : SequenceTransfer S) (sender : K) : SequenceTransfer S :=
  let count := (t.invalid.lookup sender).getD 0 + 1
  let t := { t with invalid := t.invalid.insert sender count }
  if maxInvalidPerSource ≤ count then t.dropSource sender else t

def advanceIfDone (t : SequenceTransfer S) : SequenceTransfer S :=
  if !t.chain.complete then t
  else
    match t.firstMissingOutcome with
    | (some _, t) => t
    | (none, t) =>
      match t.firstMissingDelta with
      | (some _, t) => t
      | (none, t) => { t with state := .verified }

/-- Records that are duplicate or past the target are ignored. -/
def onRecords (t : SequenceTransfer S) (chunk : SequenceRecordChunk D) (sender : K) :
    Except ChainError Unit × SequenceTransfer S :=
  if t.state ≠ .fetchingRecords ∨ !t.accepts sender chunk.transferId chunk.targetHead then
    (.ok (), t)
  else
    let fresh := chunk.records.filter fun r =>
      decide (t.chain.nextView ≤ r.view) && decide (r.view ≤ t.targetView)
    if fresh.isEmpty then (.ok (), t)
    else
      match t.chain.absorbRecords fresh with
      | .ok (complete, chain) =>
        let t := { t with chain := chain }
        if complete then (.ok (), advanceIfDone { t with state := .fetchingOutcomes })
        else (.ok (), t)
      | .error e => (.error e, t.penalize sender)

def onOutcomeEntries (sender : K) : List (SequenceOutcomeEntry K D) → SequenceTransfer S →
    Except ChainError Unit × SequenceTransfer S
  | [], t => (.ok (), t)
  | entry :: entries, t =>
    if t.hasOutcome entry.view ∨ (t.chain.verifiedRecord entry.view).isNone then
      onOutcomeEntries sender entries t
    else
      match t.chain.checkOutcome entry.view entry.outcome with
      | .error e => (.error e, t.penalize sender)
      | .ok () => onOutcomeEntries sender entries
          { t with outcomes := t.outcomes.insert entry.view entry.outcome }

/-- Overlapping bodies are ignored, and only content that fails its record is penalized. -/
def onOutcomes (t : SequenceTransfer S) (serve : SequenceOutcomeServe K D) (sender : K) :
    Except ChainError Unit × SequenceTransfer S :=
  if t.state ≠ .fetchingOutcomes ∨ !t.accepts sender serve.transferId serve.targetHead then
    (.ok (), t)
  else
    match onOutcomeEntries sender serve.outcomes t with
    | (.error e, t) => (.error e, t)
    | (.ok (), t) =>
      match t.firstMissingOutcome with
      | (some _, t) => (.ok (), t)
      | (none, t) => (.ok (), advanceIfDone { t with state := .fetchingDeltas })

/-- Duplicate data is ignored, and invalid content restarts its view. -/
def onDeltaEntry (t : SequenceTransfer S) (entry : SequenceDeltaEntry D) (sender : K) :
    Except ChainError Unit × SequenceTransfer S :=
  match t.chain.verifiedRecord entry.view with
  | none => (.ok (), t)
  | some r =>
    if t.hasDelta entry.view then (.ok (), t)
    else if (t.deltaInFlight.lookup entry.view).any fun v => decide (entry.startIndex < v.nextIndex)
    then (.ok (), t)
    else
      let v := (t.deltaInFlight.lookup entry.view).getD (.new S entry.view r)
      match v.absorb entry.startIndex entry.items with
      | .ok (true, v) =>
        (.ok (), advanceIfDone { t with
          deltaInFlight := t.deltaInFlight.erase entry.view
          deltas := t.deltas.insert entry.view v.items })
      | .ok (false, v) => (.ok (), { t with deltaInFlight := t.deltaInFlight.insert entry.view v })
      | .error e =>
        (.error e, penalize { t with deltaInFlight := t.deltaInFlight.erase entry.view } sender)

def onDeltaEntries (sender : K) : List (SequenceDeltaEntry D) → SequenceTransfer S →
    Except ChainError Unit × SequenceTransfer S
  | [], t => (.ok (), t)
  | entry :: entries, t =>
    match t.onDeltaEntry entry sender with
    | (.error e, t) => (.error e, t)
    | (.ok (), t) => onDeltaEntries sender entries t

def onDeltaRange (t : SequenceTransfer S) (chunk : SequenceDeltaRangeChunk D) (sender : K) :
    Except ChainError Unit × SequenceTransfer S :=
  if t.state ≠ .fetchingDeltas ∨ !t.accepts sender chunk.transferId chunk.targetHead then
    (.ok (), t)
  else onDeltaEntries sender chunk.entries t

def onDelta (t : SequenceTransfer S) (chunk : SequenceDeltaChunk D) (sender : K) :
    Except ChainError Unit × SequenceTransfer S :=
  if t.state ≠ .fetchingDeltas ∨ !t.accepts sender chunk.transferId chunk.targetHead then
    (.ok (), t)
  else t.onDeltaEntry { chunk with } sender

/-- Only the source that cannot serve this transfer is dropped. -/
def onUnavailable (t : SequenceTransfer S) (u : SequenceUnavailable D) (sender : K) :
    SequenceTransfer S :=
  if u.transferId ≠ t.transferId ∨ u.targetHead ≠ t.targetHead then t else t.dropSource sender

end SequenceTransfer

end Vantage
