import Vantage.Agb.Types
import Vantage.Cursor.Blocks
import Vantage.Lib.Handler
import Vantage.Sequence.Store

/-!
# The cursor

The cursor puts out the blocks of one view after another. It may put out the core of a view as
soon as the view is completed, and the tips once it is sealed; a view whose blocks are missing
holds up everything behind it.

* `Ordered.expand`, `Ordered.emit`: the blocks that a manifest adds to the output;
* `Cursor.pump`: the loop over the views;
* `Cursor.call`, `Cursor.run`: the entry points, and sequences of them.
-/

namespace Vantage

/-- What is known about a view that has not been put out. -/
structure ViewInput (K D : Type) where
  completed : Option (Manifest K D × Manifest K D) := none
  sealed : Option (Outcome K D) := none

/-- What the cursor hands on. -/
inductive CursorEffect (K D : Type)
  | notifyCommitted (byWorker : Table ℕ (List D)) (headers : List (Header K D))
  | sequenceFinalized (view : ℕ) (outcome : SequenceOutcome K D) (outputDelta : List D)

/-- The output: its digests, those of the open view in order, and the last block per author. -/
structure Ordered (K D : Type) where
  genesis : D
  output : Finset D := {genesis}
  delta : List D := []
  watermarks : Table K (ℕ × D) := ∅

/-- What has been put out, and the views that wait. -/
structure Cursor (K D : Type) extends Ordered K D where
  nextView : ℕ := 1
  coreEmitted : Finset ℕ := ∅
  pending : Table ℕ (ViewInput K D) := ∅

variable {K D : Type} [DecidableEq K] [DecidableEq D]

/-! ### Output -/

/-- The digests that are not seen yet, each once. -/
def unseen (seen : Finset D) : List D → List D
  | [] => []
  | h :: hs => if h ∈ seen then unseen seen hs else h :: unseen (insert h seen) hs

namespace Ordered

def stopOf (s : Ordered K D) (author : K) : ℕ × D :=
  (s.watermarks.lookup author).getD (0, s.genesis)

/-- The blocks above the watermarks. An entry whose ancestry contradicts the output is dropped. -/
def suffixes (cache : BlockCache K D) (s : Ordered K D) :
    Manifest K D → Option (List (BlockRef K D × List D))
  | [] => some []
  | r :: rest =>
    if r.height ≤ (s.stopOf r.author).1 then suffixes cache s rest
    else
      match cache.classifySuffix (s.stopOf r.author).1 (s.stopOf r.author).2 r.digest with
      | .ready suffix => (suffixes cache s rest).map ((r, suffix) :: ·)
      | .pending => none
      | .forked => suffixes cache s rest

def moveTo (w : Table K (ℕ × D)) (found : List (BlockRef K D × List D)) : Table K (ℕ × D) :=
  found.foldl (fun w x => x.2.getLast?.elim w fun last => w.insert x.1.author (x.1.height, last)) w

/-- The new digests of a manifest, unless a block is missing. -/
def expand (cache : BlockCache K D) (m : Manifest K D) (s : Ordered K D) :
    Option (List D × Ordered K D) :=
  (s.suffixes cache m).map fun found =>
    (unseen s.output (found.flatMap Prod.snd), { s with watermarks := moveTo s.watermarks found })

def batchesByWorkerAndHeaders (cache : BlockCache K D) (hashes : List D) :
    Table ℕ (List D) × List (Header K D) :=
  let headers := hashes.filterMap fun h => (cache.lookup h).map (·.block)
  ((headers.flatMap (·.payload)).foldl
    (fun out x => out.insert x.2 ((out.lookup x.2).getD [] ++ [x.1])) ∅, headers)

def emit (cache : BlockCache K D) (hashes : List D) : Handler (Ordered K D) (CursorEffect K D) :=
  fun s =>
    if hashes = [] then (s, [])
    else
      let r := batchesByWorkerAndHeaders cache hashes
      ({ s with output := s.output ∪ hashes.toFinset, delta := s.delta ++ hashes },
        [.notifyCommitted r.1 r.2])

/-- Put out what a manifest adds. -/
def put (cache : BlockCache K D) (m : Manifest K D) (s : Ordered K D) :
    Option (Ordered K D × List (CursorEffect K D)) :=
  (s.expand cache m).map fun r => emit cache r.1 r.2

end Ordered

namespace Cursor

/-! ### The loop over the views -/

def finalize (o : SequenceOutcome K D) : Handler (Cursor K D) (CursorEffect K D) := fun cur =>
  ({ cur with
      delta := []
      pending := cur.pending.erase cur.nextView
      coreEmitted := cur.coreEmitted.erase cur.nextView
      nextView := cur.nextView + 1 },
    [.sequenceFinalized cur.nextView o cur.delta])

/-- Put out the core of the view, unless it is out already. -/
def emitCore (cache : BlockCache K D) (c : Manifest K D) (cur : Cursor K D) :
    Option (Cursor K D × List (CursorEffect K D)) :=
  if cur.nextView ∈ cur.coreEmitted then some (cur, [])
  else (cur.put cache c).map fun r =>
    ({ cur with toOrdered := r.1, coreEmitted := insert cur.nextView cur.coreEmitted }, r.2)

/-- Put out and finalize a sealed view; `false` if a block is missing. -/
def settle (cache : BlockCache K D) (cur : Cursor K D) :
    Outcome K D → Bool × Cursor K D × List (CursorEffect K D)
  | .full c t =>
    match cur.emitCore cache c with
    | none => (false, cur, [])
    | some r =>
      match r.1.put cache t with
      | none => (false, r)
      | some r' =>
        (true, (finalize (.full c t)).after ({ r.1 with toOrdered := r'.1 }, r.2 ++ r'.2))
  | .core c =>
    match cur.emitCore cache c with
    | none => (false, cur, [])
    | some r => (true, (finalize (.core c)).after r)
  | .skip => (true, finalize .skip cur)

/-- The core of a completed view, if its blocks are there. -/
def emitCompleted (cache : BlockCache K D) (input : ViewInput K D) :
    Handler (Cursor K D) (CursorEffect K D) := fun cur =>
  (input.completed.bind fun x => cur.emitCore cache x.1).getD (cur, [])

def pumpLoop (cache : BlockCache K D) : ℕ → Handler (Cursor K D) (CursorEffect K D)
  | 0, cur => (cur, [])
  | n + 1, cur =>
    match cur.pending.lookup cur.nextView with
    | none => (cur, [])
    | some input =>
      let r := emitCompleted cache input cur
      match input.sealed with
      | none => r
      | some o =>
        let r' := r.1.settle cache o
        if r'.1 then (pumpLoop cache n).after (r'.2.1, r.2 ++ r'.2.2)
        else (r'.2.1, r.2 ++ r'.2.2)

/-- Every round but the last takes a view out of `pending`, which bounds the loop. -/
def pump (cache : BlockCache K D) : Handler (Cursor K D) (CursorEffect K D) := fun cur =>
  pumpLoop cache (Table.size cur.pending) cur

/-- Note an input for a view that the cursor has not passed. -/
def note (cache : BlockCache K D) (view : ℕ) (f : ViewInput K D → ViewInput K D) :
    Handler (Cursor K D) (CursorEffect K D) := fun cur =>
  if view < cur.nextView then (cur, [])
  else
    pump cache { cur with
      pending := cur.pending.insert view (f ((cur.pending.lookup view).getD {})) }

def onCompleted (cache : BlockCache K D) (view : ℕ) (c t : Manifest K D) :
    Handler (Cursor K D) (CursorEffect K D) :=
  note cache view fun i => { i with completed := some (c, t) }

def onSealed (cache : BlockCache K D) (view : ℕ) (o : Outcome K D) :
    Handler (Cursor K D) (CursorEffect K D) :=
  note cache view fun i => { i with sealed := some o }

def retry (cache : BlockCache K D) : Handler (Cursor K D) (CursorEffect K D) := pump cache

/-- The calls of the cursor. -/
inductive Call (K D : Type)
  | completed (view : ℕ) (c t : Manifest K D)
  | sealed (view : ℕ) (o : Outcome K D)
  | retry

def call (cache : BlockCache K D) : Call K D → Handler (Cursor K D) (CursorEffect K D)
  | .completed view c t => onCompleted cache view c t
  | .sealed view o => onSealed cache view o
  | .retry => retry cache

/-- Calls one after another, each with the blocks that are cached at the time. -/
def run (genesis : D) (calls : List (BlockCache K D × Call K D)) :
    Cursor K D × List (CursorEffect K D) :=
  Handler.forEach calls (fun x => call x.1 x.2) { genesis }

end Cursor

end Vantage
