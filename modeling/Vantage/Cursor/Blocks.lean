import Vantage.Lib.Table
import Vantage.Basic

/-!
# The block cache and the walk below a block

Blocks of one author form a chain of parents. The cursor walks from a named block down to the
author's last emitted block, and learns that the blocks between are ready, that something is
still missing, or that the two lie on different chains.

* `Header`, `BlockEntry`, `BlockCache`: the cached blocks;
* `BlockCache.classifySuffix`: the walk;
* `BlockSet`: all blocks there are, one for each digest.
-/

namespace Vantage

/-- What the cursor reads of a block. -/
structure Header (K D : Type) where
  id : D
  author : K
  height : ℕ
  parent : D
  payload : List (D × ℕ)
  deriving DecidableEq

/-- A cached block, whether its batches are present and whether it passed `block_ok`. -/
structure BlockEntry (K D : Type) where
  block : Header K D
  payloadOk : Bool
  blockOkVerified : Bool

/-- The author and the height that a walk expects. -/
def BlockEntry.pinnedAt {K D : Type} [DecidableEq K] (e : BlockEntry K D) (author : K)
    (expectedHeight : ℕ) : Bool :=
  decide (e.block.author = author) && decide (e.block.height = expectedHeight)

/-- The blocks by digest. -/
abbrev BlockCache (K D : Type) : Type := Table D (BlockEntry K D)

/-- The result of a walk towards the stop coordinate. -/
inductive SuffixWalk (D : Type)
  | ready (suffix : List D)
  | pending
  | forked
  deriving DecidableEq

namespace BlockCache

variable {K D : Type} [DecidableEq K] [DecidableEq D]

/-- Insert a block; its flags only ever get set. -/
def upsert (cache : BlockCache K D) (block : Header K D) (payloadOk blockOkVerified : Bool) :
    BlockCache K D :=
  match cache.lookup block.id with
  | none => cache.insert block.id ⟨block, payloadOk, blockOkVerified⟩
  | some e => cache.insert block.id
      ⟨block, e.payloadOk || payloadOk, e.blockOkVerified || blockOkVerified⟩

/-- Walk down from `cur`, which is expected at the given height. The expected height goes down
with every step, so parent cycles end as well. -/
def walk (cache : BlockCache K D) (author : K) (stopHeight : ℕ) (stopDigest : D) :
    ℕ → D → List D → SuffixWalk D
  | 0, cur, chain =>
    -- at height 0 there is nothing below, so any other stop coordinate was missed
    if 0 = stopHeight then
      if cur ≠ stopDigest then .forked else .ready chain
    else .forked
  | expected + 1, cur, chain =>
    if expected + 1 = stopHeight then
      if cur ≠ stopDigest then .forked else .ready chain
    else
      match cache.lookup cur with
      | none => .pending
      | some e =>
        if !e.pinnedAt author (expected + 1) then .pending
        else if !e.blockOkVerified then .pending
        else walk cache author stopHeight stopDigest expected e.block.parent (cur :: chain)

/-- Tell missing data from ancestry that contradicts the stop coordinate. -/
def classifySuffix (cache : BlockCache K D) (stopHeight : ℕ) (stopDigest h : D) : SuffixWalk D :=
  match cache.lookup h with
  | none => .pending
  | some start =>
    cache.walk start.block.author stopHeight stopDigest start.block.height h []

end BlockCache

/-- All blocks there are. The digest of a block determines it. -/
structure BlockSet (K D : Type) where
  header : D → Option (Header K D)
  id_of_header : ∀ {d h}, header d = some h → h.id = d

end Vantage
