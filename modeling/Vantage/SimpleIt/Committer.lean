import Mathlib.Data.Finset.Sort
import Vantage.Cursor.Blocks
import Vantage.Lib.Handler

/-!
# From committed cuts to headers

Committed cuts wait in a queue by round.  The lowest one is taken out once the blocks of all its
tips above the author's last emitted block are there.

* `Committer.drain_removes`: a cut whose tips are held is taken out exactly when they continue what
  was emitted;
* `Committer.fork_blocks`: a tip on another branch blocks the queue.
-/

namespace Vantage

/-- The verified suffix above the stop coordinate; missing blocks and forks have none. -/
def BlockCache.collectVerifiedSuffix {K D : Type} [DecidableEq K] [DecidableEq D]
    (cache : BlockCache K D) (stopHeight : ℕ) (stopDigest h : D) : Option (List D) :=
  match cache.classifySuffix stopHeight stopDigest h with
  | .ready chain => some chain
  | .pending => none
  | .forked => none

namespace SimpleIt

/-- A lane tip. -/
structure Proposal (D : Type) where
  headerDigest : D
  height : ℕ
  deriving DecidableEq

/-- A snapshot of lane tips, at most one for each author, in the order of the authors. -/
structure Cut (K D : Type) [LinearOrder K] where
  tips : List (K × Proposal D)
  sorted : (tips.map Prod.fst).SortedLT
  deriving DecidableEq

variable {K D : Type} [LinearOrder K] [DecidableEq D]

/-- The height and the digest of the last emitted tip of each author. -/
abbrev Watermarks (K D : Type) : Type := Table K (ℕ × D)

/-- The part of a node that turns committed cuts into headers. -/
structure Committer (K D : Type) [LinearOrder K] where
  blocks : BlockCache K D := ∅
  committedWatermark : Watermarks K D := ∅
  commitQueue : Table ℕ (Cut K D) := ∅

/-- The blocks of a tip above the author's watermark. -/
structure ResolvedTip (K D : Type) where
  author : K
  height : ℕ
  digest : D
  suffix : List D

namespace Committer

variable (genesis : D)

/-- Where the walk below a tip of the author ends; the genesis before anything was emitted. -/
def stopOf (w : Watermarks K D) (author : K) : ℕ × D := (w.lookup author).getD (0, genesis)

/-- Find the suffix of every tip above the watermarks, before any watermark moves. -/
def resolveTips (blocks : BlockCache K D) (w : Watermarks K D) :
    List (K × Proposal D) → Option (List (ResolvedTip K D))
  | [] => some []
  | (author, proposal) :: tips =>
    let stop := stopOf genesis w author
    if proposal.height ≤ stop.1 then resolveTips blocks w tips
    else
      match blocks.collectVerifiedSuffix stop.1 stop.2 proposal.headerDigest with
      | none => none
      | some suffix =>
        (resolveTips blocks w tips).map
          (⟨author, proposal.height, proposal.headerDigest, suffix⟩ :: ·)

/-- The cached blocks of the suffixes, tip by tip. -/
def headersOf (blocks : BlockCache K D) (resolved : List (ResolvedTip K D)) : List (Header K D) :=
  resolved.flatMap fun r => r.suffix.filterMap fun d => (blocks.lookup d).map (·.block)

/-- The tips are the new watermarks of their authors. -/
def moveTo (w : Watermarks K D) (resolved : List (ResolvedTip K D)) : Watermarks K D :=
  resolved.foldl (fun w r => w.insert r.author (r.height, r.digest)) w

/-- The headers of a cut and the watermarks after it, if every suffix is there. -/
def tryExpandCommit (blocks : BlockCache K D) (w : Watermarks K D) (proposals : Cut K D) :
    Option (List (Header K D) × Watermarks K D) :=
  (resolveTips genesis blocks w proposals.tips).map fun resolved =>
    (headersOf blocks resolved, moveTo w resolved)

/-- The lowest queued round with its cut. -/
def lowest (s : Committer K D) : Option (ℕ × Cut K D) :=
  s.commitQueue.sortedKeys.head?.bind fun round =>
    (s.commitQueue.lookup round).map fun proposals => (round, proposals)

/-- Take out the lowest round as long as it can be expanded. -/
def drainLoop : ℕ → Handler (Committer K D) (Header K D)
  | 0, s => (s, [])
  | n + 1, s =>
    match s.lowest with
    | none => (s, [])
    | some (round, proposals) =>
      match tryExpandCommit genesis s.blocks s.committedWatermark proposals with
      | none => (s, [])
      | some (headers, w) =>
        (drainLoop n).after
          ({ s with commitQueue := s.commitQueue.erase round, committedWatermark := w }, headers)

/-- Every iteration takes out a round, so their number bounds the loop. -/
def drainCommitQueue : Handler (Committer K D) (Header K D) := fun s =>
  drainLoop genesis s.commitQueue.size s

end Committer

/-! ### The blocks below a tip -/

/-- A verified chain of parents of one author, from a coordinate down to another. -/
inductive VerifiedChain (cache : BlockCache K D) (author : K) (stop : ℕ × D) : ℕ × D → Prop
  | stop : VerifiedChain cache author stop stop
  | step {height : ℕ} {d : D} {e : BlockEntry K D} (he : cache.lookup d = some e)
      (ha : e.block.author = author) (hh : e.block.height = height + 1)
      (hv : e.blockOkVerified = true)
      (h : VerifiedChain cache author stop (height, e.block.parent)) :
      VerifiedChain cache author stop (height + 1, d)

/-- The parents below a coordinate lead through another one. -/
inductive PassesThrough (cache : BlockCache K D) (stop : ℕ × D) : ℕ × D → Prop
  | here : PassesThrough cache stop stop
  | step {height : ℕ} {d : D} {e : BlockEntry K D} (he : cache.lookup d = some e)
      (h : PassesThrough cache stop (height, e.block.parent)) :
      PassesThrough cache stop (height + 1, d)

/-- The tip is cached with its whole verified chain to genesis. -/
def Held (cache : BlockCache K D) (genesis d : D) : Prop :=
  ∃ e, cache.lookup d = some e ∧
    VerifiedChain cache e.block.author (0, genesis) (e.block.height, d)

/-- The chain of the tip leads through a coordinate. -/
def Continues (cache : BlockCache K D) (stop : ℕ × D) (d : D) : Prop :=
  ∃ e, cache.lookup d = some e ∧ PassesThrough cache stop (e.block.height, d)

section Walk

variable {cache : BlockCache K D} {author : K} {stop : ℕ × D} {genesis : D}

omit [LinearOrder K] in
theorem PassesThrough.le {c : ℕ × D} (h : PassesThrough cache stop c) : stop.1 ≤ c.1 := by
  induction h with
  | here => exact le_rfl
  | step _ _ ih => exact Nat.le_succ_of_le ih

theorem walk_of_passesThrough {c : ℕ × D} (hchain : VerifiedChain cache author (0, genesis) c)
    (hpass : PassesThrough cache stop c) (chain : List D) :
    ∃ suffix, cache.walk author stop.1 stop.2 c.1 c.2 chain = .ready suffix := by
  induction hpass generalizing chain with
  | here =>
    refine ⟨chain, ?_⟩
    obtain ⟨height, d⟩ := stop
    cases height <;> simp [BlockCache.walk]
  | @step height d e he hpass ih =>
    cases hchain with
    | step he' ha hh hv hrest =>
      obtain rfl : e = _ := Option.some.inj (he.symm.trans he')
      have hne : height + 1 ≠ stop.1 := Nat.ne_of_gt (Nat.lt_succ_of_le hpass.le)
      obtain ⟨suffix, hsuffix⟩ := ih hrest (d :: chain)
      refine ⟨suffix, ?_⟩
      rw [BlockCache.walk, if_neg hne, he]
      simp only [BlockEntry.pinnedAt, ha, hh, hv, decide_true, Bool.and_true, Bool.not_true,
        Bool.false_eq_true, if_false]
      exact hsuffix

/-- A walk that ends well has come through the stop coordinate. -/
theorem passesThrough_of_walk {height : ℕ} {d : D} {chain suffix : List D}
    (h : cache.walk author stop.1 stop.2 height d chain = .ready suffix) :
    PassesThrough cache stop (height, d) := by
  have hhere : ∀ height d, height = stop.1 → ¬ d ≠ stop.2 →
      PassesThrough cache stop (height, d) := by
    intro height d hheight hd
    rw [show (height, d) = stop from Prod.ext hheight (not_not.mp hd)]
    exact .here
  induction height generalizing d chain with
  | zero =>
    rw [BlockCache.walk] at h
    split_ifs at h with hstop hd
    exact hhere 0 d hstop hd
  | succ height ih =>
    rw [BlockCache.walk] at h
    split_ifs at h with hstop hd
    · exact hhere (height + 1) d hstop hd
    · cases he : cache.lookup d with
      | none => simp [he] at h
      | some e =>
        simp only [he] at h
        split_ifs at h
        exact .step he (ih h)

theorem continues_of_collectVerifiedSuffix {d : D} {suffix : List D}
    (h : cache.collectVerifiedSuffix stop.1 stop.2 d = some suffix) : Continues cache stop d := by
  unfold BlockCache.collectVerifiedSuffix BlockCache.classifySuffix at h
  cases he : cache.lookup d with
  | none => simp [he] at h
  | some e =>
    simp only [he] at h
    cases hwalk : cache.walk e.block.author stop.1 stop.2 e.block.height d [] with
    | ready suffix => exact ⟨e, he, passesThrough_of_walk hwalk⟩
    | pending => simp [hwalk] at h
    | forked => simp [hwalk] at h

theorem collectVerifiedSuffix_of_held {d : D} (hheld : Held cache genesis d)
    (hcont : Continues cache stop d) :
    ∃ suffix, cache.collectVerifiedSuffix stop.1 stop.2 d = some suffix := by
  obtain ⟨e, he, hchain⟩ := hheld
  obtain ⟨e', he', hpass⟩ := hcont
  obtain rfl : e = e' := Option.some.inj (he.symm.trans he')
  obtain ⟨suffix, hsuffix⟩ := walk_of_passesThrough hchain hpass []
  refine ⟨suffix, ?_⟩
  rw [BlockCache.collectVerifiedSuffix, BlockCache.classifySuffix, he]
  dsimp only
  rw [hsuffix]

omit [LinearOrder K] in
theorem VerifiedChain.passesThrough {c : ℕ × D} (h : VerifiedChain cache author stop c) :
    PassesThrough cache stop c := by
  induction h with
  | stop => exact .here
  | step he _ _ _ _ ih => exact .step he ih

end Walk

namespace Committer

variable {genesis : D} {s : Committer K D}

/-- Every tip above its author's watermark continues the emitted chain of that author. -/
def ContinuesEmitted (s : Committer K D) (proposals : Cut K D) : Prop :=
  ∀ x ∈ proposals.tips, ∀ stop, s.committedWatermark.lookup x.1 = some stop →
    stop.1 < x.2.height → Continues s.blocks stop x.2.headerDigest

theorem resolveTips_of_held {tips : List (K × Proposal D)}
    (hheld : ∀ x ∈ tips, Held s.blocks genesis x.2.headerDigest)
    (hcont : ∀ x ∈ tips, ∀ stop, s.committedWatermark.lookup x.1 = some stop →
      stop.1 < x.2.height → Continues s.blocks stop x.2.headerDigest) :
    ∃ rs, resolveTips genesis s.blocks s.committedWatermark tips = some rs := by
  induction tips with
  | nil => exact ⟨[], rfl⟩
  | cons x tips ih =>
    obtain ⟨rs, hrs⟩ := ih (fun y hy => hheld y (List.mem_cons_of_mem _ hy))
      fun y hy => hcont y (List.mem_cons_of_mem _ hy)
    rw [resolveTips]
    split
    · exact ⟨rs, hrs⟩
    · next hgt =>
      have hx := hheld x List.mem_cons_self
      -- without a watermark the stop coordinate is the genesis, where the held chain ends
      have hthrough : Continues s.blocks (stopOf genesis s.committedWatermark x.1)
          x.2.headerDigest := by
        unfold stopOf at hgt ⊢
        cases hw : s.committedWatermark.lookup x.1 with
        | none =>
          obtain ⟨e, he, hchain⟩ := hx
          exact ⟨e, he, hchain.passesThrough⟩
        | some stop =>
          rw [hw] at hgt
          exact hcont x List.mem_cons_self stop hw (not_le.mp hgt)
      obtain ⟨suffix, hsuffix⟩ := collectVerifiedSuffix_of_held hx hthrough
      rw [hsuffix, hrs]
      exact ⟨_, rfl⟩

/-- Tips whose suffixes were all found continue what was emitted. -/
theorem continues_of_resolveTips {tips : List (K × Proposal D)} {rs : List (ResolvedTip K D)}
    (h : resolveTips genesis s.blocks s.committedWatermark tips = some rs)
    {x : K × Proposal D} (hx : x ∈ tips) {stop : ℕ × D}
    (hstop : s.committedWatermark.lookup x.1 = some stop) (hlt : stop.1 < x.2.height) :
    Continues s.blocks stop x.2.headerDigest := by
  induction tips generalizing rs with
  | nil => cases hx
  | cons y tips ih =>
    rw [resolveTips] at h
    split_ifs at h with hle
    · rcases List.mem_cons.mp hx with rfl | hx
      · rw [stopOf, hstop, Option.getD_some] at hle
        omega
      · exact ih h hx
    · cases hsuffix : s.blocks.collectVerifiedSuffix (stopOf genesis s.committedWatermark y.1).1
          (stopOf genesis s.committedWatermark y.1).2 y.2.headerDigest with
      | none => simp [hsuffix] at h
      | some suffix =>
        simp only [hsuffix, Option.map_eq_some_iff] at h
        obtain ⟨rest, hrest, -⟩ := h
        rcases List.mem_cons.mp hx with rfl | hx
        · rw [stopOf, hstop, Option.getD_some] at hsuffix
          exact continues_of_collectVerifiedSuffix hsuffix
        · exact ih hrest hx

theorem lookup_drainLoop {n round : ℕ} (h : s.commitQueue.lookup round = none) :
    (drainLoop genesis n s).1.commitQueue.lookup round = none := by
  induction n generalizing s with
  | zero => exact h
  | succ n ih =>
    rw [drainLoop]
    split
    · exact h
    · next lowRound proposals hlow =>
      split
      · exact h
      · refine ih ?_
        by_cases hr : round = lowRound
        · subst hr
          exact AList.lookup_erase ..
        · exact (AList.lookup_erase_ne hr).trans h

/-- The first iteration decides: the lowest round goes if its cut can be expanded, and else the
loop ends at once. -/
theorem drain_removes_iff_expands {round : ℕ} {proposals : Cut K D}
    (hlow : s.lowest = some (round, proposals)) :
    (drainCommitQueue genesis s).1.commitQueue.lookup round = none ↔
      ∃ rs, resolveTips genesis s.blocks s.committedWatermark proposals.tips = some rs := by
  obtain ⟨r, hr, hlookup⟩ := Option.bind_eq_some_iff.mp hlow
  obtain ⟨cut, hcut, heq⟩ := Option.map_eq_some_iff.mp hlookup
  obtain ⟨rfl, rfl⟩ := Prod.mk.inj heq
  have hsize : ∃ n, s.commitQueue.size = n + 1 := by
    refine Nat.exists_eq_succ_of_ne_zero fun hzero => ?_
    have hlen : s.commitQueue.sortedKeys.length = 0 := (List.length_insertionSort _ _).trans hzero
    rw [List.length_eq_zero_iff.mp hlen] at hr
    cases hr
  obtain ⟨n, hn⟩ := hsize
  rw [drainCommitQueue, hn, drainLoop, hlow]
  dsimp only
  cases hrs : resolveTips genesis s.blocks s.committedWatermark cut.tips with
  | none => simp [tryExpandCommit, hrs, hcut]
  | some rs =>
    have hgone : (drainLoop genesis n ⟨s.blocks, moveTo s.committedWatermark rs,
        s.commitQueue.erase r⟩).1.commitQueue.lookup r = none :=
      lookup_drainLoop (AList.lookup_erase ..)
    simpa [tryExpandCommit, hrs] using hgone

/-- If every tip of the lowest queued round is held with its whole chain to genesis, then the round
is taken out exactly when the tips continue what was emitted of their authors. -/
theorem drain_removes {round : ℕ} {proposals : Cut K D} (hlow : s.lowest = some (round, proposals))
    (hheld : ∀ x ∈ proposals.tips, Held s.blocks genesis x.2.headerDigest) :
    (drainCommitQueue genesis s).1.commitQueue.lookup round = none ↔
      s.ContinuesEmitted proposals := by
  rw [drain_removes_iff_expands hlow]
  constructor
  · rintro ⟨rs, hrs⟩ x hx stop hstop hlt
    exact continues_of_resolveTips hrs hx hstop hlt
  · exact resolveTips_of_held hheld

/-! ### A fork -/

/-- An author emits block 1 and extends block 2 instead, by block 3; the queue names block 3. -/
def forkedCommitter : Committer (Fin 1) ℕ where
  blocks := (((∅ : BlockCache (Fin 1) ℕ).upsert ⟨1, 0, 1, 0, []⟩ true true).upsert
    ⟨2, 0, 1, 0, []⟩ true true).upsert ⟨3, 0, 2, 2, []⟩ true true
  committedWatermark := (∅ : Watermarks (Fin 1) ℕ).insert 0 (1, 1)
  commitQueue := (∅ : Table ℕ (Cut (Fin 1) ℕ)).insert 7
    ⟨[(0, ⟨3, 2⟩)], (List.pairwise_singleton _ _).sortedLT⟩

/-- The same, with a queue that names a block above the emitted one. -/
def continuedCommitter : Committer (Fin 1) ℕ where
  blocks := ((∅ : BlockCache (Fin 1) ℕ).upsert ⟨1, 0, 1, 0, []⟩ true true).upsert
    ⟨2, 0, 2, 1, []⟩ true true
  committedWatermark := (∅ : Watermarks (Fin 1) ℕ).insert 0 (1, 1)
  commitQueue := (∅ : Table ℕ (Cut (Fin 1) ℕ)).insert 7
    ⟨[(0, ⟨2, 2⟩)], (List.pairwise_singleton _ _).sortedLT⟩

theorem drain_removes_continuedCommitter :
    (drainCommitQueue 0 continuedCommitter).1.commitQueue.lookup 7 = none := by
  have hlow : continuedCommitter.lowest =
      some (7, ⟨[(0, ⟨2, 2⟩)], (List.pairwise_singleton _ _).sortedLT⟩) := rfl
  refine (drain_removes hlow ?_).mpr ?_
  · intro x hx
    obtain rfl := List.mem_singleton.mp hx
    exact ⟨_, rfl, .step rfl rfl rfl rfl (.step rfl rfl rfl rfl .stop)⟩
  · intro x hx stop hstop _
    obtain rfl := List.mem_singleton.mp hx
    obtain rfl := Option.some.inj hstop
    exact ⟨_, rfl, .step rfl .here⟩

/-- A tip on another branch blocks the queue, although its whole chain is held. -/
theorem fork_blocks :
    (∃ proposals, forkedCommitter.lowest = some (7, proposals) ∧
      ∀ x ∈ proposals.tips, Held forkedCommitter.blocks 0 x.2.headerDigest) ∧
      (drainCommitQueue 0 forkedCommitter).1.commitQueue.lookup 7 ≠ none := by
  refine ⟨⟨_, rfl, fun x hx => ?_⟩, by decide⟩
  obtain rfl := List.mem_singleton.mp hx
  exact ⟨_, rfl, .step rfl rfl rfl rfl (.step rfl rfl rfl rfl .stop)⟩

end Committer

end SimpleIt

end Vantage
