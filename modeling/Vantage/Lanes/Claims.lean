import Mathlib.Data.Prod.Lex
import Mathlib.Data.List.Forall2
import Mathlib.Data.List.ReduceOption
import Vantage.Agb.Types
import Vantage.Cursor.Blocks

/-!
# Availability claims

A claim says for the references of a proposal, by position, which ones the sender received from
their author: a bitmap for the references themselves, and a list of distances for ancestors. The
receiver validates it and reads statements off it.

* `withCapacity`, `setAtTip`, `pushShort`: the parts of a claim;
* `DirectLanes`, `prefixContains`, `buildAvailClaimForRefs`: how a claim is made.
-/

namespace Vantage

def ClaimRef.isExact {K D : Type} : ClaimRef K D → Bool
  | .exact _ => true
  | .ancestor _ _ => false

/-! ### Making a claim -/

namespace AvailClaim

def withCapacity (len : ℕ) : AvailClaim := ⟨List.replicate ((len + 63) / 64) 0#64, []⟩

def setAtTip (claim : AvailClaim) (lane : ℕ) : AvailClaim :=
  match claim.atTip[lane / 64]? with
  | none => claim
  | some word =>
    { claim with atTip := claim.atTip.set (lane / 64) (word ||| (1#64 <<< (lane % 64))) }

/-- Add a short claim unless its lane, its distance or another claim for the lane rules it out. -/
def pushShort (claim : AvailClaim) (lane delta : ℕ) : Bool × AvailClaim :=
  if delta = 0 ∨ claim.isAtTip lane ∨ 65535 < lane ∨ claim.short.any (·.lane = lane) then
    (false, claim)
  else (true, { claim with short := claim.short ++ [⟨lane % 65536, delta⟩] })

end AvailClaim

def BlockRef.key {K D : Type} (r : BlockRef K D) : K ×ₗ ℕ ×ₗ D :=
  toLex (r.author, toLex (r.height, r.digest))

/-- What a claim is made from: the cached blocks, and the directly published references in
increasing order. -/
structure DirectLanes (K D : Type) [LinearOrder K] [LinearOrder D] where
  blocks : BlockCache K D
  genesis : D
  directPubRefs : List (BlockRef K D)
  increasing : directPubRefs.Pairwise fun r r' => r.key < r'.key

namespace DirectLanes

variable {K D : Type} [LinearOrder K] [LinearOrder D]

/-- The walk of `prefix_contains`: the author is pinned, and the expected height goes down. -/
def containsWalk (s : DirectLanes K D) (author : K) (target : ℕ × D) : ℕ → D → Bool
  | 0, _ => false
  | expected + 1, cur =>
    if cur = s.genesis then false
    else
      match s.blocks.lookup cur with
      | none => false
      | some e =>
        if !e.pinnedAt author (expected + 1) || !e.blockOkVerified then false
        else if expected + 1 = target.1 then decide (cur = target.2)
        else containsWalk s author target expected e.block.parent

/-- Whether `r` contains `target` at its exact height and digest. -/
def prefixContains (s : DirectLanes K D) (r target : BlockRef K D) : Bool :=
  if r.author ≠ target.author ∨ r.height < target.height then false
  else s.containsWalk r.author (target.height, target.digest) r.height r.digest

/-- The greatest directly published strict ancestor on the branch of `anchor`: the references of
its author from the last one down. -/
def greatestDirectAncestor (s : DirectLanes K D) (anchor : BlockRef K D) :
    Option (BlockRef K D) :=
  ((s.directPubRefs.filter fun r => decide (r.author = anchor.author)).reverse.filter fun r =>
    decide (r.height < anchor.height)).find? (s.prefixContains anchor)

/-- Claim every reference that was directly published, or its greatest ancestor that was. -/
def buildLoop (s : DirectLanes K D) : ℕ → List (BlockRef K D) → AvailClaim → AvailClaim
  | _, [], claim => claim
  | j, r :: refs, claim =>
    if r ∈ s.directPubRefs then s.buildLoop (j + 1) refs (claim.setAtTip j)
    else
      match s.greatestDirectAncestor r with
      | none => s.buildLoop (j + 1) refs claim
      | some ancestor =>
        s.buildLoop (j + 1) refs (claim.pushShort j (r.height - ancestor.height)).2

def buildAvailClaimForRefs (s : DirectLanes K D) (refs : List (BlockRef K D)) : AvailClaim :=
  s.buildLoop 0 refs (.withCapacity refs.length)

end DirectLanes

/-! ### The bitmap -/

namespace AvailClaim

variable {claim : AvailClaim} {j lane : ℕ}

def exactFrom {K D : Type} (claim : AvailClaim) (j : ℕ) (refs : List (BlockRef K D)) :
    List (ClaimRef K D) :=
  (refs.zipIdx j).filterMap fun p => if claim.isAtTip p.2 then some (.exact p.1) else none

theorem exactFrom_cons {K D : Type} (r : BlockRef K D) (refs : List (BlockRef K D)) :
    claim.exactFrom j (r :: refs) =
      if claim.isAtTip j then .exact r :: claim.exactFrom (j + 1) refs
      else claim.exactFrom (j + 1) refs := by
  rw [exactFrom, List.zipIdx_cons, List.filterMap_cons]
  split_ifs <;> rfl

theorem isAtTip_congr {other : AvailClaim} (h : claim.atTip = other.atTip) :
    claim.isAtTip j = other.isAtTip j := by
  rw [isAtTip, isAtTip, h]

@[simp] theorem length_setAtTip : (claim.setAtTip lane).atTip.length = claim.atTip.length := by
  unfold setAtTip
  split <;> simp

@[simp] theorem short_setAtTip : (claim.setAtTip lane).short = claim.short := by
  unfold setAtTip
  split <;> rfl

theorem isAtTip_setAtTip (h : lane / 64 < claim.atTip.length) (j : ℕ) :
    (claim.setAtTip lane).isAtTip j = (decide (j = lane) || claim.isAtTip j) := by
  have hword := List.getElem?_eq_getElem h
  rw [isAtTip, isAtTip, setAtTip, hword]
  simp only
  by_cases hw : j / 64 = lane / 64
  · have hbit : (j % 64 = lane % 64) ↔ j = lane := by omega
    have hlt : j % 64 < 64 := Nat.mod_lt j (by decide)
    rw [hw, List.getElem?_set_self h, hword]
    simp [← BitVec.twoPow_eq, hlt, ← hbit, Bool.or_comm, eq_comm]
  · have hne : j ≠ lane := fun he => hw (by rw [he])
    rw [List.getElem?_set_ne (Ne.symm hw)]
    simp [hne]

theorem isAtTip_withCapacity (len j : ℕ) : (withCapacity len).isAtTip j = false := by
  rw [isAtTip, withCapacity]
  simp only [List.getElem?_replicate]
  split <;> simp

end AvailClaim

/-! ### The parent chain -/

namespace DirectLanes

variable {K D : Type} [LinearOrder K] [LinearOrder D] {s : DirectLanes K D}

/-- A verified cached block of the author at a height. -/
def BlockAt (s : DirectLanes K D) (author : K) (height : ℕ) (d : D) (e : BlockEntry K D) : Prop :=
  d ≠ s.genesis ∧ 1 ≤ height ∧ s.blocks.lookup d = some e ∧ e.block.author = author ∧
    e.block.height = height ∧ e.blockOkVerified = true

/-- The second coordinate lies on the parent chain of the first one. -/
inductive OnChain (s : DirectLanes K D) (author : K) : ℕ → D → ℕ → D → Prop
  | here {height : ℕ} {d : D} {e : BlockEntry K D} (h : s.BlockAt author height d e) :
      OnChain s author height d height d
  | parent {height height' : ℕ} {d d' : D} {e : BlockEntry K D}
      (h : s.BlockAt author (height + 1) d e)
      (hrest : OnChain s author height e.block.parent height' d') :
      OnChain s author (height + 1) d height' d'

theorem OnChain.height_le {author : K} {height height' : ℕ} {d d' : D}
    (h : s.OnChain author height d height' d') : 1 ≤ height' ∧ height' ≤ height := by
  induction h with
  | here h => exact ⟨h.2.1, le_rfl⟩
  | parent _ _ ih => omega

theorem containsWalk_iff {author : K} {target : ℕ × D} {height : ℕ} {d : D} :
    s.containsWalk author target height d = true ↔
      s.OnChain author height d target.1 target.2 := by
  induction height generalizing d with
  | zero =>
    refine iff_of_false (by simp [containsWalk]) fun h => ?_
    have := h.height_le
    omega
  | succ height ih =>
    constructor
    · intro h
      by_cases hgen : d = s.genesis
      · rw [containsWalk, if_pos hgen] at h
        cases h
      rw [containsWalk, if_neg hgen] at h
      split at h
      · cases h
      · next e he =>
        split at h
        · cases h
        · next hbad =>
          simp only [BlockEntry.pinnedAt, Bool.or_eq_true, Bool.not_eq_eq_eq_not, Bool.not_true,
            not_or, Bool.not_eq_false, Bool.and_eq_true, decide_eq_true_eq] at hbad
          have hat : s.BlockAt author (height + 1) d e :=
            ⟨hgen, Nat.succ_pos height, he, hbad.1.1, hbad.1.2, hbad.2⟩
          split_ifs at h with htop
          · rw [← htop, ← of_decide_eq_true h]
            exact .here hat
          · exact .parent hat (ih.mp h)
    · intro h
      rw [containsWalk]
      generalize htarget : target.1 = height' at h
      generalize hdigest : target.2 = d' at h
      cases h with
      | here h =>
        obtain ⟨hgen, -, he, ha, hh, hok⟩ := h
        simp [hgen, he, BlockEntry.pinnedAt, ha, hh, hok]
      | parent h hrest =>
        have hle := hrest.height_le.2
        obtain ⟨hgen, -, he, ha, hh, hok⟩ := h
        rw [if_neg hgen, he]
        simp only [BlockEntry.pinnedAt, ha, hh, hok]
        simp only [decide_true, Bool.and_self, Bool.not_true, Bool.or_self, Bool.false_eq_true,
          if_false]
        rw [if_neg (by omega), ih, htarget, hdigest]
        exact hrest

theorem prefixContains_iff {r target : BlockRef K D} :
    s.prefixContains r target = true ↔ target.author = r.author ∧
      s.OnChain r.author r.height r.digest target.height target.digest := by
  unfold prefixContains
  split_ifs with h
  · refine iff_of_false (by simp) fun ⟨ha, hc⟩ => ?_
    have := hc.height_le.2
    rcases h with h | h
    · exact h ha.symm
    · omega
  · rw [containsWalk_iff]
    simp only [ne_eq, not_or, Decidable.not_not] at h
    exact ⟨fun hc => ⟨h.1.symm, hc⟩, And.right⟩

/-- A directly published strict ancestor of `r` on its own parent chain. -/
def DirectAncestor (s : DirectLanes K D) (r a : BlockRef K D) : Prop :=
  a ∈ s.directPubRefs ∧ a.author = r.author ∧ a.height < r.height ∧
    s.OnChain r.author r.height r.digest a.height a.digest

theorem mem_candidates {r a : BlockRef K D} :
    a ∈ (s.directPubRefs.filter fun x => decide (x.author = r.author)).reverse.filter
        (fun x => decide (x.height < r.height)) ↔
      a ∈ s.directPubRefs ∧ a.author = r.author ∧ a.height < r.height := by
  simp only [List.mem_filter, List.mem_reverse, decide_eq_true_eq, and_assoc]

theorem greatestDirectAncestor_spec (s : DirectLanes K D) (r : BlockRef K D) :
    match s.greatestDirectAncestor r with
    | none => ∀ a, ¬s.DirectAncestor r a
    | some a => s.DirectAncestor r a ∧ ∀ b, s.DirectAncestor r b → b.height ≤ a.height := by
  have hdesc : ((s.directPubRefs.filter fun x => decide (x.author = r.author)).reverse.filter
      (fun x => decide (x.height < r.height))).Pairwise fun x y => y.height ≤ x.height := by
    refine List.Pairwise.filter _ (List.pairwise_reverse.mpr ?_)
    refine ((s.increasing.filter _).imp_of_mem fun {x y} hx hy hlt => ?_)
    have hauthor : x.author = y.author := by
      simp only [List.mem_filter, decide_eq_true_eq] at hx hy
      rw [hx.2, hy.2]
    rw [BlockRef.key, BlockRef.key, Prod.Lex.toLex_lt_toLex, Prod.Lex.toLex_lt_toLex] at hlt
    rcases hlt with hlt | ⟨-, hlt | ⟨heq, -⟩⟩
    · exact absurd hauthor hlt.ne
    · exact hlt.le
    · exact heq.le
  unfold greatestDirectAncestor
  split
  · next hnone =>
    rintro a ⟨hmem, ha, hlt, hchain⟩
    exact List.find?_eq_none.mp hnone a (mem_candidates.mpr ⟨hmem, ha, hlt⟩)
      (prefixContains_iff.mpr ⟨ha, hchain⟩)
  · next a hsome =>
    obtain ⟨hcontains, before, after, hsplit, hbefore⟩ := List.find?_eq_some_iff_append.mp hsome
    have hmem : a ∈ before ++ a :: after := by simp
    rw [← hsplit, mem_candidates] at hmem
    refine ⟨⟨hmem.1, hmem.2.1, hmem.2.2, (prefixContains_iff.mp hcontains).2⟩, ?_⟩
    rintro b ⟨hb, hba, hlt, hchain⟩
    have hb' := mem_candidates.mpr ⟨hb, hba, hlt⟩
    rw [hsplit, List.mem_append, List.mem_cons] at hb'
    rw [hsplit, List.pairwise_append, List.pairwise_cons] at hdesc
    rcases hb' with hbefore' | rfl | hafter
    · have := hbefore b hbefore'
      rw [prefixContains_iff.mpr ⟨hba, hchain⟩] at this
      cases this
    · exact le_rfl
    · exact hdesc.2.1.1 b hafter

/-! ### What a claim holds -/

/-- What there is to say about a reference: that it was directly published, or else how far below
it the greatest ancestor on its chain lies that was. -/
def Truthful (s : DirectLanes K D) (r : BlockRef K D) : Option (ClaimRef K D) → Prop
  | none => r ∉ s.directPubRefs ∧ ∀ a, ¬s.DirectAncestor r a
  | some (.exact x) => x = r ∧ r ∈ s.directPubRefs
  | some (.ancestor x delta) => x = r ∧ r ∉ s.directPubRefs ∧ ∃ a, s.DirectAncestor r a ∧
      (∀ b, s.DirectAncestor r b → b.height ≤ a.height) ∧ 1 ≤ a.height ∧
        a.height + delta = r.height

/-- The distance claimed for a reference that was not directly published. -/
def claimedDelta (s : DirectLanes K D) (r : BlockRef K D) : Option ℕ :=
  if r ∈ s.directPubRefs then none
  else (s.greatestDirectAncestor r).map fun a => r.height - a.height

def statementOf (s : DirectLanes K D) (r : BlockRef K D) : Option (ClaimRef K D) :=
  if r ∈ s.directPubRefs then some (.exact r) else (s.claimedDelta r).map (.ancestor r)

theorem claimedDelta_bounds {r : BlockRef K D} {delta : ℕ} (h : s.claimedDelta r = some delta) :
    r ∉ s.directPubRefs ∧ 0 < delta ∧ delta < r.height := by
  unfold claimedDelta at h
  split_ifs at h with hdirect
  obtain ⟨a, ha, rfl⟩ := Option.map_eq_some_iff.mp h
  have hspec := s.greatestDirectAncestor_spec r
  rw [ha] at hspec
  have hlow := hspec.1.2.2.2.height_le.1
  have hlt := hspec.1.2.2.1
  exact ⟨hdirect, by omega, by omega⟩

theorem statementOf_truthful (r : BlockRef K D) : s.Truthful r (s.statementOf r) := by
  unfold statementOf claimedDelta
  by_cases hdirect : r ∈ s.directPubRefs
  · rw [if_pos hdirect]
    exact ⟨rfl, hdirect⟩
  · have hspec := s.greatestDirectAncestor_spec r
    rw [if_neg hdirect, if_neg hdirect]
    cases ha : s.greatestDirectAncestor r with
    | none =>
      rw [ha] at hspec
      exact ⟨hdirect, hspec⟩
    | some a =>
      rw [ha] at hspec
      exact ⟨rfl, hdirect, a, hspec.1, hspec.2, hspec.1.2.2.2.height_le.1,
        Nat.add_sub_of_le hspec.1.2.2.1.le⟩

/-- The short claims for the references from position `j` on. -/
def shortsFrom (s : DirectLanes K D) : ℕ → List (BlockRef K D) → List ShortClaim
  | _, [] => []
  | j, r :: refs =>
    ((s.claimedDelta r).map fun delta => ⟨j % 65536, delta⟩).toList ++
      s.shortsFrom (j + 1) refs

theorem length_shortsFrom (j : ℕ) (refs : List (BlockRef K D)) :
    (s.shortsFrom j refs).length ≤ refs.length := by
  induction refs generalizing j with
  | nil => exact le_rfl
  | cons r refs ih =>
    have hone : ((s.claimedDelta r).map fun delta =>
        (⟨j % 65536, delta⟩ : ShortClaim)).toList.length ≤ 1 := by
      cases s.claimedDelta r <;> simp
    have := ih (j + 1)
    rw [shortsFrom, List.length_append, List.length_cons]
    omega

theorem buildLoop_cons {j : ℕ} {r : BlockRef K D} {claim : AvailClaim}
    (hbit : claim.isAtTip j = false) (hshort : ∀ x ∈ claim.short, x.lane < j)
    (hj : j < 65536) (refs : List (BlockRef K D)) :
    s.buildLoop j (r :: refs) claim = s.buildLoop (j + 1) refs
      { atTip := if r ∈ s.directPubRefs then (claim.setAtTip j).atTip else claim.atTip
        short := claim.short ++ ((s.claimedDelta r).map fun delta =>
          ⟨j % 65536, delta⟩).toList } := by
  rw [buildLoop]
  by_cases hdirect : r ∈ s.directPubRefs
  · have hdelta : s.claimedDelta r = none := by rw [claimedDelta, if_pos hdirect]
    rw [if_pos hdirect, if_pos hdirect, hdelta]
    simp only [Option.map_none, Option.toList_none, List.append_nil]
    rw [← AvailClaim.short_setAtTip]
  · rw [if_neg hdirect, if_neg hdirect]
    cases ha : s.greatestDirectAncestor r with
    | none =>
      have hdelta : s.claimedDelta r = none := by
        rw [claimedDelta, if_neg hdirect, ha, Option.map_none]
      rw [hdelta]
      simp only [Option.map_none, Option.toList_none, List.append_nil]
    | some a =>
      have hdelta : s.claimedDelta r = some (r.height - a.height) := by
        rw [claimedDelta, if_neg hdirect, ha, Option.map_some]
      have hpos := (claimedDelta_bounds hdelta).2.1
      have hfree : claim.short.any (·.lane = j) = false := by
        rw [List.any_eq_false]
        intro x hx
        have := hshort x hx
        simp only [decide_eq_true_eq]
        omega
      rw [hdelta]
      simp only [Option.map_some, Option.toList_some]
      rw [AvailClaim.pushShort, if_neg]
      rw [hbit, hfree]
      simp only [Bool.false_eq_true, false_or, or_false]
      omega

theorem buildLoop_spec (s : DirectLanes K D) {j : ℕ} {refs : List (BlockRef K D)}
    {claim : AvailClaim}
    (hbit : ∀ lane, j ≤ lane → claim.isAtTip lane = false)
    (hshort : ∀ x ∈ claim.short, x.lane < j) (hj : j + refs.length ≤ 65536)
    (hwords : j + refs.length ≤ 64 * claim.atTip.length) :
    (s.buildLoop j refs claim).atTip.length = claim.atTip.length ∧
      (∀ lane, (s.buildLoop j refs claim).isAtTip lane = true ↔ claim.isAtTip lane = true ∨
        ∃ i r, refs[i]? = some r ∧ lane = j + i ∧ r ∈ s.directPubRefs) ∧
      (s.buildLoop j refs claim).short = claim.short ++ s.shortsFrom j refs := by
  induction refs generalizing j claim with
  | nil => simp [buildLoop, shortsFrom]
  | cons r refs ih =>
    rw [List.length_cons] at hj hwords
    have hlt : j < 65536 := by omega
    rw [buildLoop_cons (hbit j le_rfl) hshort hlt]
    obtain ⟨next, hnext⟩ : ∃ next : AvailClaim, next =
      { atTip := if r ∈ s.directPubRefs then (claim.setAtTip j).atTip else claim.atTip
        short := claim.short ++ ((s.claimedDelta r).map fun delta =>
          (⟨j % 65536, delta⟩ : ShortClaim)).toList } := ⟨_, rfl⟩
    rw [← hnext]
    have hlen : next.atTip.length = claim.atTip.length := by
      rw [hnext]
      simp only
      split <;> simp
    have hbits : ∀ lane, next.isAtTip lane = true ↔
        (lane = j ∧ r ∈ s.directPubRefs) ∨ claim.isAtTip lane = true := by
      intro lane
      have hbound : j / 64 < claim.atTip.length := by omega
      have hset := AvailClaim.isAtTip_setAtTip hbound lane
      have htip : next.atTip =
          if r ∈ s.directPubRefs then (claim.setAtTip j).atTip else claim.atTip := by rw [hnext]
      by_cases hdirect : r ∈ s.directPubRefs
      · rw [if_pos hdirect] at htip
        rw [AvailClaim.isAtTip_congr htip, hset]
        simp [hdirect]
      · rw [if_neg hdirect] at htip
        rw [AvailClaim.isAtTip_congr htip]
        simp [hdirect]
    have hlanes : ∀ x ∈ next.short, x.lane < j + 1 := by
      intro x hx
      rw [hnext] at hx
      rcases List.mem_append.mp hx with hx | hx
      · exact Nat.lt_succ_of_lt (hshort x hx)
      · rw [Option.mem_toList, Option.map_eq_some_iff] at hx
        obtain ⟨delta, -, rfl⟩ := hx
        simp only
        omega
    have hfree : ∀ lane, j + 1 ≤ lane → next.isAtTip lane = false := by
      intro lane hle
      rw [Bool.eq_false_iff, Ne, hbits, hbit lane (by omega)]
      simp only [Bool.false_eq_true, or_false, not_and]
      omega
    obtain ⟨hlen', hbits', hshort'⟩ := ih hfree hlanes (by omega) (by omega)
    refine ⟨hlen'.trans hlen, fun lane => ?_, ?_⟩
    · rw [hbits', hbits]
      constructor
      · rintro ((⟨rfl, hdirect⟩ | h) | ⟨i, x, hx, rfl, hdirect⟩)
        · exact .inr ⟨0, r, rfl, rfl, hdirect⟩
        · exact .inl h
        · exact .inr ⟨i + 1, x, hx, by omega, hdirect⟩
      · rintro (h | ⟨i, x, hx, rfl, hdirect⟩)
        · exact .inl (.inr h)
        · cases i with
          | zero =>
            cases hx
            exact .inl (.inl ⟨rfl, hdirect⟩)
          | succ i => exact .inr ⟨i, x, hx, by omega, hdirect⟩
    · rw [hshort', hnext, shortsFrom, List.append_assoc]

/-! ### What is read off a claim -/

/-- No bit past the references is set, so the last word passes its check. -/
theorem last_word {claim : AvailClaim} {n : ℕ} (hlen : claim.atTip.length = (n + 63) / 64)
    (hbits : ∀ lane, n ≤ lane → claim.isAtTip lane = false) :
    ¬(n % 64 ≠ 0 ∧ (claim.atTip.getLast?.any fun last =>
      (last &&& (BitVec.allOnes 64 <<< (n % 64))) != 0) = true) := by
  rintro ⟨hused, hany⟩
  rw [List.getLast?_eq_getElem?] at hany
  obtain ⟨last, hlast, hne⟩ := (Option.any_eq_true _ _).mp hany
  have hzero : last &&& (BitVec.allOnes 64 <<< (n % 64)) = 0#64 := by
    refine BitVec.eq_of_getLsbD_eq fun b hb => ?_
    by_cases hlow : b < n % 64
    · simp [hlow]
    · have hword : (64 * (claim.atTip.length - 1) + b) / 64 = claim.atTip.length - 1 := by omega
      have hmod : (64 * (claim.atTip.length - 1) + b) % 64 = b := by omega
      have hfree := hbits (64 * (claim.atTip.length - 1) + b) (by omega)
      rw [AvailClaim.isAtTip, hword, hmod, hlast, Option.any_some] at hfree
      simp [hfree]
  rw [hzero] at hne
  cases hne

theorem exactFrom_eq {claim : AvailClaim} {j : ℕ} {refs : List (BlockRef K D)}
    (h : ∀ i r, refs[i]? = some r → (claim.isAtTip (j + i) = true ↔ r ∈ s.directPubRefs)) :
    claim.exactFrom j refs = (refs.filter fun r => decide (r ∈ s.directPubRefs)).map .exact := by
  induction refs generalizing j with
  | nil => rfl
  | cons r refs ih =>
    have hrest := ih (j := j + 1) fun i x hx => by
      rw [Nat.add_assoc, Nat.add_comm 1 i]
      exact h (i + 1) x hx
    have hhead := h 0 r rfl
    rw [Nat.add_zero] at hhead
    rw [AvailClaim.exactFrom_cons, hrest]
    by_cases hdirect : r ∈ s.directPubRefs
    · rw [if_pos (hhead.mpr hdirect), List.filter_cons_of_pos (by simpa using hdirect),
        List.map_cons]
    · rw [if_neg (mt hhead.mp hdirect), List.filter_cons_of_neg (by simpa using hdirect)]

theorem shortStatements_shortsFrom {claim : AvailClaim} {refs before rest : List (BlockRef K D)}
    {seen : List ℕ} (hrefs : refs = before ++ rest) (hlen : refs.length ≤ 65536)
    (hbits : ∀ i r, refs[i]? = some r → (claim.isAtTip i = true ↔ r ∈ s.directPubRefs))
    (hseen : ∀ j ∈ seen, j < before.length) :
    claim.shortStatements refs seen (s.shortsFrom before.length rest) =
      rest.filterMap fun r => (s.claimedDelta r).map (.ancestor r) := by
  induction rest generalizing before seen with
  | nil => rfl
  | cons r rest ih =>
    have hrefs' : refs = (before ++ [r]) ++ rest := by rw [hrefs, List.append_assoc]; rfl
    have hlength : (before ++ [r]).length = before.length + 1 := by simp
    have hget : refs[before.length]? = some r := by
      rw [hrefs, List.getElem?_append_right le_rfl, Nat.sub_self, List.getElem?_cons_zero]
    have hlt : before.length < 65536 := by
      rw [hrefs, List.length_append, List.length_cons] at hlen
      omega
    rw [shortsFrom]
    cases hdelta : s.claimedDelta r with
    | none =>
      rw [List.filterMap_cons_none (by rw [hdelta, Option.map_none])]
      have := ih hrefs' (fun j hj => by rw [hlength]; exact Nat.lt_succ_of_lt (hseen j hj))
      rw [hlength] at this
      exact this
    | some delta =>
      obtain ⟨hdirect, hpos, hheight⟩ := claimedDelta_bounds hdelta
      have hlane : before.length % 65536 = before.length := Nat.mod_eq_of_lt hlt
      have hnew : before.length ∉ seen := fun hmem => lt_irrefl _ (hseen _ hmem)
      have hseen' : ∀ j ∈ before.length :: seen, j < (before ++ [r]).length := by
        intro j hj
        rw [hlength]
        rcases List.mem_cons.mp hj with rfl | hj
        · exact Nat.lt_succ_self _
        · exact Nat.lt_succ_of_lt (hseen j hj)
      have hrest := ih hrefs' hseen'
      rw [hlength] at hrest
      rw [List.filterMap_cons_some (by rw [hdelta, Option.map_some]), ← hrest]
      simp only [Option.map_some, Option.toList_some, List.singleton_append]
      rw [AvailClaim.shortStatements]
      simp only [hlane, hget]
      rw [if_neg (mt (hbits _ _ hget).mp hdirect), if_neg hnew, if_neg (by omega)]

theorem statements_buildAvailClaimForRefs {refs : List (BlockRef K D)}
    (hlen : refs.length ≤ 65536) :
    (s.buildAvailClaimForRefs refs).statements refs =
      (refs.filter fun r => decide (r ∈ s.directPubRefs)).map .exact ++
        refs.filterMap fun r => (s.claimedDelta r).map (.ancestor r) := by
  have hinit : ∀ lane, 0 ≤ lane → (AvailClaim.withCapacity refs.length).isAtTip lane = false :=
    fun lane _ => AvailClaim.isAtTip_withCapacity refs.length lane
  have hwords : (AvailClaim.withCapacity refs.length).atTip.length = (refs.length + 63) / 64 :=
    List.length_replicate ..
  have hnone : ∀ x ∈ (AvailClaim.withCapacity refs.length).short, x.lane < 0 :=
    fun x hx => by cases hx
  obtain ⟨hlength, hbits, hshort⟩ :=
    s.buildLoop_spec hinit hnone (by omega : 0 + refs.length ≤ 65536) (by omega)
  rw [show (AvailClaim.withCapacity refs.length).short = [] from rfl, List.nil_append] at hshort
  have hset : ∀ i r, refs[i]? = some r →
      ((s.buildAvailClaimForRefs refs).isAtTip i = true ↔ r ∈ s.directPubRefs) := by
    intro i r hr
    rw [buildAvailClaimForRefs, hbits, hinit i (Nat.zero_le i)]
    constructor
    · rintro (h | ⟨i', x, hx, hi, hdirect⟩)
      · cases h
      · rw [Nat.zero_add] at hi
        rw [hi, hx] at hr
        cases hr
        exact hdirect
    · exact fun hdirect => .inr ⟨i, r, hr, (Nat.zero_add i).symm, hdirect⟩
  have hfree : ∀ lane, refs.length ≤ lane →
      (s.buildAvailClaimForRefs refs).isAtTip lane = false := by
    intro lane hle
    rw [Bool.eq_false_iff, Ne, buildAvailClaimForRefs, hbits, hinit lane (Nat.zero_le lane)]
    rintro (h | ⟨i, x, hx, hi, -⟩)
    · cases h
    · have := (List.getElem?_eq_some_iff.mp hx).1
      omega
  have hcount : (s.shortsFrom 0 refs).length ≤ refs.length := length_shortsFrom 0 refs
  have hlast := last_word (hlength.trans hwords) hfree
  have hexact := exactFrom_eq (j := 0) fun i r hr => by
    rw [Nat.zero_add]
    exact hset i r hr
  have hread := shortStatements_shortsFrom (List.nil_append refs).symm hlen hset
    (fun j hj => absurd hj List.not_mem_nil)
  simp only [buildAvailClaimForRefs] at hlast hexact hread ⊢
  rw [AvailClaim.statements, if_neg, if_neg hlast, hshort]
  · exact congrArg₂ _ hexact hread
  · rw [hshort, hlength, hwords]
    omega

end DirectLanes

/-! ### What any claim says -/

section Positions

variable {K D : Type}

/-- A statement about the reference at a position, well within its height. -/
def SaidAt (refs : List (BlockRef K D)) (position : ℕ) (statement : ClaimRef K D) : Prop :=
  ∃ r, refs[position]? = some r ∧ (statement = .exact r ∨
    ∃ delta, statement = .ancestor r delta ∧ 0 < delta ∧ delta < r.height)

theorem AvailClaim.exactFrom_positions (claim : AvailClaim) {refs before rest : List (BlockRef K D)}
    (hrefs : refs = before ++ rest) :
    ∃ positions : List ℕ, positions.Nodup ∧
      (∀ p ∈ positions, before.length ≤ p ∧ claim.isAtTip p = true) ∧
      List.Forall₂ (SaidAt refs) positions (claim.exactFrom before.length rest) := by
  induction rest generalizing before with
  | nil => exact ⟨[], List.nodup_nil, by simp, .nil⟩
  | cons r rest ih =>
    have hrefs' : refs = (before ++ [r]) ++ rest := by rw [hrefs, List.append_assoc]; rfl
    obtain ⟨positions, hnodup, hrange, hsaid⟩ := ih hrefs'
    rw [List.length_append, List.length_singleton] at hrange hsaid
    have hget : refs[before.length]? = some r := by
      rw [hrefs, List.getElem?_append_right le_rfl, Nat.sub_self, List.getElem?_cons_zero]
    rw [exactFrom_cons]
    split_ifs with hbit
    · refine ⟨before.length :: positions, List.nodup_cons.mpr ⟨fun hmem => ?_, hnodup⟩, ?_,
        .cons ⟨r, hget, .inl rfl⟩ hsaid⟩
      · exact absurd (hrange _ hmem).1 (by omega)
      · intro p hp
        rcases List.mem_cons.mp hp with rfl | hp
        · exact ⟨le_rfl, hbit⟩
        · exact ⟨by have := (hrange p hp).1; omega, (hrange p hp).2⟩
    · exact ⟨positions, hnodup, fun p hp => ⟨by have := (hrange p hp).1; omega, (hrange p hp).2⟩,
        hsaid⟩

theorem AvailClaim.shortStatements_positions (claim : AvailClaim) (refs : List (BlockRef K D))
    (seen : List ℕ) (shorts : List ShortClaim) :
    ∃ positions : List ℕ, positions.Nodup ∧
      (∀ p ∈ positions, p ∉ seen ∧ claim.isAtTip p = false) ∧
      List.Forall₂ (SaidAt refs) positions (claim.shortStatements refs seen shorts) := by
  induction shorts generalizing seen with
  | nil => exact ⟨[], List.nodup_nil, by simp, .nil⟩
  | cons x shorts ih =>
    rw [shortStatements]
    split
    · exact ih seen
    · next r hr =>
      split_ifs with hbit hmem hdelta
      · exact ih seen
      · exact ih seen
      · obtain ⟨positions, hnodup, hrange, hsaid⟩ := ih (x.lane :: seen)
        exact ⟨positions, hnodup, fun p hp =>
          ⟨fun h => (hrange p hp).1 (List.mem_cons_of_mem _ h), (hrange p hp).2⟩, hsaid⟩
      · obtain ⟨positions, hnodup, hrange, hsaid⟩ := ih (x.lane :: seen)
        have hfresh : x.lane ∉ positions :=
          fun h => (hrange _ h).1 (List.mem_cons_self)
        refine ⟨x.lane :: positions, List.nodup_cons.mpr ⟨hfresh, hnodup⟩, ?_,
          .cons ⟨r, hr, .inr ⟨x.delta, rfl, by omega, by omega⟩⟩ hsaid⟩
        intro p hp
        rcases List.mem_cons.mp hp with rfl | hp
        · exact ⟨hmem, Bool.eq_false_iff.mpr hbit⟩
        · exact ⟨fun h => (hrange p hp).1 (List.mem_cons_of_mem _ h), (hrange p hp).2⟩

theorem AvailClaim.statements_positions (claim : AvailClaim) (refs : List (BlockRef K D)) :
    ∃ positions : List ℕ, positions.Nodup ∧
      List.Forall₂ (SaidAt refs) positions (claim.statements refs) := by
  unfold statements
  split_ifs
  · exact ⟨[], List.nodup_nil, .nil⟩
  · exact ⟨[], List.nodup_nil, .nil⟩
  · obtain ⟨tips, htips, hset, hexact⟩ :=
      claim.exactFrom_positions (List.nil_append refs).symm
    obtain ⟨shorts, hshorts, hfree, hancestor⟩ :=
      claim.shortStatements_positions refs [] claim.short
    refine ⟨tips ++ shorts, List.nodup_append.mpr ⟨htips, hshorts, ?_⟩,
      List.rel_append hexact hancestor⟩
    rintro p hp q hq rfl
    have := (hset p hp).2
    rw [(hfree p hq).2] at this
    cases this

end Positions

namespace DirectLanes

variable {K D : Type} [LinearOrder K] [LinearOrder D]

theorem filter_statementOf (s : DirectLanes K D) (refs : List (BlockRef K D)) :
    (refs.map s.statementOf).reduceOption.filter ClaimRef.isExact =
        (refs.filter fun r => decide (r ∈ s.directPubRefs)).map .exact ∧
      ((refs.map s.statementOf).reduceOption.filter fun x => !x.isExact) =
        refs.filterMap fun r => (s.claimedDelta r).map (.ancestor r) := by
  induction refs with
  | nil => exact ⟨rfl, rfl⟩
  | cons r refs ih =>
    rw [List.map_cons]
    by_cases hdirect : r ∈ s.directPubRefs
    · have hof : s.statementOf r = some (.exact r) := if_pos hdirect
      have hdelta : s.claimedDelta r = none := if_pos hdirect
      have hkeep := List.filter_cons_of_pos (p := fun r => decide (r ∈ s.directPubRefs))
        (decide_eq_true hdirect) (l := refs)
      rw [hof, List.reduceOption_cons_of_some, hkeep,
        List.filterMap_cons_none (by rw [hdelta, Option.map_none])]
      exact ⟨congrArg (ClaimRef.exact r :: ·) ih.1, ih.2⟩
    · have hof : s.statementOf r = (s.claimedDelta r).map (.ancestor r) := if_neg hdirect
      rw [hof, List.filter_cons_of_neg (by simpa using hdirect)]
      cases hdelta : s.claimedDelta r with
      | none =>
        rw [List.filterMap_cons_none (by rw [hdelta, Option.map_none])]
        exact ih
      | some delta =>
        rw [List.filterMap_cons_some (by rw [hdelta, Option.map_some]), Option.map_some,
          List.reduceOption_cons_of_some]
        exact ⟨ih.1, congrArg (ClaimRef.ancestor r delta :: ·) ih.2⟩

/-- A claim made here says of every reference what is true of it, the exact statements first; and
any claim at all says at most one thing of a position, within the height of its reference. -/
theorem claims_exact (s : DirectLanes K D) :
    (∀ refs : List (BlockRef K D), refs.length ≤ 65536 →
      ∃ said : List (Option (ClaimRef K D)), List.Forall₂ s.Truthful refs said ∧
        (s.buildAvailClaimForRefs refs).statements refs =
          said.reduceOption.filter ClaimRef.isExact ++
            said.reduceOption.filter fun x => !x.isExact) ∧
    ∀ (claim : AvailClaim) (refs : List (BlockRef K D)), ∃ positions : List ℕ, positions.Nodup ∧
      List.Forall₂ (SaidAt refs) positions (claim.statements refs) := by
  refine ⟨fun refs hlen => ⟨refs.map s.statementOf, ?_, ?_⟩,
    fun claim refs => claim.statements_positions refs⟩
  · rw [List.forall₂_map_right_iff, List.forall₂_same]
    exact fun r _ => statementOf_truthful r
  · rw [statements_buildAvailClaimForRefs hlen, (s.filter_statementOf refs).1,
      (s.filter_statementOf refs).2]

def lowerPublished : DirectLanes ℕ ℕ where
  blocks := AList.insert 12 ⟨⟨12, 1, 2, 11, []⟩, true, true⟩
    (AList.insert 11 ⟨⟨11, 1, 1, 0, []⟩, true, true⟩ (∅ : BlockCache ℕ ℕ))
  genesis := 0
  directPubRefs := [⟨1, 1, 11⟩]
  increasing := List.pairwise_singleton _ _

theorem claims_exact_lowerPublished :
    lowerPublished.statementOf ⟨1, 2, 12⟩ = some (.ancestor ⟨1, 2, 12⟩ 1) ∧
    ∃ said : List (Option (ClaimRef ℕ ℕ)),
      List.Forall₂ lowerPublished.Truthful [⟨1, 1, 11⟩, ⟨1, 2, 12⟩] said ∧
        (lowerPublished.buildAvailClaimForRefs [⟨1, 1, 11⟩, ⟨1, 2, 12⟩]).statements
            [⟨1, 1, 11⟩, ⟨1, 2, 12⟩] =
          said.reduceOption.filter ClaimRef.isExact ++
            said.reduceOption.filter fun x => !x.isExact :=
  ⟨by decide +kernel, (claims_exact lowerPublished).1 _ (by decide)⟩

end DirectLanes

end Vantage
