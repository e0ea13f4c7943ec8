import Vantage.Cursor.Blocks

/-!
# The shared block cache of the lanes

The lane manager and the repairer share one cache of blocks.  Every entry says how the block arrived
and what was verified about it; these flags only ever get set.  Two of them remember that a walk
from the block down to genesis has succeeded, and later walks stop at such a block.

* `CacheCall`, `LaneCache.run`: the calls between which the flags change.

The counters of the walks and the missing parents they report are left out.
-/

namespace Vantage

/-- A cached block: whether it came from its author, whether it came through repair, whether it is
kept for service, and which walks below it succeeded. -/
structure LaneEntry (K D : Type) extends BlockEntry K D where
  direct : Bool
  repaired : Bool
  retained : Bool
  directPrefixVerified : Bool
  chainVerified : Bool

/-- Blocks by digest. -/
abbrev LaneCache (K D : Type) : Type := Table D (LaneEntry K D)

/-- The outcome of the direct walk: `gate` names the first block that is not direct or lacks
payload. -/
inductive DirectPrefixCheck (D : Type)
  | verified
  | gate (blocker : D)
  | failed
  deriving DecidableEq

namespace LaneCache

variable {K D : Type} [DecidableEq K] [DecidableEq D]

/-- Change the entry of a digest, if there is one. -/
def modifyEntry (cache : LaneCache K D) (h : D) (f : LaneEntry K D → LaneEntry K D) :
    LaneCache K D :=
  match cache.lookup h with
  | none => cache
  | some e => cache.insert h (f e)

/-- Add a block, or set the flags of the one that is there. -/
def upsert (cache : LaneCache K D) (block : Header K D)
    (direct repaired payloadOk blockOkVerified : Bool) : LaneCache K D :=
  match cache.lookup block.id with
  | none => cache.insert block.id ⟨⟨block, payloadOk, blockOkVerified⟩, direct, repaired, false,
      false, false⟩
  | some e => cache.insert block.id ⟨⟨block, e.payloadOk || payloadOk,
      e.blockOkVerified || blockOkVerified⟩, e.direct || direct, e.repaired || repaired, e.retained,
      e.directPrefixVerified, e.chainVerified⟩

/-- Keep a cached block for service. -/
def markRetained (cache : LaneCache K D) (h : D) : LaneCache K D :=
  cache.modifyEntry h fun e => { e with retained := true }

/-- The payload of a cached block is stored, if `ok`. -/
def setPayloadOk (cache : LaneCache K D) (h : D) (ok : Bool) : LaneCache K D :=
  cache.modifyEntry h fun e => { e with payloadOk := e.payloadOk || ok }

/-- Change the entries of all these digests. -/
def modifyEntries (cache : LaneCache K D) (ds : List D) (f : LaneEntry K D → LaneEntry K D) :
    LaneCache K D :=
  ds.foldl (fun c d => c.modifyEntry d f) cache

/-- The digests newly passed by the walk over verified blocks, from `cur` down to genesis or to a
block that is already marked. -/
def chainWalk (cache : LaneCache K D) (genesis : D) (author : K) : ℕ → D → Option (List D)
  | 0, cur => if cur = genesis then some [] else none
  | expected + 1, cur =>
    if cur = genesis then none
    else
      match cache.lookup cur with
      | none => none
      | some e =>
        if !e.pinnedAt author (expected + 1) then none
        else if !e.blockOkVerified then none
        else if e.chainVerified then some []
        else (chainWalk cache genesis author expected e.block.parent).map (cur :: ·)

/-- Verify one author, consecutive heights, validated blocks and the genesis link; a success is
remembered for every block passed. -/
def verifiedPrefixThroughGenesis (cache : LaneCache K D) (genesis h : D) : LaneCache K D × Bool :=
  match cache.lookup h with
  | none => (cache, false)
  | some start =>
    if start.chainVerified then (cache, true)
    else
      match cache.chainWalk genesis start.block.author start.block.height h with
      | none => (cache, false)
      | some newlyWalked =>
        (cache.modifyEntries newlyWalked fun e => { e with chainVerified := true }, true)

/-- The digests newly passed by the walk over direct blocks, or the block where it stopped. -/
def directWalk (cache : LaneCache K D) (genesis : D) (author : K) :
    ℕ → D → DirectPrefixCheck D × List D
  | 0, cur => if cur = genesis then (.verified, []) else (.failed, [])
  | expected + 1, cur =>
    if cur = genesis then (.failed, [])
    else
      match cache.lookup cur with
      | none => (.failed, [])
      | some e =>
        if !e.pinnedAt author (expected + 1) then (.failed, [])
        else if e.directPrefixVerified then (.verified, [])
        else if !(e.direct && e.payloadOk) then (.gate cur, [])
        else
          let r := directWalk cache genesis author expected e.block.parent
          (r.1, cur :: r.2)

/-- Verify one author, consecutive heights, direct provenance and payload; a success is remembered
for every block passed. -/
def directPrefixCheck (cache : LaneCache K D) (genesis h : D) :
    LaneCache K D × DirectPrefixCheck D :=
  match cache.lookup h with
  | none => (cache, .failed)
  | some start =>
    if start.directPrefixVerified then (cache, .verified)
    else
      match cache.directWalk genesis start.block.author start.block.height h with
      | (.verified, newlyWalked) =>
        (cache.modifyEntries newlyWalked fun e => { e with directPrefixVerified := true },
          .verified)
      | (outcome, _) => (cache, outcome)

/-- Whether the direct walk succeeds. -/
def directPrefixOk (cache : LaneCache K D) (genesis h : D) : LaneCache K D × Bool :=
  let r := cache.directPrefixCheck genesis h
  (r.1, decide (r.2 = .verified))

/-! ### Walks that remember nothing -/

/-- Walk down to genesis through blocks at the expected coordinates that are `ok`. -/
def plainWalk (ok : LaneEntry K D → Bool) (cache : LaneCache K D) (genesis : D) (author : K) :
    ℕ → D → Bool
  | 0, cur => decide (cur = genesis)
  | expected + 1, cur =>
    if cur = genesis then false
    else
      match cache.lookup cur with
      | none => false
      | some e =>
        e.pinnedAt author (expected + 1) && ok e &&
          plainWalk ok cache genesis author expected e.block.parent

/-- The walk from a cached block, at its own coordinates. -/
def plainPrefix (ok : LaneEntry K D → Bool) (cache : LaneCache K D) (genesis h : D) : Bool :=
  match cache.lookup h with
  | none => false
  | some start => plainWalk ok cache genesis start.block.author start.block.height h

end LaneCache

/-- What the walk over verified blocks asks of each. -/
def LaneEntry.verifiedOk {K D : Type} (e : LaneEntry K D) : Bool := e.blockOkVerified

/-- What the direct walk asks of each block. -/
def LaneEntry.directOk {K D : Type} (e : LaneEntry K D) : Bool := e.direct && e.payloadOk

/-- A call of the cache.  Blocks are among those of `B`, so no two of them have one digest. -/
inductive CacheCall {K D : Type} (B : BlockSet K D)
  | upsert (block : Header K D) (known : B.header block.id = some block)
      (direct repaired payloadOk blockOkVerified : Bool)
  | markRetained (h : D)
  | setPayloadOk (h : D) (ok : Bool)
  | verifiedPrefix (h : D)
  | directPrefix (h : D)

namespace LaneCache

variable {K D : Type} [DecidableEq K] [DecidableEq D] {B : BlockSet K D}

/-- The cache after a call. -/
def call (genesis : D) (cache : LaneCache K D) : CacheCall B → LaneCache K D
  | .upsert block _ direct repaired payloadOk blockOkVerified =>
    cache.upsert block direct repaired payloadOk blockOkVerified
  | .markRetained h => cache.markRetained h
  | .setPayloadOk h ok => cache.setPayloadOk h ok
  | .verifiedPrefix h => (cache.verifiedPrefixThroughGenesis genesis h).1
  | .directPrefix h => (cache.directPrefixOk genesis h).1

/-- The cache after calls from an empty one. -/
def run (genesis : D) (calls : List (CacheCall B)) : LaneCache K D :=
  calls.foldl (call genesis) ∅

end LaneCache

/-! ### Growing -/

namespace LaneCache

variable {K D : Type} [DecidableEq D] {ok flag : LaneEntry K D → Bool}
  {cache cache' : LaneCache K D} {genesis : D} {author : K} {f : LaneEntry K D → LaneEntry K D}

theorem lookup_modifyEntry (cache : LaneCache K D) (h d : D) (f : LaneEntry K D → LaneEntry K D) :
    (cache.modifyEntry h f).lookup d =
      if d = h then (cache.lookup d).map f else cache.lookup d := by
  unfold modifyEntry
  by_cases hd : d = h
  · subst hd
    cases hl : cache.lookup d <;> simp [hl]
  · cases cache.lookup h <;> simp [hd, AList.lookup_insert_ne]

theorem lookup_modifyEntries (hf : ∀ e, f (f e) = f e) (cache : LaneCache K D) (ds : List D)
    (d : D) :
    (cache.modifyEntries ds f).lookup d =
      if d ∈ ds then (cache.lookup d).map f else cache.lookup d := by
  induction ds generalizing cache with
  | nil => rfl
  | cons x ds ih =>
    rw [modifyEntries, List.foldl_cons]
    refine (ih (cache.modifyEntry x f)).trans ?_
    rw [lookup_modifyEntry]
    by_cases hx : d = x
    · subst hx
      simp [Function.comp_def, hf]
    · simp [hx]

/-- Cached blocks stay, and stay `ok`. -/
def Grows (ok : LaneEntry K D → Bool) (cache cache' : LaneCache K D) : Prop :=
  ∀ d e, cache.lookup d = some e →
    ∃ e', cache'.lookup d = some e' ∧ e'.block = e.block ∧ (ok e = true → ok e' = true)

theorem Grows.refl (ok : LaneEntry K D → Bool) (cache : LaneCache K D) : Grows ok cache cache :=
  fun _ e he => ⟨e, he, rfl, id⟩

theorem Grows.trans {cache'' : LaneCache K D} (h : Grows ok cache cache')
    (h' : Grows ok cache' cache'') : Grows ok cache cache'' := by
  intro d e he
  obtain ⟨e', he', hblock, hok⟩ := h d e he
  obtain ⟨e'', he'', hblock', hok'⟩ := h' d e' he'
  exact ⟨e'', he'', hblock'.trans hblock, hok' ∘ hok⟩

theorem grows_insert {d : D} {e' : LaneEntry K D}
    (hold : ∀ e, cache.lookup d = some e → e'.block = e.block ∧ (ok e = true → ok e' = true)) :
    Grows ok cache (cache.insert d e') := by
  intro x e he
  by_cases hx : x = d
  · subst hx
    exact ⟨e', AList.lookup_insert _, hold e he⟩
  · exact ⟨e, (AList.lookup_insert_ne hx).trans he, rfl, id⟩

theorem grows_modifyEntry (hf : ∀ e, (f e).block = e.block ∧ (ok e = true → ok (f e) = true))
    (cache : LaneCache K D) (h : D) : Grows ok cache (cache.modifyEntry h f) := by
  unfold modifyEntry
  split
  · exact .refl ok cache
  · next e hl => exact grows_insert fun e' he' => Option.some.inj (hl.symm.trans he') ▸ hf e

theorem grows_modifyEntries (hf : ∀ e, (f e).block = e.block ∧ (ok e = true → ok (f e) = true))
    (cache : LaneCache K D) (ds : List D) : Grows ok cache (cache.modifyEntries ds f) := by
  induction ds generalizing cache with
  | nil => exact .refl ok cache
  | cons d ds ih => exact (grows_modifyEntry hf cache d).trans (ih _)

variable [DecidableEq K]

theorem Grows.plainWalk (hg : Grows ok cache cache') {n : ℕ} {cur : D}
    (h : plainWalk ok cache genesis author n cur = true) :
    plainWalk ok cache' genesis author n cur = true := by
  induction n generalizing cur with
  | zero => exact h
  | succ n ih =>
    unfold LaneCache.plainWalk at h ⊢
    split at h
    · cases h
    · next hcur =>
      rw [if_neg hcur]
      cases hl : cache.lookup cur with
      | none => simp [hl] at h
      | some e =>
        obtain ⟨e', hl', hblock, hok⟩ := hg cur e hl
        simp only [hl, hl', Bool.and_eq_true, BlockEntry.pinnedAt, hblock] at h ⊢
        exact ⟨⟨h.1.1, hok h.1.2⟩, ih h.2⟩

theorem Grows.plainPrefix (hg : Grows ok cache cache') {h : D}
    (hp : plainPrefix ok cache genesis h = true) : plainPrefix ok cache' genesis h = true := by
  unfold LaneCache.plainPrefix at hp ⊢
  cases hl : cache.lookup h with
  | none => simp [hl] at hp
  | some e =>
    obtain ⟨e', hl', hblock, -⟩ := hg h e hl
    simp only [hl, hl', hblock] at hp ⊢
    exact hg.plainWalk hp

/-! ### What is remembered -/

/-- A block with the flag has a prefix that is `ok`. -/
def Remembers (ok flag : LaneEntry K D → Bool) (genesis : D) (cache : LaneCache K D) : Prop :=
  ∀ d e, cache.lookup d = some e → flag e = true → plainPrefix ok cache genesis d = true

theorem Remembers.of_grows (hg : Grows ok cache cache')
    (hnew : ∀ d e', cache'.lookup d = some e' → flag e' = true →
      plainPrefix ok cache genesis d = true) : Remembers ok flag genesis cache' :=
  fun d e' he' hflag => hg.plainPrefix (hnew d e' he' hflag)

theorem plainPrefix_eq {e : LaneEntry K D} {n : ℕ} {cur : D} (hl : cache.lookup cur = some e)
    (hp : e.pinnedAt author n = true) :
    plainPrefix ok cache genesis cur = plainWalk ok cache genesis author n cur := by
  simp only [BlockEntry.pinnedAt, Bool.and_eq_true, decide_eq_true_eq] at hp
  simp only [plainPrefix, hl, hp.1, hp.2]

theorem Remembers.insert {d : D} {e' : LaneEntry K D} (hr : Remembers ok flag genesis cache)
    (hold : ∀ e, cache.lookup d = some e → e'.block = e.block ∧ (ok e = true → ok e' = true))
    (hflag : flag e' = true → ∃ e, cache.lookup d = some e ∧ flag e = true) :
    Remembers ok flag genesis (cache.insert d e') := by
  refine .of_grows (grows_insert hold) fun x e he hset => ?_
  by_cases hx : x = d
  · subst hx
    rw [AList.lookup_insert] at he
    obtain rfl := Option.some.inj he
    obtain ⟨e, he, hset⟩ := hflag hset
    exact hr x e he hset
  · rw [AList.lookup_insert_ne hx] at he
    exact hr x e he hset

theorem Remembers.modifyEntries (hr : Remembers ok flag genesis cache) (hidem : ∀ e, f (f e) = f e)
    (hf : ∀ e, (f e).block = e.block ∧ (ok e = true → ok (f e) = true)) {ds : List D}
    (hset : ∀ e, flag (f e) = true → flag e = true ∨
      ∀ d ∈ ds, plainPrefix ok cache genesis d = true) :
    Remembers ok flag genesis (cache.modifyEntries ds f) := by
  refine .of_grows (grows_modifyEntries hf cache ds) fun d e' he' hflag => ?_
  rw [lookup_modifyEntries hidem] at he'
  split at he'
  · next hd =>
    obtain ⟨e, he, rfl⟩ := Option.map_eq_some_iff.mp he'
    exact (hset e hflag).elim (hr d e he) fun h => h d hd
  · exact hr d e' he' hflag

/-! ### The two walks -/

/-- The walk over verified blocks succeeds exactly where the plain one does. -/
theorem chainWalk_isSome (hr : Remembers LaneEntry.verifiedOk (·.chainVerified) genesis cache)
    (author : K) (n : ℕ) (cur : D) : (cache.chainWalk genesis author n cur).isSome =
      plainWalk LaneEntry.verifiedOk cache genesis author n cur := by
  induction n generalizing cur with
  | zero =>
    unfold chainWalk plainWalk
    split <;> simp [*]
  | succ n ih =>
    -- a marked block stands at the expected coordinates, so its own prefix is the rest of the walk
    have hmemo : ∀ e, cache.lookup cur = some e → e.pinnedAt author (n + 1) = true →
        e.chainVerified = true →
        plainWalk LaneEntry.verifiedOk cache genesis author (n + 1) cur = true :=
      fun e hl hp hv => (plainPrefix_eq hl hp).symm.trans (hr cur e hl hv)
    unfold chainWalk
    unfold plainWalk at hmemo ⊢
    split
    · rfl
    cases hl : cache.lookup cur with
    | none => rfl
    | some e =>
      simp only [hl] at hmemo ⊢
      cases hp : e.pinnedAt author (n + 1)
      · rfl
      cases hok : e.blockOkVerified
      · simp [LaneEntry.verifiedOk, hok]
      cases hv : e.chainVerified
      · simpa [LaneEntry.verifiedOk, hok] using ih e.block.parent
      · simpa [hp, *] using (hmemo e rfl hp hv).symm

theorem plainPrefix_of_chainWalk
    (hr : Remembers LaneEntry.verifiedOk (·.chainVerified) genesis cache) {n : ℕ} {cur : D}
    {ds : List D} (h : cache.chainWalk genesis author n cur = some ds) :
    ∀ d ∈ ds, plainPrefix LaneEntry.verifiedOk cache genesis d = true := by
  induction n generalizing cur ds with
  | zero =>
    unfold chainWalk at h
    split at h <;> simp_all
  | succ n ih =>
    have hplain := chainWalk_isSome hr author (n + 1) cur
    rw [h] at hplain
    unfold chainWalk at h
    split at h
    · cases h
    cases hl : cache.lookup cur with
    | none => simp [hl] at h
    | some e =>
      simp only [hl] at h
      split_ifs at h with hp
      · obtain rfl := Option.some.inj h
        simp
      · obtain ⟨rest, hrest, rfl⟩ := Option.map_eq_some_iff.mp h
        have hcur := (plainPrefix_eq hl (by simpa using hp)).trans hplain.symm
        exact List.forall_mem_cons.mpr ⟨hcur, ih hrest⟩

/-- The walk over direct blocks succeeds exactly where the plain one does. -/
theorem directWalk_verified_iff
    (hr : Remembers LaneEntry.directOk (·.directPrefixVerified) genesis cache) (author : K)
    (n : ℕ) (cur : D) :
    (cache.directWalk genesis author n cur).1 = .verified ↔
      plainWalk LaneEntry.directOk cache genesis author n cur = true := by
  induction n generalizing cur with
  | zero =>
    unfold directWalk plainWalk
    split <;> simp [*]
  | succ n ih =>
    have hmemo : ∀ e, cache.lookup cur = some e → e.pinnedAt author (n + 1) = true →
        e.directPrefixVerified = true →
        plainWalk LaneEntry.directOk cache genesis author (n + 1) cur = true :=
      fun e hl hp hv => (plainPrefix_eq hl hp).symm.trans (hr cur e hl hv)
    unfold directWalk
    unfold plainWalk at hmemo ⊢
    split
    · simp
    cases hl : cache.lookup cur with
    | none => simp
    | some e =>
      simp only [hl] at hmemo ⊢
      cases hp : e.pinnedAt author (n + 1)
      · simp
      cases hv : e.directPrefixVerified
      · cases hok : e.direct && e.payloadOk
        · simp [LaneEntry.directOk, hok]
        · simpa [LaneEntry.directOk, hok] using ih e.block.parent
      · simpa [hp, *] using (hmemo e rfl hp hv).symm

theorem plainPrefix_of_directWalk
    (hr : Remembers LaneEntry.directOk (·.directPrefixVerified) genesis cache) {n : ℕ} {cur : D}
    (h : (cache.directWalk genesis author n cur).1 = .verified) :
    ∀ d ∈ (cache.directWalk genesis author n cur).2,
      plainPrefix LaneEntry.directOk cache genesis d = true := by
  induction n generalizing cur with
  | zero =>
    unfold directWalk
    split <;> simp
  | succ n ih =>
    have hplain := (directWalk_verified_iff hr author (n + 1) cur).mp h
    unfold directWalk at h ⊢
    split
    · simp
    cases hl : cache.lookup cur with
    | none => simp
    | some e =>
      simp only [hl] at h ⊢
      split_ifs at h ⊢ with hp
      · simp
      · have hcur := (plainPrefix_eq hl (by simpa using hp)).trans hplain
        exact List.forall_mem_cons.mpr ⟨hcur, ih h⟩

/-! ### Runs -/

variable {B : BlockSet K D}

/-- Cached blocks are known, and what is remembered would succeed again. -/
structure Sound (B : BlockSet K D) (genesis : D) (cache : LaneCache K D) : Prop where
  known : ∀ d e, cache.lookup d = some e → B.header d = some e.block
  chain : Remembers LaneEntry.verifiedOk (·.chainVerified) genesis cache
  direct : Remembers LaneEntry.directOk (·.directPrefixVerified) genesis cache

theorem Sound.verifiedPrefixThroughGenesis_snd (hs : cache.Sound B genesis) (h : D) :
    (cache.verifiedPrefixThroughGenesis genesis h).2 =
      plainPrefix LaneEntry.verifiedOk cache genesis h := by
  unfold verifiedPrefixThroughGenesis
  cases hl : cache.lookup h with
  | none => simp [plainPrefix, hl]
  | some start =>
    dsimp only
    split
    · next hv => exact (hs.chain h start hl hv).symm
    · have hwalk := chainWalk_isSome hs.chain start.block.author start.block.height h
      simp only [plainPrefix, hl, ← hwalk]
      split <;> simp [*]

theorem Sound.directPrefixOk_snd (hs : cache.Sound B genesis) (h : D) :
    (cache.directPrefixOk genesis h).2 = plainPrefix LaneEntry.directOk cache genesis h := by
  unfold directPrefixOk directPrefixCheck
  cases hl : cache.lookup h with
  | none => simp [plainPrefix, hl]
  | some start =>
    dsimp only
    split
    · next hv => simpa using (hs.direct h start hl hv).symm
    · have hwalk := directWalk_verified_iff hs.direct start.block.author
        start.block.height h
      rw [Bool.eq_iff_iff]
      simp only [plainPrefix, hl, ← hwalk]
      split <;> simp [*]

/-- A call keeps the cache sound, and what is `ok` stays so. -/
structure Step (B : BlockSet K D) (genesis : D) (cache cache' : LaneCache K D) : Prop where
  sound : cache'.Sound B genesis
  chain : Grows LaneEntry.verifiedOk cache cache'
  direct : Grows LaneEntry.directOk cache cache'

theorem Sound.insert (hs : cache.Sound B genesis) {d : D} {e' : LaneEntry K D}
    (hknown : B.header d = some e'.block)
    (hverified : ∀ e, cache.lookup d = some e → e.verifiedOk = true → e'.verifiedOk = true)
    (hdirect : ∀ e, cache.lookup d = some e → e.directOk = true → e'.directOk = true)
    (hchain : e'.chainVerified = true → ∃ e, cache.lookup d = some e ∧ e.chainVerified = true)
    (hpre : e'.directPrefixVerified = true →
      ∃ e, cache.lookup d = some e ∧ e.directPrefixVerified = true) :
    Step B genesis cache (cache.insert d e') := by
  have hblock : ∀ e, cache.lookup d = some e → e'.block = e.block := fun e he =>
    Option.some.inj (hknown.symm.trans (hs.known d e he))
  have hv : ∀ e, cache.lookup d = some e →
      e'.block = e.block ∧ (e.verifiedOk = true → e'.verifiedOk = true) :=
    fun e he => ⟨hblock e he, hverified e he⟩
  have hd : ∀ e, cache.lookup d = some e →
      e'.block = e.block ∧ (e.directOk = true → e'.directOk = true) :=
    fun e he => ⟨hblock e he, hdirect e he⟩
  refine ⟨⟨?_, hs.chain.insert hv hchain, hs.direct.insert hd hpre⟩, grows_insert hv,
    grows_insert hd⟩
  intro x e he
  by_cases hx : x = d
  · subst hx
    rw [AList.lookup_insert] at he
    exact Option.some.inj he ▸ hknown
  · exact hs.known x e ((AList.lookup_insert_ne hx).symm.trans he)

theorem Sound.upsert (hs : cache.Sound B genesis) {block : Header K D}
    (known : B.header block.id = some block) (direct repaired payloadOk blockOkVerified : Bool) :
    Step B genesis cache (cache.upsert block direct repaired payloadOk blockOkVerified) := by
  unfold LaneCache.upsert
  cases hl : cache.lookup block.id with
  | none => apply hs.insert known <;> simp [hl]
  | some e =>
    apply hs.insert known <;> simp only [hl, Option.some.injEq, forall_eq', exists_eq_left']
    · exact fun h => by simp_all [LaneEntry.verifiedOk]
    · exact fun h => by simp_all [LaneEntry.directOk]
    · exact id
    · exact id

theorem Sound.setPayloadOk (hs : cache.Sound B genesis) (h : D) (ok : Bool) :
    Step B genesis cache (cache.setPayloadOk h ok) := by
  unfold LaneCache.setPayloadOk modifyEntry
  split
  · exact ⟨hs, .refl _ _, .refl _ _⟩
  · next e hl =>
    have hknown : B.header h =
        some ({ e with payloadOk := e.payloadOk || ok } : LaneEntry K D).block := hs.known h e hl
    apply hs.insert hknown <;> simp only [hl, Option.some.injEq, forall_eq', exists_eq_left']
    · exact id
    · exact fun h => by simp_all [LaneEntry.directOk]
    · exact id
    · exact id

theorem Sound.mark (hs : cache.Sound B genesis) {ds : List D} (hidem : ∀ e, f (f e) = f e)
    (hentry : ∀ e, (f e).toBlockEntry = e.toBlockEntry ∧ (f e).direct = e.direct)
    (hchain : (∀ e, (f e).chainVerified = e.chainVerified) ∨
      ∀ d ∈ ds, plainPrefix LaneEntry.verifiedOk cache genesis d = true)
    (hdirect : (∀ e, (f e).directPrefixVerified = e.directPrefixVerified) ∨
      ∀ d ∈ ds, plainPrefix LaneEntry.directOk cache genesis d = true) :
    Step B genesis cache (cache.modifyEntries ds f) := by
  have hv : ∀ e, (f e).block = e.block ∧ (e.verifiedOk = true → (f e).verifiedOk = true) := by
    intro e
    simp [LaneEntry.verifiedOk, (hentry e).1]
  have hd : ∀ e, (f e).block = e.block ∧ (e.directOk = true → (f e).directOk = true) := by
    intro e
    simp [LaneEntry.directOk, (hentry e).1, (hentry e).2]
  refine ⟨⟨?_, hs.chain.modifyEntries hidem hv fun e he => ?_,
    hs.direct.modifyEntries hidem hd fun e he => ?_⟩, grows_modifyEntries hv cache ds,
    grows_modifyEntries hd cache ds⟩
  · intro d e he
    rw [lookup_modifyEntries hidem] at he
    split at he
    · obtain ⟨x, hx, rfl⟩ := Option.map_eq_some_iff.mp he
      exact (hs.known d x hx).trans (congrArg some (hv x).1.symm)
    · exact hs.known d e he
  · rcases hchain with h | h
    · exact .inl ((h e).symm.trans he)
    · exact .inr h
  · rcases hdirect with h | h
    · exact .inl ((h e).symm.trans he)
    · exact .inr h

theorem Sound.markRetained (hs : cache.Sound B genesis) (h : D) :
    Step B genesis cache (cache.markRetained h) := by
  change Step B genesis cache (cache.modifyEntries [h] fun e => { e with retained := true })
  exact hs.mark (fun _ => rfl) (fun _ => ⟨rfl, rfl⟩) (.inl fun _ => rfl) (.inl fun _ => rfl)

theorem Sound.verifiedPrefixThroughGenesis (hs : cache.Sound B genesis) (h : D) :
    Step B genesis cache (cache.verifiedPrefixThroughGenesis genesis h).1 := by
  have hstay : Step B genesis cache cache := ⟨hs, .refl _ _, .refl _ _⟩
  unfold LaneCache.verifiedPrefixThroughGenesis
  split
  · exact hstay
  split
  · exact hstay
  split
  · exact hstay
  · next hwalk =>
    exact hs.mark (fun _ => rfl) (fun _ => ⟨rfl, rfl⟩)
      (.inr (plainPrefix_of_chainWalk hs.chain hwalk)) (.inl fun _ => rfl)

theorem Sound.directPrefixOk (hs : cache.Sound B genesis) (h : D) :
    Step B genesis cache (cache.directPrefixOk genesis h).1 := by
  have hstay : Step B genesis cache cache := ⟨hs, .refl _ _, .refl _ _⟩
  unfold LaneCache.directPrefixOk directPrefixCheck
  dsimp only
  split
  · exact hstay
  split
  · exact hstay
  split
  · next start _ _ _ ds hwalk =>
    have hok : (cache.directWalk genesis start.block.author start.block.height h).1 =
        .verified := by rw [hwalk]
    have hpassed := plainPrefix_of_directWalk hs.direct hok
    rw [hwalk] at hpassed
    exact hs.mark (fun _ => rfl) (fun _ => ⟨rfl, rfl⟩) (.inl fun _ => rfl) (.inr hpassed)
  · exact hstay

theorem Sound.call (hs : cache.Sound B genesis) (c : CacheCall B) :
    Step B genesis cache (cache.call genesis c) := by
  cases c with
  | upsert block known direct repaired payloadOk blockOkVerified =>
    exact hs.upsert known direct repaired payloadOk blockOkVerified
  | markRetained h => exact hs.markRetained h
  | setPayloadOk h ok => exact hs.setPayloadOk h ok
  | verifiedPrefix h => exact hs.verifiedPrefixThroughGenesis h
  | directPrefix h => exact hs.directPrefixOk h

theorem Sound.calls (hs : cache.Sound B genesis) (calls : List (CacheCall B)) :
    Step B genesis cache (calls.foldl (LaneCache.call genesis) cache) := by
  induction calls generalizing cache with
  | nil => exact ⟨hs, .refl _ _, .refl _ _⟩
  | cons c calls ih =>
    have hcall := hs.call c
    have hrest := ih hcall.sound
    exact ⟨hrest.sound, hcall.chain.trans hrest.chain, hcall.direct.trans hrest.direct⟩

theorem sound_run (genesis : D) (calls : List (CacheCall B)) :
    (run genesis calls).Sound B genesis :=
  (Sound.calls ⟨by simp, by simp [Remembers], by simp [Remembers]⟩ calls).sound

/-- **Walks that remember are plain walks.**  After any calls, both walks answer what a plain walk
on the cache answers, and an answer `true` stays. -/
theorem remembered_walks_are_plain (genesis : D) (calls later : List (CacheCall B)) (h : D) :
    ((run genesis calls).directPrefixOk genesis h).2 =
      plainPrefix LaneEntry.directOk (run genesis calls) genesis h ∧
    ((run genesis calls).verifiedPrefixThroughGenesis genesis h).2 =
      plainPrefix LaneEntry.verifiedOk (run genesis calls) genesis h ∧
    (((run genesis calls).directPrefixOk genesis h).2 = true →
      ((run genesis (calls ++ later)).directPrefixOk genesis h).2 = true) ∧
    (((run genesis calls).verifiedPrefixThroughGenesis genesis h).2 = true →
      ((run genesis (calls ++ later)).verifiedPrefixThroughGenesis genesis h).2 = true) := by
  have hs := sound_run genesis calls
  have hs' := sound_run genesis (calls ++ later)
  have hstep := hs.calls later
  rw [run, ← List.foldl_append] at hstep
  rw [hs.directPrefixOk_snd, hs.verifiedPrefixThroughGenesis_snd, hs'.directPrefixOk_snd,
    hs'.verifiedPrefixThroughGenesis_snd]
  exact ⟨rfl, rfl, hstep.direct.plainPrefix, hstep.chain.plainPrefix⟩

end LaneCache

end Vantage
