import Vantage.Cursor.Order

/-!
# No seal is lost

The loop over the views stops only at a view that is not sealed or that lacks a block, and a seal
stays noted until its view is put out. So a retry with all blocks at hand puts out every view up to
the first one that is not sealed, whatever was missing before.

* `Cursor.Stalled`, `Cursor.pump_stalled`: where the loop stops;
* `Cursor.Noted`, `Cursor.noted_run`: a seal is noted, or its view has been put out;
* `Cursor.sealed_put_out`: a retry finalizes all sealed views with their outcomes, and the blocks
  of their manifests are in the output.
-/

namespace Vantage

variable {K D : Type} [DecidableEq K] [DecidableEq D] {cache : BlockCache K D}
  {s : Ordered K D} {m : Manifest K D}

/-- No walk from a reference of the manifest meets a block that is missing. -/
def BlockCache.Covers (cache : BlockCache K D) (m : Manifest K D) : Prop :=
  ∀ r ∈ m, ∀ stop : ℕ × D, cache.classifySuffix stop.1 stop.2 r.digest ≠ .pending

theorem Ordered.suffixes_ne_none (h : cache.Covers m) :
    s.suffixes cache m ≠ none := by
  induction m with
  | nil => exact Option.some_ne_none _
  | cons r rest ih =>
    have hrest := ih fun r' hr' => h r' (List.mem_cons_of_mem _ hr')
    have hr := h r List.mem_cons_self (s.stopOf r.author)
    unfold suffixes
    split
    · exact hrest
    · split
      · exact fun hnone => hrest (Option.map_eq_none_iff.mp hnone)
      · contradiction
      · exact hrest

theorem Ordered.suffixes_of_put (h : s.put cache m = none) : s.suffixes cache m = none :=
  Option.map_eq_none_iff.mp (Option.map_eq_none_iff.mp h)

namespace Cursor

variable {cur cur' : Cursor K D} {o : Outcome K D}

/-! ### Where the loop stops -/

/-- The next view is not sealed, or one of its blocks is missing. -/
def Stalled (cache : BlockCache K D) (cur : Cursor K D) : Prop :=
  ∀ i o, cur.pending.lookup cur.nextView = some i → i.sealed = some o →
    ∃ m ∈ o.parts, cur.suffixes cache m = none

theorem suffixes_of_emitCore {c : Manifest K D} (h : cur.emitCore cache c = none) :
    cur.suffixes cache c = none := by
  unfold emitCore at h
  split at h
  · cases h
  · exact Ordered.suffixes_of_put (Option.map_eq_none_iff.mp h)

theorem settle_cases (cache : BlockCache K D) (cur : Cursor K D) (o : Outcome K D) :
    (cur.settle cache o).1 = true ∧
        (cur.settle cache o).2.1.pending = cur.pending.erase cur.nextView ∨
      (cur.settle cache o).1 = false ∧ (cur.settle cache o).2.1.pending = cur.pending ∧
        (cur.settle cache o).2.1.nextView = cur.nextView ∧
        ∃ m ∈ o.parts, (cur.settle cache o).2.1.suffixes cache m = none := by
  cases o with
  | full c t =>
    unfold settle
    dsimp only
    split
    · next hr => exact .inr ⟨rfl, rfl, rfl, c, by simp [Outcome.parts], suffixes_of_emitCore hr⟩
    next r hr =>
    obtain ⟨hp, hv, -⟩ := emitCore_frame hr
    split
    · next hr' =>
      exact .inr ⟨rfl, hp, hv, t, by simp [Outcome.parts], Ordered.suffixes_of_put hr'⟩
    · refine .inl ⟨rfl, ?_⟩
      rw [← hp, ← hv]
      rfl
  | core c =>
    unfold settle
    dsimp only
    split
    · next hr => exact .inr ⟨rfl, rfl, rfl, c, by simp [Outcome.parts], suffixes_of_emitCore hr⟩
    next r hr =>
    obtain ⟨hp, hv, -⟩ := emitCore_frame hr
    refine .inl ⟨rfl, ?_⟩
    rw [← hp, ← hv]
    rfl
  | skip => exact .inl ⟨rfl, rfl⟩

theorem pumpLoop_stalled (n : ℕ) (cur : Cursor K D) (hn : Table.size cur.pending ≤ n) :
    Stalled cache (pumpLoop cache n cur).1 := by
  induction n generalizing cur with
  | zero =>
    intro i o (hi : cur.pending.lookup cur.nextView = some i) _
    have := Table.size_erase_of_mem (AList.lookup_isSome.mp (Option.isSome_of_eq_some hi))
    omega
  | succ n ih =>
    unfold pumpLoop
    dsimp only
    split
    · next hnone =>
      intro i o hi _
      rw [hnone] at hi
      cases hi
    next i hi =>
    obtain ⟨hp, hv⟩ := emitCompleted_frame cache i cur
    split
    · next hopen =>
      intro i' o hi' ho
      rw [hp, hv, hi] at hi'
      cases hi'
      rw [hopen] at ho
      cases ho
    next o ho =>
    rcases settle_cases cache (emitCompleted cache i cur).1 o with ⟨hset, he⟩ | ⟨hset, hrest⟩
    · rw [if_pos hset]
      refine ih _ ?_
      have := Table.size_erase_of_mem (AList.lookup_isSome.mp (Option.isSome_of_eq_some hi))
      rw [he, hp, hv]
      omega
    · obtain ⟨hp', hv', hm⟩ := hrest
      rw [if_neg (Bool.eq_false_iff.mp hset)]
      intro i' o' hi' ho'
      rw [hp', hv', hp, hv, hi] at hi'
      cases hi'
      cases ho.symm.trans ho'
      exact hm

theorem pump_stalled (cache : BlockCache K D) (cur : Cursor K D) :
    Stalled cache (pump cache cur).1 :=
  pumpLoop_stalled _ cur le_rfl

/-! ### Seals stay noted -/

variable {X : Call K D → Prop} {es : List (CursorEffect K D)} {u : ℕ}

/-- A seal of the view is noted, or the view has been put out. -/
def Noted (X : Call K D → Prop) (u : ℕ) (cur : Cursor K D) : Prop :=
  u < cur.nextView ∨ ∃ i o, cur.pending.lookup u = some i ∧ i.sealed = some o ∧ X (.sealed u o)

theorem Noted.step (h : Noted X u cur)
    (hs : Step (fun _ => True) (fun v f => ∃ x, X x ∧ x.Notes v f) cur es cur') :
    Noted X u cur' := by
  rcases h with h | ⟨i, o, hi, ho, hX⟩
  · cases hs with
    | note | core => exact .inl h
    | finalize => exact .inl (Nat.lt_succ_of_lt h)
  cases hs with
  | @note view f hN =>
    by_cases hu : u = view
    · obtain ⟨x, hx, hf⟩ := hN
      subst hu
      refine .inr ⟨f ((cur.pending.lookup u).getD {}), ?_⟩
      rw [AList.lookup_insert, hi]
      cases x with
      | completed view c t =>
        obtain ⟨rfl, rfl⟩ := hf
        exact ⟨o, rfl, ho, hX⟩
      | sealed view o' =>
        obtain ⟨rfl, rfl⟩ := hf
        exact ⟨o', rfl, rfl, hx⟩
      | retry => exact hf.elim
    · exact .inr ⟨i, o, (AList.lookup_insert_ne hu).trans hi, ho, hX⟩
  | core => exact .inr ⟨i, o, hi, ho, hX⟩
  | finalize =>
    by_cases hu : u = cur.nextView
    · exact .inl (hu ▸ Nat.lt_succ_self _)
    · exact .inr ⟨i, o, (AList.lookup_erase_ne hu).trans hi, ho, hX⟩

theorem Noted.pump (cache : BlockCache K D) (h : Noted X u cur) :
    Noted X u (pump cache cur).1 :=
  Steps.kept (fun _ _ _ hs h => Noted.step h hs) (steps_pumpLoop trivial _ cur) h

theorem noted_call (cache : BlockCache K D) {x : Call K D} (hx : X x)
    (h : Noted X u cur ∨ ∃ o, x = .sealed u o) : Noted X u (cur.call cache x).1 := by
  rcases h with h | ⟨o, rfl⟩
  · exact Steps.kept (fun _ _ _ hs h => Noted.step h hs)
      (steps_call trivial (fun _ _ hf => ⟨x, hx, hf⟩) cur) h
  · rw [call, onSealed, note]
    split
    · next hlt => exact .inl hlt
    · exact Noted.pump cache (.inr ⟨_, o, AList.lookup_insert _, rfl, hx⟩)

theorem noted_forEach {calls : List (BlockCache K D × Call K D)} (hX : ∀ x ∈ calls, X x.2)
    (h : Noted X u cur ∨ ∃ x ∈ calls, ∃ o, x.2 = .sealed u o) :
    Noted X u (Handler.forEach calls (fun x => call x.1 x.2) cur).1 := by
  induction calls generalizing cur with
  | nil => exact h.resolve_right fun ⟨_, hx, _⟩ => List.not_mem_nil hx
  | cons x calls ih =>
    refine ih (fun y hy => hX y (List.mem_cons_of_mem _ hy)) ?_
    have hx := hX x List.mem_cons_self
    rcases h with h | ⟨y, hy, o, ho⟩
    · exact .inl (noted_call _ hx (.inl h))
    rcases List.mem_cons.mp hy with rfl | hy
    · exact .inl (noted_call _ hx (.inr ⟨o, ho⟩))
    · exact .inr ⟨y, hy, o, ho⟩

/-- Once all views up to `v` have been sealed, a retry with their blocks at hand passes them all. -/
theorem lt_nextView_of_sealed (genesis : D) {calls : List (BlockCache K D × Call K D)} {v : ℕ}
    (hsealed : ∀ u, 0 < u → u ≤ v → ∃ x ∈ calls, ∃ o, x.2 = .sealed u o)
    (hcache : ∀ x ∈ calls, ∀ u o, u ≤ v → x.2 = .sealed u o → ∀ m ∈ o.parts, cache.Covers m) :
    v < (run genesis (calls ++ [(cache, .retry)])).1.nextView := by
  have hnoted : ∀ u ≤ v, Noted (fun x => ∃ y ∈ calls, y.2 = x) u (run genesis calls).1 := by
    intro u hu
    refine noted_forEach (fun x hx => ⟨x, hx, rfl⟩) ?_
    rcases Nat.eq_zero_or_pos u with rfl | hpos
    · exact .inl (.inl Nat.one_pos)
    · exact .inr (hsealed u hpos hu)
  have hlast : (run genesis (calls ++ [(cache, .retry)])).1 =
      (pump cache (run genesis calls).1).1 := by
    rw [run, Handler.forEach_append]
    rfl
  rw [hlast]
  by_contra hle
  have hle := not_lt.mp hle
  rcases (hnoted _ hle).pump cache with hlt | ⟨i, o, hi, ho, x, hx, hxo⟩
  · exact lt_irrefl _ hlt
  · obtain ⟨m, hm, hnone⟩ := pump_stalled cache _ i o hi ho
    exact Ordered.suffixes_ne_none (hcache x hx _ o hle hxo m hm) hnone

/-- **No seal is lost.**  Let all views up to `v` be sealed with their outcomes, in any order and
whatever was missing then.  A retry with the blocks of their manifests at hand leaves them all
finalized with their outcomes.  And for every manifest of such a view, in the state in which the
course of the output comes to it, the blocks that the cache has above the watermarks are in the
output. -/
theorem sealed_put_out {G : Settlement K D} {calls : List (BlockCache K D × Call K D)} {v : ℕ}
    (hcalls : ∀ x ∈ calls, G.blocks.Holds x.1 ∧ x.2.Fits G) (hholds : G.blocks.Holds cache)
    (hsealed : ∀ u, 0 < u → u ≤ v → ∃ x ∈ calls, x.2 = .sealed u (G.outcome u))
    (hcache : ∀ u ≤ v, ∀ m ∈ (G.outcome u).parts, cache.Covers m) {u : ℕ} (hpos : 0 < u)
    (hu : u ≤ v) :
    (∃ delta, (u, (G.outcome u).toSequence, delta) ∈
        finalized (run G.genesis (calls ++ [(cache, .retry)])).2) ∧
      ∀ j m, (G.outcome u).parts[j]? = some m → ∃ s f found, Course G u j s f ∧
        s.suffixes cache m = some found ∧ ∀ x ∈ found, ∀ d ∈ x.2,
          d ∈ (run G.genesis (calls ++ [(cache, .retry)])).1.output := by
  have hnext : v < (run G.genesis (calls ++ [(cache, .retry)])).1.nextView := by
    refine lt_nextView_of_sealed _ (fun u hpos hu => ?_) fun x hx u o hle ho => ?_
    · obtain ⟨x, hx, ho⟩ := hsealed u hpos hu
      exact ⟨x, hx, _, ho⟩
    · obtain rfl : o = G.outcome u := by
        have hfits := (hcalls x hx).2
        rwa [ho] at hfits
      exact hcache u hle
  have hrun : ∀ x ∈ calls ++ [(cache, Call.retry)], G.blocks.Holds x.1 ∧ x.2.Fits G := by
    intro x hx
    rcases List.mem_append.mp hx with hx | hx
    · exact hcalls x hx
    · rw [List.mem_singleton.mp hx]
      exact ⟨hholds, trivial⟩
  have hcourse := (follows_run hrun).course
  have hlt : u < (run G.genesis (calls ++ [(cache, .retry)])).1.nextView := hu.trans_lt hnext
  refine ⟨hcourse.mem_finalized hpos hlt, fun j m hm => ?_⟩
  obtain ⟨s₀, s₁, f₀, hc, ⟨cache', found', hholds', hfound', rfl⟩, hsub⟩ :=
    hcourse.exists_part hm hpos (.inl hlt)
  obtain ⟨found, hfound⟩ := Option.ne_none_iff_exists'.mp
    (Ordered.suffixes_ne_none (s := s₀) (hcache u hu m (List.mem_of_getElem? hm)))
  -- the cache of the retry finds what was found when the part was put out
  obtain rfl := Ordered.suffixes_agree hholds hholds' hfound hfound'
  exact ⟨s₀, f₀, found, hc, hfound, fun x hx d hd => hsub (Ordered.mem_output_grow hx hd)⟩

/-- The first block of the only author. -/
def firstBlock : BlockCache (Fin 1) ℕ :=
  AList.singleton 5 ⟨{ author := 0, height := 1, parent := 0, id := 5, payload := [] }, true, true⟩

theorem firstBlock_covers : firstBlock.Covers [⟨0, 1, 5⟩] := by
  intro r hr stop
  rw [List.mem_singleton.mp hr]
  change firstBlock.walk 0 stop.1 stop.2 1 5 [] ≠ .pending
  rw [BlockCache.walk]
  split_ifs
  · simp
  · simp
  · change firstBlock.walk 0 stop.1 stop.2 0 0 [5] ≠ .pending
    rw [BlockCache.walk]
    split_ifs <;> simp

/-- One view with the block and then nothing. -/
def oneBlock : Settlement (Fin 1) ℕ where
  blocks :=
    { header d := if d = 5 then some ⟨5, 0, 1, 0, []⟩ else none
      id_of_header h := by
        split at h
        · next hd =>
          obtain rfl := Option.some.inj h
          exact hd.symm
        · cases h }
  genesis := 0
  outcome u := if u = 1 then .core [⟨0, 1, 5⟩] else .skip

theorem oneBlock_holds_empty : oneBlock.blocks.Holds ∅ := fun _ _ h => by cases h

theorem oneBlock_holds_firstBlock : oneBlock.blocks.Holds firstBlock := by
  intro d e h
  have hmem : (⟨d, e⟩ : Sigma fun _ : ℕ => BlockEntry (Fin 1) ℕ) ∈ firstBlock.entries :=
    AList.mem_lookup_iff.mp h
  cases List.mem_singleton.mp hmem
  rfl

/-- The seals come in the wrong order, and the block comes last. -/
theorem sealed_put_out_late :
    let calls : List (BlockCache (Fin 1) ℕ × Call (Fin 1) ℕ) :=
      [(∅, .sealed 2 .skip), (∅, .sealed 1 (.core [⟨0, 1, 5⟩]))]
    finalized (run 0 calls).2 = [] ∧ (run 0 calls).1.output = {0} ∧
      (∃ delta, (1, .core [⟨0, 1, 5⟩], delta) ∈
        finalized (run 0 (calls ++ [(firstBlock, .retry)])).2) ∧
      5 ∈ (run 0 (calls ++ [(firstBlock, .retry)])).1.output := by
  intro calls
  have hcalls : ∀ x ∈ calls, oneBlock.blocks.Holds x.1 ∧ x.2.Fits oneBlock := by
    intro x hx
    rcases List.mem_cons.mp hx with rfl | hx
    · exact ⟨oneBlock_holds_empty, rfl⟩
    · rw [List.mem_singleton.mp hx]
      exact ⟨oneBlock_holds_empty, rfl⟩
  have hsealed : ∀ u, 0 < u → u ≤ 2 → ∃ x ∈ calls, x.2 = .sealed u (oneBlock.outcome u) := by
    intro u hpos hu
    obtain rfl | rfl : u = 1 ∨ u = 2 := by omega
    · exact ⟨_, List.mem_cons_of_mem _ List.mem_cons_self, rfl⟩
    · exact ⟨_, List.mem_cons_self, rfl⟩
  have hcache : ∀ u ≤ 2, ∀ m ∈ (oneBlock.outcome u).parts, firstBlock.Covers m := by
    intro u _ m hm
    simp only [oneBlock] at hm
    split at hm
    · rw [List.mem_singleton.mp hm]
      exact firstBlock_covers
    · cases hm
  obtain ⟨hfinal, hparts⟩ :=
    sealed_put_out hcalls oneBlock_holds_firstBlock hsealed hcache Nat.one_pos (by decide)
  obtain ⟨s, f, found, hcourse, hfound, hout⟩ := hparts 0 [⟨0, 1, 5⟩] rfl
  obtain ⟨rfl, -⟩ := hcourse.unique .start
  obtain rfl := Option.some.inj ((by decide +kernel : Ordered.suffixes firstBlock
    { genesis := oneBlock.genesis } [⟨0, 1, 5⟩] = some [(⟨0, 1, 5⟩, [5])]).symm.trans hfound)
  exact ⟨by decide +kernel, by decide +kernel, hfinal,
    hout _ (List.mem_singleton_self _) 5 (List.mem_singleton_self _)⟩

end Cursor

end Vantage
