import Vantage.Cursor.Cursor

/-!
# The output does not depend on the order of events

Missing blocks only delay a walk: two caches of the same blocks that both let it end let it end
alike. So the outcomes of the views determine all output, whatever arrives when.

* `BlockSet.Holds`: a cache of the blocks of a set; `walk_agree`, `suffixes_agree`: walks and
  expansions that end agree;
* `Course`: how the output comes about, part by part; `Course.unique`: in one way only;
* `Cursor.Follows`: a cursor is on this course; `Cursor.follows_run`: in every run;
* `Cursor.continues_run`: of two outputs one continues the other.
-/

namespace Vantage

variable {K D : Type} [DecidableEq K] [DecidableEq D]

/-! ### Walks and expansions -/

/-- The cache holds blocks of the set, each under its digest. -/
def BlockSet.Holds (B : BlockSet K D) (cache : BlockCache K D) : Prop :=
  ∀ d e, cache.lookup d = some e → B.header d = some e.block

variable {B : BlockSet K D} {cache cache' : BlockCache K D}

namespace BlockCache

omit [DecidableEq K] in
theorem block_eq (h : B.Holds cache) (h' : B.Holds cache') {d : D} {e e' : BlockEntry K D}
    (he : cache.lookup d = some e) (he' : cache'.lookup d = some e') : e.block = e'.block :=
  Option.some.inj ((h d e he).symm.trans (h' d e' he'))

/-- A walk that goes on past a block goes on with its parent. -/
theorem walk_succ {author : K} {stop : ℕ × D} {n : ℕ} {d : D} {chain : List D}
    (hne : n + 1 ≠ stop.1) (hw : cache.walk author stop.1 stop.2 (n + 1) d chain ≠ .pending) :
    ∃ e, cache.lookup d = some e ∧ cache.walk author stop.1 stop.2 (n + 1) d chain =
      cache.walk author stop.1 stop.2 n e.block.parent (d :: chain) := by
  rw [walk, if_neg hne] at hw ⊢
  cases he : cache.lookup d with
  | none => simp [he] at hw
  | some e =>
    refine ⟨e, rfl, ?_⟩
    simp only [he] at hw ⊢
    split_ifs at hw ⊢
    · exact absurd rfl hw
    · exact absurd rfl hw
    · rfl

theorem walk_agree (h : B.Holds cache) (h' : B.Holds cache') (author : K) (stop : ℕ × D) :
    ∀ (n : ℕ) (d : D) (chain : List D), cache.walk author stop.1 stop.2 n d chain ≠ .pending →
      cache'.walk author stop.1 stop.2 n d chain ≠ .pending →
      cache.walk author stop.1 stop.2 n d chain = cache'.walk author stop.1 stop.2 n d chain := by
  intro n
  induction n with
  | zero => exact fun _ _ _ _ => rfl
  | succ n ih =>
    intro d chain hw hw'
    by_cases hne : n + 1 = stop.1
    · rw [walk, walk, if_pos hne, if_pos hne]
    · obtain ⟨e, he, hstep⟩ := walk_succ hne hw
      obtain ⟨e', he', hstep'⟩ := walk_succ hne hw'
      rw [hstep] at hw ⊢
      rw [hstep', ← block_eq h h' he he'] at hw' ⊢
      exact ih _ _ hw hw'

theorem classifySuffix_agree (h : B.Holds cache) (h' : B.Holds cache') (stop : ℕ × D) (d : D)
    (hw : cache.classifySuffix stop.1 stop.2 d ≠ .pending)
    (hw' : cache'.classifySuffix stop.1 stop.2 d ≠ .pending) :
    cache.classifySuffix stop.1 stop.2 d = cache'.classifySuffix stop.1 stop.2 d := by
  unfold classifySuffix at hw hw' ⊢
  cases he : cache.lookup d with
  | none => simp [he] at hw
  | some e =>
    cases he' : cache'.lookup d with
    | none => simp [he'] at hw'
    | some e' =>
      simp only [he, he', block_eq h h' he he'] at hw hw' ⊢
      exact walk_agree h h' _ stop _ _ _ hw hw'

end BlockCache

omit [DecidableEq K] in
theorem unseen_fresh (l : List D) (seen : Finset D) :
    (unseen seen l).Nodup ∧ ∀ d ∈ unseen seen l, d ∉ seen := by
  induction l generalizing seen with
  | nil => exact ⟨.nil, fun d hd => absurd hd List.not_mem_nil⟩
  | cons h l ih =>
    unfold unseen
    split
    · exact ih seen
    next hout =>
    obtain ⟨hnodup, hnew⟩ := ih (insert h seen)
    refine ⟨List.nodup_cons.mpr ⟨fun hh => hnew h hh (Finset.mem_insert_self _ _), hnodup⟩, ?_⟩
    intro d hd
    rcases List.mem_cons.mp hd with rfl | hd
    · exact hout
    · exact fun hs => hnew d hd (Finset.mem_insert_of_mem hs)

omit [DecidableEq K] in
theorem mem_unseen {l : List D} {seen : Finset D} {d : D} (h : d ∈ l) :
    d ∈ seen ∨ d ∈ unseen seen l := by
  induction l generalizing seen with
  | nil => cases h
  | cons a l ih =>
    unfold unseen
    split
    · next ha =>
      rcases List.mem_cons.mp h with rfl | h
      · exact .inl ha
      · exact ih h
    · rcases List.mem_cons.mp h with rfl | h
      · exact .inr List.mem_cons_self
      · have hrest : d ∈ insert a seen ∨ d ∈ unseen (insert a seen) l := ih h
        rcases hrest with hs | hu
        · rcases Finset.mem_insert.mp hs with rfl | hs
          · exact .inr List.mem_cons_self
          · exact .inl hs
        · exact .inr (List.mem_cons_of_mem _ hu)

/-- The view that an effect finalizes, with its outcome and its digests. -/
def CursorEffect.final? : CursorEffect K D → Option (ℕ × SequenceOutcome K D × List D)
  | .notifyCommitted .. => none
  | .sequenceFinalized view o delta => some (view, o, delta)

namespace Ordered

variable {s s' s'' : Ordered K D} {m : Manifest K D}

theorem suffixes_agree (h : B.Holds cache) (h' : B.Holds cache') :
    ∀ {m : Manifest K D} {found found' : List (BlockRef K D × List D)},
      s.suffixes cache m = some found → s.suffixes cache' m = some found' → found = found'
  | [], _, _, hf, hf' => by
    cases hf
    cases hf'
    rfl
  | r :: rest, found, found', hf, hf' => by
    unfold suffixes at hf hf'
    split at hf
    · next hle =>
      rw [if_pos hle] at hf'
      exact suffixes_agree h h' hf hf'
    next hlt =>
    rw [if_neg hlt] at hf'
    have agree := BlockCache.classifySuffix_agree h h' (s.stopOf r.author) r.digest
    cases hw : cache.classifySuffix (s.stopOf r.author).1 (s.stopOf r.author).2 r.digest <;>
      cases hw' : cache'.classifySuffix (s.stopOf r.author).1 (s.stopOf r.author).2 r.digest <;>
      simp only [hw, hw', Option.map_eq_some_iff, reduceCtorEq, ne_eq, not_false_eq_true,
        forall_const, SuffixWalk.ready.injEq] at hf hf' agree
    · obtain ⟨tail, hf, rfl⟩ := hf
      obtain ⟨tail', hf', rfl⟩ := hf'
      rw [agree, suffixes_agree h h' hf hf']
    · exact suffixes_agree h h' hf hf'

/-- The output with the new digests of the suffixes. -/
def grow (s : Ordered K D) (found : List (BlockRef K D × List D)) : Ordered K D :=
  let hashes := unseen s.output (found.flatMap Prod.snd)
  { s with
    output := s.output ∪ hashes.toFinset
    delta := s.delta ++ hashes
    watermarks := moveTo s.watermarks found }

theorem mem_output_grow {found : List (BlockRef K D × List D)} {x : BlockRef K D × List D}
    (hx : x ∈ found) {d : D} (hd : d ∈ x.2) : d ∈ (s.grow found).output := by
  have hmem : d ∈ found.flatMap Prod.snd := List.mem_flatMap.mpr ⟨x, hx, hd⟩
  exact Finset.mem_union.mpr ((mem_unseen hmem).imp_right List.mem_toFinset.mpr)

theorem put_eq_some {r : Ordered K D × List (CursorEffect K D)} (h : s.put cache m = some r) :
    ∃ found, s.suffixes cache m = some found ∧ r.1 = s.grow found ∧
      ∀ x ∈ r.2, x.final? = none := by
  obtain ⟨_, hx, rfl⟩ := Option.map_eq_some_iff.mp h
  obtain ⟨found, hf, rfl⟩ := Option.map_eq_some_iff.mp hx
  refine ⟨found, hf, ?_⟩
  unfold emit grow
  split
  · next hnil =>
    dsimp only at hnil ⊢
    simp [hnil]
  · exact ⟨rfl, fun x hx => by rw [List.mem_singleton.mp hx]; rfl⟩

/-- A manifest is put out, with the blocks of some cache. -/
def Adds (B : BlockSet K D) (m : Manifest K D) (s s' : Ordered K D) : Prop :=
  ∃ cache found, B.Holds cache ∧ s.suffixes cache m = some found ∧ s' = s.grow found

theorem Adds.unique (h : Adds B m s s') (h' : Adds B m s s'') : s' = s'' := by
  obtain ⟨cache, found, hc, hf, rfl⟩ := h
  obtain ⟨cache', found', hc', hf', rfl⟩ := h'
  rw [suffixes_agree hc hc' hf hf']

end Ordered

/-! ### The course of the output -/

/-- The manifests that a view with this outcome puts out. -/
def Outcome.parts : Outcome K D → List (Manifest K D)
  | .full c t => [c, t]
  | .core c => [c]
  | .skip => []

/-- The outcome as the sequence records it. -/
def Outcome.toSequence : Outcome K D → SequenceOutcome K D
  | .full c t => .full c t
  | .core c => .core c
  | .skip => .skip

/-- What determines the output: the blocks there are and the outcome of every view. -/
structure Settlement (K D : Type) where
  blocks : BlockSet K D
  genesis : D
  outcome : ℕ → Outcome K D

/-- The finalized views with their outcomes and their digests. -/
abbrev Finalized (K D : Type) : Type := List (ℕ × SequenceOutcome K D × List D)

/-- All digests put out so far, in order. -/
def log (s : Ordered K D) (f : Finalized K D) : List D := f.flatMap (·.2.2) ++ s.delta

omit [DecidableEq K] [DecidableEq D] in
/-- Finalizing a view puts out nothing more. -/
theorem log_finalized (s : Ordered K D) (f : Finalized K D) (v : ℕ) (o : SequenceOutcome K D) :
    log { s with delta := [] } (f ++ [(v, o, s.delta)]) = log s f := by
  simp [log]

/-- The output after `k` parts of view `v`. -/
inductive Course (G : Settlement K D) : ℕ → ℕ → Ordered K D → Finalized K D → Prop
  | start : Course G 1 0 { genesis := G.genesis } []
  | part {v k m s s' f} (h : Course G v k s f) (hm : (G.outcome v).parts[k]? = some m)
      (hs : Ordered.Adds G.blocks m s s') : Course G v (k + 1) s' f
  | next {v s f} (h : Course G v (G.outcome v).parts.length s f) :
      Course G (v + 1) 0 { s with delta := [] } (f ++ [(v, (G.outcome v).toSequence, s.delta)])

namespace Course

variable {G : Settlement K D} {v v' k k' : ℕ} {s s' : Ordered K D} {f f' : Finalized K D}

theorem bounds (h : Course G v k s f) : 0 < v ∧ k ≤ (G.outcome v).parts.length := by
  induction h with
  | start => exact ⟨Nat.one_pos, Nat.zero_le _⟩
  | part _ hm _ ih => exact ⟨ih.1, (List.getElem?_eq_some_iff.mp hm).1⟩
  | next => exact ⟨Nat.succ_pos _, Nat.zero_le _⟩

/-- The outcomes leave one course. -/
theorem unique (h : Course G v k s f) (h' : Course G v k s' f') : s = s' ∧ f = f' := by
  induction h generalizing s' f' with
  | start =>
    cases h' with
    | start => exact ⟨rfl, rfl⟩
    | next h => exact absurd h.bounds.1 (lt_irrefl 0)
  | part _ hm hs ih =>
    cases h' with
    | part h' hm' hs' =>
      obtain ⟨rfl, rfl⟩ := ih h'
      cases hm.symm.trans hm'
      exact ⟨hs.unique hs', rfl⟩
  | next h ih =>
    cases h' with
    | start => exact absurd h.bounds.1 (lt_irrefl 0)
    | next h' =>
      obtain ⟨rfl, rfl⟩ := ih h'
      exact ⟨rfl, rfl⟩

/-- Every view that the course has passed is finalized, with its outcome. -/
theorem mem_finalized (h : Course G v k s f) {u : ℕ} (hpos : 0 < u) (hu : u < v) :
    ∃ delta, (u, (G.outcome u).toSequence, delta) ∈ f := by
  induction h with
  | start => omega
  | part _ _ _ ih => exact ih hu
  | @next v s f _ ih =>
    rcases Nat.lt_succ_iff_lt_or_eq.mp hu with hlt | rfl
    · obtain ⟨delta, hmem⟩ := ih hlt
      exact ⟨delta, List.mem_append_left _ hmem⟩
    · exact ⟨s.delta, List.mem_append_right _ (List.mem_singleton_self _)⟩

/-- Every part that the course has passed was put out in its turn, and its blocks are in the
output. -/
theorem exists_part (h : Course G v k s f) {u j : ℕ} {m : Manifest K D}
    (hm : (G.outcome u).parts[j]? = some m) (hu : 0 < u) (hlt : u < v ∨ u = v ∧ j < k) :
    ∃ s₀ s₁ f₀, Course G u j s₀ f₀ ∧ Ordered.Adds G.blocks m s₀ s₁ ∧ s₁.output ⊆ s.output := by
  induction h with
  | start => omega
  | @part v k m' s s' f h hm' hs ih =>
    by_cases heq : u = v ∧ j = k
    · obtain ⟨rfl, rfl⟩ := heq
      obtain rfl := Option.some.inj (hm.symm.trans hm')
      exact ⟨s, s', f, h, hs, subset_rfl⟩
    · obtain ⟨s₀, s₁, f₀, hc, ha, hsub⟩ := ih (by omega)
      obtain ⟨-, found, -, -, rfl⟩ := hs
      exact ⟨s₀, s₁, f₀, hc, ha, hsub.trans Finset.subset_union_left⟩
  | @next v s f h ih =>
    have hj := (List.getElem?_eq_some_iff.mp hm).1
    refine ih ?_
    rcases hlt with hlt | ⟨-, hlt⟩
    · rcases Nat.lt_succ_iff_lt_or_eq.mp hlt with hlt | rfl
      · exact .inl hlt
      · exact .inr ⟨rfl, hj⟩
    · omega

/-- What is put out later continues what was put out before. -/
theorem continues (h : Course G v k s f) (h' : Course G v' k' s' f')
    (hle : v < v' ∨ v = v' ∧ k ≤ k') : f <+: f' ∧ log s f <+: log s' f' := by
  have same : ∀ {v' k' s' f'}, Course G v' k' s' f' → v = v' ∧ k = k' →
      f <+: f' ∧ log s f <+: log s' f' := by
    rintro v' k' s' f' h' ⟨rfl, rfl⟩
    obtain ⟨rfl, rfl⟩ := h.unique h'
    exact ⟨List.prefix_rfl, List.prefix_rfl⟩
  -- unless it is the same position, it lies before the last step of the later course
  induction h' with
  | start =>
    have := h.bounds.1
    exact same .start (by omega)
  | @part v' k' _ _ _ _ h₀ hm hs ih =>
    by_cases heq : v = v' ∧ k = k' + 1
    · exact same (.part h₀ hm hs) heq
    · obtain ⟨hf, hlog⟩ := ih (by omega)
      obtain ⟨_, found, _, _, rfl⟩ := hs
      refine ⟨hf, hlog.trans ?_⟩
      rw [log, log, Ordered.grow, ← List.append_assoc]
      exact List.prefix_append _ _
  | @next v' _ _ h₀ ih =>
    by_cases heq : v = v' + 1 ∧ k = 0
    · exact same (.next h₀) heq
    · have hk := h.bounds.2
      obtain ⟨hf, hlog⟩ := ih (by
        rcases Nat.lt_or_ge v v' with hv | hv
        · exact .inl hv
        · obtain rfl : v = v' := by omega
          exact .inr ⟨rfl, hk⟩)
      refine ⟨hf.trans (List.prefix_append _ _), ?_⟩
      rwa [log_finalized]

end Course

/-- The inputs of a view fit its outcome. -/
structure ViewInput.Fits (i : ViewInput K D) (o : Outcome K D) : Prop where
  completed : ∀ c t, i.completed = some (c, t) → o.parts[0]? = some c
  sealed : ∀ o', i.sealed = some o' → o' = o

/-! ### The steps of a cursor -/

namespace Cursor

variable {C : BlockCache K D → Prop} {N : ℕ → (ViewInput K D → ViewInput K D) → Prop}
  {cur cur' : Cursor K D} {out es : List (CursorEffect K D)} {o : Outcome K D}

/-- What is left to put out when the core is out. -/
def Rest (C : BlockCache K D → Prop) (cur : Cursor K D) (s : Ordered K D)
    (es : List (CursorEffect K D)) : Outcome K D → Prop
  | .full _ t => cur.nextView ∈ cur.coreEmitted ∧ ∃ cache, C cache ∧ cur.put cache t = some (s, es)
  | .core _ => cur.nextView ∈ cur.coreEmitted ∧ s = cur.toOrdered ∧ es = []
  | .skip => s = cur.toOrdered ∧ es = []

/-- The steps with caches of one kind and inputs of one kind. -/
inductive Step (C : BlockCache K D → Prop) (N : ℕ → (ViewInput K D → ViewInput K D) → Prop) :
    Cursor K D → List (CursorEffect K D) → Cursor K D → Prop
  | note {cur view f} (hN : N view f) :
      Step C N cur []
        { cur with pending := cur.pending.insert view (f ((cur.pending.lookup view).getD {})) }
  | core {cur cache i c r} (hC : C cache) (hi : cur.pending.lookup cur.nextView = some i)
      (hc : (∃ t, i.completed = some (c, t)) ∨ ∃ o, i.sealed = some o ∧ o.parts[0]? = some c)
      (hn : cur.nextView ∉ cur.coreEmitted) (hr : cur.put cache c = some r) :
      Step C N cur r.2
        { cur with toOrdered := r.1, coreEmitted := insert cur.nextView cur.coreEmitted }
  | finalize {cur i o s es} (hi : cur.pending.lookup cur.nextView = some i)
      (ho : i.sealed = some o) (hs : Rest C cur s es o) :
      Step C N cur (es ++ (Cursor.finalize o.toSequence { cur with toOrdered := s }).2)
        (Cursor.finalize o.toSequence { cur with toOrdered := s }).1

variable {i : ViewInput K D} {c m : Manifest K D} {s s' : Ordered K D}
  {r : Cursor K D × List (CursorEffect K D)}

theorem emitCore_frame (h : cur.emitCore cache c = some r) :
    r.1.pending = cur.pending ∧ r.1.nextView = cur.nextView ∧ r.1.nextView ∈ r.1.coreEmitted := by
  unfold emitCore at h
  split at h
  · next hin =>
    cases h
    exact ⟨rfl, rfl, hin⟩
  · obtain ⟨_, _, rfl⟩ := Option.map_eq_some_iff.mp h
    exact ⟨rfl, rfl, Finset.mem_insert_self _ _⟩

/-- The core is put out in one step at most, and nothing else about the view changes. -/
theorem steps_emitCore (hC : C cache) (hi : cur.pending.lookup cur.nextView = some i)
    (hc : (∃ t, i.completed = some (c, t)) ∨ ∃ o, i.sealed = some o ∧ o.parts[0]? = some c)
    (h : cur.emitCore cache c = some r) : Steps (Step C N) cur r.2 r.1 := by
  unfold emitCore at h
  split at h
  · cases h
    exact .refl _
  · next hout =>
    obtain ⟨_, hr', rfl⟩ := Option.map_eq_some_iff.mp h
    exact .single (.core hC hi hc hout hr')

theorem emitCompleted_frame (cache : BlockCache K D) (i : ViewInput K D) (cur : Cursor K D) :
    (cur.emitCompleted cache i).1.pending = cur.pending ∧
      (cur.emitCompleted cache i).1.nextView = cur.nextView := by
  unfold emitCompleted
  cases h : i.completed.bind fun x => cur.emitCore cache x.1 with
  | none => exact ⟨rfl, rfl⟩
  | some r =>
    obtain ⟨_, _, hr⟩ := Option.bind_eq_some_iff.mp h
    exact ⟨(emitCore_frame hr).1, (emitCore_frame hr).2.1⟩

theorem steps_emitCompleted (hC : C cache) (hi : cur.pending.lookup cur.nextView = some i) :
    Steps (Step C N) cur (cur.emitCompleted cache i).2 (cur.emitCompleted cache i).1 := by
  unfold emitCompleted
  cases h : i.completed.bind fun x => cur.emitCore cache x.1 with
  | none => exact .refl _
  | some r =>
    obtain ⟨⟨c, t⟩, hc, hr⟩ := Option.bind_eq_some_iff.mp h
    exact steps_emitCore hC hi (.inl ⟨t, hc⟩) hr

theorem steps_settle (hC : C cache) (hi : cur.pending.lookup cur.nextView = some i)
    (ho : i.sealed = some o) :
    Steps (Step C N) cur (cur.settle cache o).2.2 (cur.settle cache o).2.1 := by
  cases o with
  | full c t =>
    unfold settle
    dsimp only
    split
    · exact .refl _
    next r hr =>
    have hs := steps_emitCore (N := N) hC hi (.inr ⟨_, ho, rfl⟩) hr
    obtain ⟨hp, hv, hin⟩ := emitCore_frame hr
    split
    · exact hs
    next r' hr' =>
    rw [← hp, ← hv] at hi
    have := hs.trans (.single (.finalize hi ho ⟨hin, cache, hC, hr'⟩))
    rwa [← List.append_assoc] at this
  | core c =>
    unfold settle
    dsimp only
    split
    · exact .refl _
    next r hr =>
    have hs := steps_emitCore (N := N) hC hi (.inr ⟨_, ho, rfl⟩) hr
    obtain ⟨hp, hv, hin⟩ := emitCore_frame hr
    rw [← hp, ← hv] at hi
    exact hs.trans (.single (.finalize hi ho ⟨hin, rfl, rfl⟩))
  | skip => exact .single (.finalize hi ho ⟨rfl, rfl⟩)

theorem steps_pumpLoop (hC : C cache) (n : ℕ) (cur : Cursor K D) :
    Steps (Step C N) cur (pumpLoop cache n cur).2 (pumpLoop cache n cur).1 := by
  induction n generalizing cur with
  | zero => exact .refl _
  | succ n ih =>
    unfold pumpLoop
    dsimp only
    split
    · exact .refl _
    next i hi =>
    have hs := steps_emitCompleted (N := N) hC hi
    split
    · exact hs
    next o ho =>
    obtain ⟨hp, hv⟩ := emitCompleted_frame cache i cur
    rw [← hp, ← hv] at hi
    have hsettle := hs.trans (steps_settle hC hi ho)
    split
    · exact hsettle.trans (ih _)
    · exact hsettle

/-- What a call notes about a view. -/
def Call.Notes : Call K D → ℕ → (ViewInput K D → ViewInput K D) → Prop
  | .completed view c t, v, f => v = view ∧ f = fun i => { i with completed := some (c, t) }
  | .sealed view o, v, f => v = view ∧ f = fun i => { i with sealed := some o }
  | .retry, _, _ => False

theorem steps_call {x : Call K D} (hC : C cache) (hN : ∀ v f, x.Notes v f → N v f)
    (cur : Cursor K D) :
    Steps (Step C N) cur (cur.call cache x).2 (cur.call cache x).1 := by
  have noted : ∀ {view f}, N view f →
      Steps (Step C N) cur (cur.note cache view f).2 (cur.note cache view f).1 := by
    intro view f hf
    unfold note
    split
    · exact .refl _
    · exact .silent (.note hf) (steps_pumpLoop hC _ _)
  cases x with
  | completed view c t => exact noted (hN _ _ ⟨rfl, rfl⟩)
  | sealed view o => exact noted (hN _ _ ⟨rfl, rfl⟩)
  | retry => exact steps_pumpLoop hC _ _

/-- Every run is a sequence of steps. -/
theorem steps_run {genesis : D} {calls : List (BlockCache K D × Call K D)}
    (h : ∀ x ∈ calls, C x.1 ∧ ∀ v f, x.2.Notes v f → N v f) :
    Steps (Step C N) { genesis } (run genesis calls).2 (run genesis calls).1 :=
  Handler.Follows.forEach (fun x hx => steps_call (h x hx).1 (h x hx).2) _

/-! ### Exactly once -/

/-- The finalized views among the effects. -/
def finalized (out : List (CursorEffect K D)) : Finalized K D := out.filterMap (·.final?)

theorem finalized_of_put (h : s.put cache m = some (s', es)) :
    finalized (out ++ es) = finalized out := by
  obtain ⟨_, -, -, hes⟩ := Ordered.put_eq_some h
  rw [finalized, List.filterMap_append, List.filterMap_eq_nil_iff.mpr hes, List.append_nil]
  rfl

/-- No digest is in the output twice, and the output is what was put out. -/
def LogOk (genesis : D) (s : Ordered K D) (f : Finalized K D) : Prop :=
  (genesis :: log s f).Nodup ∧ s.output = (genesis :: log s f).toFinset

variable {genesis : D}

theorem LogOk.put (h : LogOk genesis s (finalized out)) (hp : s.put cache m = some (s', es)) :
    LogOk genesis s' (finalized (out ++ es)) := by
  obtain ⟨found, -, hs, -⟩ := Ordered.put_eq_some hp
  obtain ⟨hnodup, hnew⟩ := unseen_fresh (found.flatMap Prod.snd) s.output
  have hlog : genesis :: log s' (finalized (out ++ es)) = genesis :: log s (finalized out) ++
      unseen s.output (found.flatMap Prod.snd) := by
    rw [finalized_of_put hp, show s' = s.grow found from hs, log, Ordered.grow,
      ← List.append_assoc]
    rfl
  refine ⟨?_, ?_⟩ <;> rw [hlog]
  · refine h.1.append hnodup fun d hd hd' => hnew d hd' ?_
    rw [h.2]
    exact List.mem_toFinset.mpr hd
  · rw [List.toFinset_append, ← h.2, show s' = s.grow found from hs, Ordered.grow]

theorem LogOk.step (hlog : LogOk genesis cur.toOrdered (finalized out))
    (h : Step C N cur es cur') : LogOk genesis cur'.toOrdered (finalized (out ++ es)) := by
  cases h with
  | note _ => rwa [List.append_nil]
  | core _ _ _ _ hr => exact hlog.put hr
  | @finalize _ o s es _ _ hs =>
    have hlog' : LogOk genesis s (finalized (out ++ es)) := by
      cases o with
      | full c t =>
        obtain ⟨-, cache, -, hp⟩ := hs
        exact hlog.put hp
      | core c =>
        obtain ⟨-, rfl, rfl⟩ := hs
        rwa [List.append_nil]
      | skip =>
        obtain ⟨rfl, rfl⟩ := hs
        rwa [List.append_nil]
    rw [← List.append_assoc, finalized, List.filterMap_append]
    have hl := log_finalized s (finalized (out ++ es)) cur.nextView o.toSequence
    exact ⟨hl ▸ hlog'.1, hl ▸ hlog'.2⟩

/-- Whatever the cursor is told and whatever blocks it has, in any order: it puts out no digest
twice, and never the genesis digest. -/
theorem output_exactly_once (genesis : D) (calls : List (BlockCache K D × Call K D)) :
    (genesis :: log (run genesis calls).1.toOrdered (finalized (run genesis calls).2)).Nodup := by
  have hsteps : Steps (Step (fun _ => True) fun _ _ => True) { genesis } (run genesis calls).2
      (run genesis calls).1 := steps_run fun x _ => ⟨trivial, fun _ _ _ => trivial⟩
  have hlog : LogOk genesis { genesis } (finalized ([] : List (CursorEffect K D))) :=
    ⟨List.nodup_singleton _, rfl⟩
  exact (hsteps.invariant (I := fun cur out => LogOk genesis cur.toOrdered (finalized out))
    (fun _ _ _ _ hlog hs => hlog.step hs) hlog).1

/-! ### Cursors follow the course -/

variable {G : Settlement K D}

/-- The cursor is on the course, and what it has noted fits the outcomes. -/
structure Follows (G : Settlement K D) (cur : Cursor K D) (out : List (CursorEffect K D)) :
    Prop where
  course : Course G cur.nextView (if cur.nextView ∈ cur.coreEmitted then 1 else 0) cur.toOrdered
    (finalized out)
  current : ∀ v ∈ cur.coreEmitted, v = cur.nextView
  pending : ∀ v i, cur.pending.lookup v = some i → i.Fits (G.outcome v)

/-- The notes that keep the inputs of a view fitting. -/
def Keeps (G : Settlement K D) (v : ℕ) (f : ViewInput K D → ViewInput K D) : Prop :=
  ∀ i, ViewInput.Fits i (G.outcome v) → (f i).Fits (G.outcome v)

theorem Follows.step (hf : Follows G cur out) (h : Step G.blocks.Holds (Keeps G) cur es cur') :
    Follows G cur' (out ++ es) := by
  have hcourse := hf.course
  cases h with
  | @note view f hN =>
    rw [List.append_nil]
    refine ⟨hcourse, hf.current, fun v i hi => ?_⟩
    rcases Table.lookup_insert_cases hi with ⟨rfl, rfl⟩ | hi
    · refine hN _ ?_
      cases hold : cur.pending.lookup v with
      | none => exact ⟨fun _ _ h => absurd h.symm (Option.some_ne_none _),
          fun _ h => absurd h.symm (Option.some_ne_none _)⟩
      | some i => exact hf.pending v i hold
    · exact hf.pending v i hi
  | @core cache i c r hC hi hc hn hr =>
    obtain ⟨found, hfound, hs, -⟩ := Ordered.put_eq_some hr
    have hpart : (G.outcome cur.nextView).parts[0]? = some c := by
      rcases hc with ⟨t, ht⟩ | ⟨o, ho, hc⟩
      · exact (hf.pending _ i hi).completed c t ht
      · rwa [← (hf.pending _ i hi).sealed o ho]
    rw [if_neg hn] at hcourse
    refine ⟨?_, fun v hv => (Finset.mem_insert.mp hv).elim id (hf.current v), hf.pending⟩
    dsimp only
    rw [if_pos (Finset.mem_insert_self _ _), finalized_of_put hr]
    exact .part hcourse hpart ⟨cache, found, hC, hfound, hs⟩
  | @finalize i o s es hi ho hs =>
    obtain rfl := (hf.pending _ i hi).sealed o ho
    have hall : Course G cur.nextView (G.outcome cur.nextView).parts.length s
        (finalized (out ++ es)) := by
      generalize hout : G.outcome cur.nextView = o at hs ⊢
      cases o with
      | full c t =>
        obtain ⟨hin, cache, hC, hp⟩ := hs
        obtain ⟨found, hfound, hs, -⟩ := Ordered.put_eq_some hp
        rw [if_pos hin] at hcourse
        rw [finalized_of_put hp]
        exact .part hcourse (by rw [hout]; rfl) ⟨cache, found, hC, hfound, hs⟩
      | core c =>
        obtain ⟨hin, rfl, rfl⟩ := hs
        rwa [if_pos hin, ← List.append_nil out] at hcourse
      | skip =>
        obtain ⟨rfl, rfl⟩ := hs
        have hle := hcourse.bounds.2
        rw [hout] at hle
        rwa [Nat.le_zero.mp hle, ← List.append_nil out] at hcourse
    have hno : cur.nextView + 1 ∉ cur.coreEmitted.erase cur.nextView := fun h =>
      absurd (hf.current _ (Finset.mem_of_mem_erase h)) (Nat.succ_ne_self _)
    refine ⟨?_, fun v hv => ?_, fun v i hi => ?_⟩
    · change Course G (cur.nextView + 1)
        (if cur.nextView + 1 ∈ cur.coreEmitted.erase cur.nextView then 1 else 0) _ _
      rw [if_neg hno, ← List.append_assoc, finalized, List.filterMap_append]
      exact hall.next
    · obtain ⟨hne, hv⟩ := Finset.mem_erase.mp hv
      exact absurd (hf.current v hv) hne
    · change (cur.pending.erase cur.nextView).lookup v = some i at hi
      by_cases hv : v = cur.nextView
      · rw [hv, AList.lookup_erase] at hi
        cases hi
      · rw [AList.lookup_erase_ne hv] at hi
        exact hf.pending v i hi

/-- The inputs that fit the outcomes. -/
def Call.Fits (G : Settlement K D) : Call K D → Prop
  | .completed view c _ => (G.outcome view).parts[0]? = some c
  | .sealed view o => o = G.outcome view
  | .retry => True

omit [DecidableEq K] [DecidableEq D] in
theorem Call.Fits.keeps {x : Call K D} (hx : x.Fits G) {v : ℕ}
    {f : ViewInput K D → ViewInput K D} (h : x.Notes v f) : Keeps G v f := by
  intro i hi
  cases x with
  | completed view c t =>
    obtain ⟨rfl, rfl⟩ := h
    exact ⟨fun c' t' h => by cases h; exact hx, hi.sealed⟩
  | sealed view o =>
    obtain ⟨rfl, rfl⟩ := h
    exact ⟨hi.completed, fun o' h => by cases h; exact hx⟩
  | retry => exact h.elim

theorem follows_run {calls : List (BlockCache K D × Call K D)}
    (h : ∀ x ∈ calls, G.blocks.Holds x.1 ∧ x.2.Fits G) :
    Follows G (run G.genesis calls).1 (run G.genesis calls).2 := by
  have hsteps : Steps (Step G.blocks.Holds (Keeps G)) { genesis := G.genesis }
      (run G.genesis calls).2 (run G.genesis calls).1 :=
    steps_run fun x hx => ⟨(h x hx).1, fun v f => (h x hx).2.keeps⟩
  have hstart : Follows G { genesis := G.genesis } [] :=
    ⟨.start, fun v hv => absurd hv (Finset.notMem_empty v), fun v i hi => by cases hi⟩
  exact hsteps.invariant (fun _ _ _ _ hf hs => hf.step hs) hstart

/-- The finalized views and all digests of one run continue those of another. -/
def Continues (r r' : Cursor K D × List (CursorEffect K D)) : Prop :=
  finalized r.2 <+: finalized r'.2 ∧
    log r.1.toOrdered (finalized r.2) <+: log r'.1.toOrdered (finalized r'.2)

/-- Whatever arrives when, as long as it fits the outcomes: of two runs one continues the other. -/
theorem continues_run {calls calls' : List (BlockCache K D × Call K D)}
    (h : ∀ x ∈ calls, G.blocks.Holds x.1 ∧ x.2.Fits G)
    (h' : ∀ x ∈ calls', G.blocks.Holds x.1 ∧ x.2.Fits G) :
    Continues (run G.genesis calls) (run G.genesis calls') ∨
      Continues (run G.genesis calls') (run G.genesis calls) := by
  have hc := (follows_run h).course
  have hc' := (follows_run h').course
  rcases lt_trichotomy (run G.genesis calls).1.nextView (run G.genesis calls').1.nextView with
    hlt | heq | hlt
  · exact .inl (hc.continues hc' (.inl hlt))
  · exact (Nat.le_total _ _).imp (fun hk => hc.continues hc' (.inr ⟨heq, hk⟩))
      fun hk => hc'.continues hc (.inr ⟨heq.symm, hk⟩)
  · exact .inr (hc'.continues hc (.inl hlt))

end Cursor

end Vantage
