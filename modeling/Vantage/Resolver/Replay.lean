import Vantage.Lib.Once
import Vantage.Resolver.Calls

/-!
# Catch-up is not amplified

A late party that wishes for a view gets the own sends of the resolver again, and a party that
lacks a value may ask for it.  Each such send is marked, so that it is made once.

* `TargetStep.once`, `TargetState.once_of_steps`: each step of a target sends a key only against a
  new mark;
* `ResolverParty.replayed_once`: in every run in which no party asks again, after the decision,
  for a value it has asked for before;
* `ResolverParty.served_twice`: a decision forgets which values have been served.
-/

namespace Vantage

variable {K D : Type} [LinearOrder K] [LinearOrder D] [Inhabited D] {S : Session K D}
  {target : ℕ}

/-- What is sent to one party. -/
inductive SendKey (K D : Type)
  | coordinate (q : K) (view : ℕ) (kind : DirectReplayKind)
  | wish (q : K) (view : ℕ)
  | done (q : K)
  | value (q : K) (value : D)
  deriving DecidableEq

namespace DirectResolutionEffect

def sendKey : DirectResolutionEffect K D → Option (SendKey K D)
  | .wishTo q m => some (.wish q m.view)
  | .doneTo q _ => some (.done q)
  | .valueServeTo q m => some (.value q m.value)
  | x => x.replayKey.map fun c => .coordinate c.1 c.2.1 c.2.2

/-- Entering a view broadcasts the PROOF and sends the SUGGEST to another leader for the first
time. -/
def granted (cfg : ResolverConfig K D) (target : ℕ) :
    DirectResolutionEffect K D → Option (SendKey K D)
  | .broadcastProof m =>
    if resolutionLeader cfg target m.view ≠ cfg.name then
      some (.coordinate (resolutionLeader cfg target m.view) m.view .suggest)
    else none
  | _ => none

variable {x : DirectResolutionEffect K D}

omit [LinearOrder D] [Inhabited D] in
theorem granted_eq_some {cfg : ResolverConfig K D} {k : SendKey K D}
    (h : x.granted cfg target = some k) : ∃ m, x = .broadcastProof m ∧
      resolutionLeader cfg target m.view ≠ cfg.name ∧
      k = .coordinate (resolutionLeader cfg target m.view) m.view .suggest := by
  cases x with
  | broadcastProof m =>
    by_cases hm : resolutionLeader cfg target m.view ≠ cfg.name
    · rw [granted, if_pos hm] at h
      exact ⟨m, rfl, hm, (Option.some.inj h).symm⟩
    · rw [granted, if_neg hm] at h
      cases h
  | _ => cases h

section

omit [LinearOrder K] [LinearOrder D] [Inhabited D]

theorem sendKey_of_replayKey {q : K} {view : ℕ} {kind : DirectReplayKind}
    (h : x.replayKey = some (q, view, kind)) :
    x.sendKey = some (.coordinate q view kind) := by
  cases x <;> cases h <;> rfl

theorem sendKey_of_isPlain (h : x.isPlain = true) :
    x.sendKey = none := by
  cases x <;> first | rfl | cases h

end

end DirectResolutionEffect

open DirectResolutionEffect

/-! ### Marks -/

namespace TargetState

variable {committee : Committee K} {s s' : TargetState S committee target}
  {asked asked' : List (DirectResolutionValueFetch K D)}

/-- A property of the instance that was started, if it still lives. -/
def Held (s : TargetState S committee target) (P : DirectInstance K D → Prop) : Prop :=
  (∀ i, s.inst = some i → P i) ∧ (s.inst = none → s.decision.isSome)

theorem held_iff {P : DirectInstance K D → Prop} {i : DirectInstance K D}
    (hi : s.inst = some i) : s.Held P ↔ P i := by
  refine ⟨fun h => h.1 i hi, fun h => ⟨fun j hj => ?_, fun hn => ?_⟩⟩
  · rw [hi] at hj
    cases hj
    exact h
  · rw [hi] at hn
    cases hn

/-- The keys that are used up.  A decision forgets which values have been served, so that for them
the requests made before it count. -/
def Marked (asked : List (DirectResolutionValueFetch K D)) (s : TargetState S committee target) :
    SendKey K D → Prop
  | .coordinate q view kind => s.Held fun i => (kind, q) ∈ i.marks view
  | .wish q view => s.Held fun i => view ≤ (i.wishReplayedThrough.lookup q).getD 0
  | .done q => q ∈ s.doneReplayedTo
  | .value q value =>
    (value, q) ∈ s.fetchAnswered ∧ (s.decision = none → ⟨target, value, q⟩ ∈ asked) ∨
      s.decision.isSome ∧ ⟨target, value, q⟩ ∈ asked

def KeepsMarks (s s' : TargetState S committee target) : Prop :=
  ∀ asked k, s.Marked asked k → s'.Marked asked k

theorem Marked.mono (ha : ∀ m ∈ asked, m ∈ asked') {k : SendKey K D} (h : s.Marked asked k) :
    s.Marked asked' k := by
  cases k with
  | value q value => exact h.imp (fun h => ⟨h.1, fun hd => ha _ (h.2 hd)⟩) fun h => ⟨h.1, ha _ h.2⟩
  | _ => exact h

theorem KeepsMarks.of_inst {i i' : DirectInstance K D} (hi : s.inst = some i)
    (hs : s'.inst = some i') (hm : ∀ view, i.marks view ⊆ i'.marks view)
    (hw : ∀ q, (i.wishReplayedThrough.lookup q).getD 0 ≤ (i'.wishReplayedThrough.lookup q).getD 0)
    (hd : s'.doneReplayedTo = s.doneReplayedTo) (hv : s'.fetchAnswered = s.fetchAnswered)
    (hc : s'.decision = s.decision) : s.KeepsMarks s' := by
  intro asked k h
  have held : ∀ {P P' : DirectInstance K D → Prop}, (P i → P' i') → s.Held P → s'.Held P' :=
    fun hP hheld => (held_iff hs).mpr (hP ((held_iff hi).mp hheld))
  cases k with
  | coordinate q view kind => exact held (fun h => hm view h) h
  | wish q view => exact held (fun h => h.trans (hw q)) h
  | done q =>
    unfold Marked at h ⊢
    rwa [hd]
  | value q value =>
    unfold Marked at h ⊢
    rwa [hv, hc]

theorem KeepsMarks.of_outer (hi : s'.inst = s.inst) (hd : s.doneReplayedTo ⊆ s'.doneReplayedTo)
    (hv : s.fetchAnswered ⊆ s'.fetchAnswered) (hc : s'.decision = s.decision) :
    s.KeepsMarks s' := by
  intro asked k h
  cases k with
  | coordinate q view kind =>
    unfold Marked Held at h ⊢
    rwa [hi, hc]
  | wish q view =>
    unfold Marked Held at h ⊢
    rwa [hi, hc]
  | done q => exact hd h
  | value q value =>
    unfold Marked at h ⊢
    rw [hc]
    exact h.imp (fun h => ⟨hv h.1, h.2⟩) id

theorem Still.keepsMarks (h : s.Still s') (hf : s.Filed) : s.KeepsMarks s' := by
  intro asked k hk
  have held : ∀ {P : DirectInstance K D → Prop},
      (∀ i i' : DirectInstance K D, i'.entryPart = i.entryPart → i'.marks = i.marks →
        P i → P i') → s.Held P → s'.Held P := by
    intro P hP hheld
    refine ⟨fun i' hi' => ?_, fun hn => ?_⟩
    · obtain ⟨i, hi, he, hm⟩ := h.inst i' hi'
      exact hP i i' he hm (hheld.1 i hi)
    · cases hs : s.inst with
      | none => exact h.decision (hheld.2 hs)
      | some i =>
        rcases h.alive (by rw [hs]; rfl) with hlive | hd
        · rw [hn] at hlive
          cases hlive
        · exact hd
  cases k with
  | coordinate q view kind => exact held (fun i i' _ hm hk => by rwa [hm]) hk
  | wish q view =>
    refine held (fun i i' he _ hk => ?_) hk
    have hw : i'.wishReplayedThrough = i.wishReplayedThrough := congrArg (·.2.2.2) he
    rwa [hw]
  | done q =>
    unfold Marked at hk ⊢
    rwa [h.doneReplayedTo]
  | value q value =>
    rcases hk with ⟨hserved, hasked⟩ | ⟨hd, hasked⟩
    · rcases h.served with heq | ⟨hlive, hd'⟩
      · refine .inl ⟨heq ▸ hserved, fun hn => hasked ?_⟩
        by_contra hd
        have := h.decision (Option.isSome_iff_ne_none.mpr hd)
        rw [hn] at this
        cases this
      · -- the decision forgets that the value was served, but it was asked for before
        refine .inr ⟨hd', hasked ?_⟩
        by_contra hd
        rw [hf.decided (Option.isSome_iff_ne_none.mpr hd)] at hlive
        cases hlive
    · exact .inr ⟨h.decision hd, hasked⟩

end TargetState

omit [LinearOrder K] [LinearOrder D] in
theorem DirectInstance.marks_subset_insert {i : DirectInstance K D} {view : ℕ}
    {st : DirectViewState K D} (h : i.marks view ⊆ st.replayedTo) (v : ℕ) :
    i.marks v ⊆ DirectInstance.marks { i with views := i.views.insert view st } v := by
  rw [marks_insert]
  by_cases hv : v = view
  · subst hv
    rwa [Function.update_self]
  · rw [Function.update_of_ne hv]

/-! ### Steps -/

section

variable {cfg : ResolverConfig K D} {J : CallInputs K D}
  {s s' : TargetState S cfg.committee target} {es out : List (DirectResolutionEffect K D)}
  {asked : List (DirectResolutionValueFetch K D)}

/-- No step takes a mark back. -/
theorem TargetStep.keepsMarks (h : TargetStep cfg J s es s') (hf : s.Filed) :
    s.KeepsMarks s' := by
  have inst : ∀ {i i' : DirectInstance K D} {s' : TargetState S cfg.committee target},
      s.inst = some i → s' = { s with inst := some i' } →
      (∀ view, i.marks view ⊆ i'.marks view) →
      (∀ q, (i.wishReplayedThrough.lookup q).getD 0 ≤
        (i'.wishReplayedThrough.lookup q).getD 0) → s.KeepsMarks s' := by
    rintro i i' s' hi rfl hm hw
    exact .of_inst hi rfl hm hw rfl rfl rfl
  cases h with
  | inner h => exact h.still.keepsMarks hf
  | @retain e _ _ =>
    obtain ⟨values, h⟩ := TargetState.rememberEntry_eq e s
    rw [h]
    exact .of_outer rfl subset_rfl subset_rfl rfl
  | bar => exact .of_outer rfl subset_rfl subset_rfl rfl
  | start hi hd _ =>
    -- nothing of an instance is marked before it starts
    have never : ∀ {P : DirectInstance K D → Prop}, ¬s.Held P := by
      intro P hheld
      have := hheld.2 hi
      rw [hd] at this
      cases this
    intro asked k hk
    cases k with
    | coordinate q view kind => exact absurd hk never
    | wish q view => exact absurd hk never
    | done q => exact hk
    | value q value => exact hk
  | join hi _ => exact .of_inst hi rfl (fun _ => subset_rfl) (fun _ => le_rfl) rfl rfl rfl
  | passive _ => exact .of_outer rfl subset_rfl subset_rfl rfl
  | wish hi _ => exact inst hi rfl (fun _ => subset_rfl) fun _ => le_rfl
  | raise hi _ _ => exact inst hi rfl (fun _ => subset_rfl) fun _ => le_rfl
  | rewish _ => exact fun _ _ hk => hk
  | candidates _ hi _ => exact inst hi rfl (fun _ => subset_rfl) fun _ => le_rfl
  | @enter i _ v suggest proof hi _ _ hst _ _ =>
    refine inst hi rfl (i.marks_subset_insert ?_) fun _ => le_rfl
    rw [hst]
    exact subset_rfl
  | serve _ _ _ => exact .of_outer rfl subset_rfl (Finset.subset_insert _ _) rfl
  | @replay i view st q fresh hi hl _ _ =>
    refine inst hi rfl (i.marks_subset_insert ?_) fun _ => le_rfl
    unfold DirectInstance.marks
    rw [hl]
    exact Finset.subset_union_left
  | @replayWish i q hi hlt =>
    refine inst hi rfl (fun _ => subset_rfl) fun q' => ?_
    by_cases hq : q' = q
    · subst hq
      rw [AList.lookup_insert]
      exact hlt.le
    · rw [AList.lookup_insert_ne hq]
  | replayDone _ _ _ _ => exact .of_outer rfl (Finset.subset_insert _ _) subset_rfl rfl

/-- Each step sends a key only against a new mark.  A request for a value of an undecided target
has been noted, and one for a value of a decided target had not been made before. -/
theorem TargetStep.once (h : TargetStep cfg J s es s') (hf : s.Filed)
    (hJ : ∀ value q decided, J.fetch value q decided →
      (decided = false ↔ ⟨target, value, q⟩ ∈ asked))
    (ho : Once sendKey (granted cfg target) (TargetState.Marked asked) s out) :
    Once sendKey (granted cfg target) (TargetState.Marked asked) s' (out ++ es) := by
  have hkeep : ∀ k, s.Marked asked k → s'.Marked asked k := h.keepsMarks hf asked
  have single : ∀ {x : DirectResolutionEffect K D} {k : SendKey K D}, x.sendKey = some k →
      ¬s.Marked asked k → s'.Marked asked k →
        Once sendKey (granted cfg target) (TargetState.Marked asked) s' (out ++ [x]) := by
    intro x k hx hold hnew
    have hkeys : [x].filterMap sendKey = [k] := List.filterMap_cons_some hx
    refine ho.fresh hkeep ?_ ?_ <;> rw [hkeys]
    · exact List.nodup_singleton k
    · intro k' hk'
      rw [List.mem_singleton.mp hk']
      exact ⟨hold, hnew⟩
  cases h with
  | inner h =>
    refine ho.free hkeep ?_
    cases h with
    | plain h => exact fun x hx => sendKey_of_isPlain (h x hx).1
    | _ => exact fun x hx => absurd hx List.not_mem_nil
  | raise _ _ _ =>
    refine ho.free hkeep fun x hx => ?_
    rw [List.mem_singleton.mp hx]
    rfl
  | rewish _ =>
    refine ho.free hkeep fun x hx => ?_
    rw [List.mem_singleton.mp hx]
    rfl
  | @enter i st v suggest proof hi _ _ _ hs hp =>
    -- the SUGGEST to the leader is the one that the PROOF stands for
    refine ho.step hkeep fun k => .inl (List.Sublist.count_le k ?_)
    have hsend : (suggestTo (resolutionLeader cfg target v) suggest).sendKey =
        some (.coordinate (resolutionLeader cfg target v) v .suggest) := by
      rw [← hs.2]
      rfl
    have hgrant : (broadcastProof proof).granted cfg target =
        if resolutionLeader cfg target v ≠ cfg.name then
          some (.coordinate (resolutionLeader cfg target v) v .suggest) else none := by
      rw [granted, hp.2]
    rw [List.filterMap_cons_none rfl]
    split
    · next hne =>
      rw [if_pos hne] at hgrant
      rw [List.filterMap_cons_some hgrant, List.filterMap_cons_some hsend]
      exact List.Sublist.refl _
    · exact List.nil_sublist _
  | @serve value q e hfetch he hn =>
    refine single rfl ?_ (.inl ⟨Finset.mem_insert_self _ _, fun hd => ?_⟩)
    · rintro (⟨hserved, -⟩ | ⟨hd, hasked⟩)
      · exact hn hserved
      · rw [(hJ _ _ _ hfetch).mpr hasked] at hd
        cases hd
    · exact (hJ _ _ _ hfetch).mp (by rw [hd]; rfl)
  | @replay i view st q fresh hi hl hk hd =>
    have hkeys : (fresh.map Prod.snd).filterMap sendKey =
        (fresh.map Prod.fst).map fun kind => SendKey.coordinate q view kind := by
      rw [List.filterMap_map, List.map_map, ← List.filterMap_eq_map]
      exact List.filterMap_congr fun x hx => sendKey_of_replayKey (hk x hx).1
    refine ho.fresh hkeep ?_ ?_ <;> rw [hkeys]
    · exact hd.map fun a b h => by cases h; rfl
    · intro k hmem
      obtain ⟨kind, hkind, rfl⟩ := List.mem_map.mp hmem
      obtain ⟨x, hx, rfl⟩ := List.mem_map.mp hkind
      refine ⟨fun hold => (hk x hx).2.2 ?_, (TargetState.held_iff rfl).mpr ?_⟩
      · have := (TargetState.held_iff hi).mp hold
        rwa [DirectInstance.marks, hl] at this
      · rw [DirectInstance.marks_insert, Function.update_self]
        exact Finset.mem_union_right _ (List.mem_toFinset.mpr (List.mem_map.mpr ⟨x, hx, rfl⟩))
  | @replayWish i q hi hlt =>
    refine single rfl (fun hold => ?_) ((TargetState.held_iff rfl).mpr ?_)
    · exact absurd ((TargetState.held_iff hi).mp hold) (not_le.mpr hlt)
    · rw [AList.lookup_insert]
      exact le_rfl
  | replayDone value e h hn => exact single rfl hn (Finset.mem_insert_self _ _)
  | _ => exact ho.free hkeep fun x hx => absurd hx List.not_mem_nil

theorem TargetState.once_of_steps (h : Steps (TargetStep cfg J) s es s') (hf : s.Filed)
    (hJ : ∀ value q decided, J.fetch value q decided →
      (decided = false ↔ ⟨target, value, q⟩ ∈ asked))
    (ho : Once sendKey (granted cfg target) (TargetState.Marked asked) s out) :
    Once sendKey (granted cfg target) (TargetState.Marked asked) s' (out ++ es) := by
  have := h.invariant (I := fun s out => s.Filed ∧
      Once sendKey (granted cfg target) (TargetState.Marked asked) s out)
    (fun s out es s' hI hstep => ⟨hstep.filed hI.1, hstep.once hI.1 hJ hI.2⟩) ⟨hf, ho⟩
  exact this.2

/-! ### Pruned targets -/

/-- A target without anything that could be sent. -/
structure TargetState.Closed {committee : Committee K} (s : TargetState S committee target) :
    Prop where
  inst : s.inst = none
  decision : s.decision = none
  values : ∀ value, value ∉ s.values
  pendingFetch : s.pendingFetch = ∅

theorem TargetStep.closed (h : TargetStep cfg J s es s') (hJ : ¬J.mayStart) (hs : s.Closed) :
    s'.Closed ∧ ∀ x ∈ es, x.sendKey = none := by
  have dead : ∀ {i : DirectInstance K D}, s.inst ≠ some i := by
    intro i hi
    rw [hs.inst] at hi
    cases hi
  cases h with
  | inner h =>
    cases h with
    | plain h => exact ⟨hs, fun x hx => sendKey_of_isPlain (h x hx).1⟩
    | fetch requested hp =>
      rw [hs.inst] at hp
      have hsub := hp.resolve_left nofun
      rw [hs.pendingFetch] at hsub
      exact ⟨⟨hs.inst, hs.decision, hs.values, Finset.subset_empty.mp hsub⟩,
        fun x hx => absurd hx List.not_mem_nil⟩
    | cursor _ hi => exact absurd hi dead
    | view hi _ => exact absurd hi dead
    | key _ _ _ hi => exact absurd hi dead
    | sendDone hi _ _ => exact absurd hi dead
    | done hi _ _ => exact absurd hi dead
    | decide _ _ hi => exact absurd hi dead
  | retain _ ho =>
    rw [hs.inst, hs.pendingFetch] at ho
    rcases ho with h | h | h
    · cases h
    · exact absurd h hJ
    · exact absurd h Finset.not_nonempty_empty
  | bar => exact ⟨{ hs with },
      fun x hx => absurd hx List.not_mem_nil⟩
  | start _ _ h => exact absurd h hJ
  | passive _ => exact ⟨{ hs with },
      fun x hx => absurd hx List.not_mem_nil⟩
  | serve _ he _ => exact absurd (TargetState.mem_values_of_entry he) (hs.values _)
  | replayDone _ _ h _ =>
    rw [hs.inst, hs.decision] at h
    rcases h with h | h <;> cases h
  | join hi _ => exact absurd hi dead
  | wish hi _ => exact absurd hi dead
  | raise hi _ _ => exact absurd hi dead
  | rewish hi => exact absurd hi dead
  | candidates _ hi _ => exact absurd hi dead
  | enter hi _ _ _ _ _ => exact absurd hi dead
  | replay hi _ _ _ => exact absurd hi dead
  | replayWish hi _ => exact absurd hi dead

theorem TargetState.closed_of_steps (h : Steps (TargetStep cfg J) s es s') (hJ : ¬J.mayStart)
    (hs : s.Closed) : s'.Closed ∧ ∀ x ∈ es, x.sendKey = none := by
  have hnil : ∀ x ∈ ([] : List (DirectResolutionEffect K D)), x.sendKey = none := nofun
  refine h.invariant (I := fun s es => s.Closed ∧ ∀ x ∈ es, x.sendKey = none)
    (fun s out es s' hI hstep => ?_) ⟨hs, hnil⟩
  obtain ⟨hclosed, hes⟩ := hstep.closed hJ hI.1
  exact ⟨hclosed, fun x hx => (List.mem_append.mp hx).elim (hI.2 x) (hes x)⟩

end

/-! ### Runs -/

namespace ResolverParty

variable {cfg : ResolverConfig K D} {p : ResolverParty S cfg}

/-- No party asks again, once the target is decided, for a value that it asked for before. -/
def FetchOnce (p : ResolverParty S cfg) : ResolverCall K D → Prop
  | .valueFetch m => (p.resolver.state m.target).decision.isSome → m ∉ p.asked
  | _ => True

instance (p : ResolverParty S cfg) : ∀ c : ResolverCall K D, Decidable (p.FetchOnce c)
  | .valueFetch m => inferInstanceAs (Decidable (_ → m ∉ p.asked))
  | .updateCandidates .. | .barFullSelection _ | .activateWithLocalTerminal _ | .wish _
  | .timer .. | .suggest _ | .proof _ | .witness _ | .proposal _ | .vote .. | .statement _
  | .done _ | .valueServe _ | .retryExternalValidity | .admitTargetsThrough _
  | .gcBelow _ => .isTrue trivial

/-- A pruned target is closed, and every other keeps its marks. -/
structure OnceAt (t : ℕ) (p : ResolverParty S cfg) : Prop where
  closed : t < p.resolver.retainedFloor → (p.resolver.state t).Closed
  once : Once sendKey (granted cfg t) (fun (p : ResolverParty S cfg) k =>
    t < p.resolver.retainedFloor ∨ (p.resolver.state t).Marked p.asked k) p (effectsOf t p.out)

/-- What a call asks for is noted, unless the target is decided. -/
theorem FetchOnce.asked {c : ResolverCall K D} (hc : p.FetchOnce c) (t : ℕ) (value : D) (q : K)
    (decided : Bool) (h : (c.inputs p.resolver t).fetch value q decided) :
    decided = false ↔ ⟨t, value, q⟩ ∈ p.asked ++ p.asks c := by
  obtain ⟨rfl, hm, rfl⟩ := h
  rw [List.mem_append]
  unfold asks
  dsimp only
  cases hd : (p.resolver.state t).decision with
  | none => simp [hm]
  | some d => simpa [hd] using hc (by rw [hd]; rfl)

theorem OnceAt.gcBelow {t : ℕ} (h : p.OnceAt t) (floor : ℕ) :
    OnceAt t { p with resolver := p.resolver.gcBelow floor } where
  closed ht := by
    dsimp only at ht ⊢
    rw [DirectResolver.retainedFloor_gcBelow] at ht
    rw [DirectResolver.state_gcBelow]
    split
    · exact ⟨rfl, rfl, fun value => AList.notMem_empty value, rfl⟩
    · next hf => exact h.closed ((lt_max_iff.mp ht).resolve_right hf)
  once := by
    refine ⟨h.once.le, fun k hk => ?_⟩
    dsimp only
    rw [DirectResolver.retainedFloor_gcBelow, DirectResolver.state_gcBelow, lt_max_iff]
    by_cases ht : t < floor
    · exact .inl (.inr ht)
    · rw [if_neg ht]
      exact (h.once.marked k hk).imp .inl id

theorem OnceAt.take {t : ℕ} (h : p.OnceAt t) (hf : p.resolver.Filed) (fuel : ℕ)
    {c : ResolverCall K D} (hgc : ∀ floor, c ≠ .gcBelow floor) (hc : p.FetchOnce c) :
    (p.take fuel c).OnceAt t := by
  have hmoves := DirectResolver.call_moves hgc fuel hf
  have hfloor : (p.take fuel c).resolver.retainedFloor = p.resolver.retainedFloor := hmoves.floor
  have hout : effectsOf t (p.take fuel c).out =
      effectsOf t p.out ++ effectsOf t (p.resolver.call fuel c).2 := effectsOf_append t _ _
  by_cases ht : t < p.resolver.retainedFloor
  · obtain ⟨hclosed, hes⟩ := TargetState.closed_of_steps (hmoves.steps t) (not_le.mpr ht)
      (h.closed ht)
    refine ⟨fun _ => hclosed, ?_⟩
    rw [hout]
    exact h.once.free (fun k _ => .inl (hfloor ▸ ht)) hes
  · refine ⟨fun ht' => absurd (hfloor ▸ ht') ht, ?_⟩
    have hmono : ∀ m ∈ p.asked, m ∈ p.asked ++ p.asks c := fun m hm => List.mem_append_left _ hm
    have hstart : Once sendKey (granted cfg t) (TargetState.Marked (p.asked ++ p.asks c))
        (p.resolver.state t) (effectsOf t p.out) :=
      ⟨h.once.le, fun k hk => ((h.once.marked k hk).resolve_left ht).mono hmono⟩
    have hend := TargetState.once_of_steps (hmoves.steps t) (hf t) (hc.asked t) hstart
    rw [hout]
    exact ⟨hend.le, fun k hk => .inr (hend.marked k hk)⟩

theorem Reachable.onceAt (h : Reachable FetchOnce p) (t : ℕ) : p.OnceAt t := by
  induction h with
  | init =>
    refine ⟨fun _ => ⟨rfl, rfl, fun value => AList.notMem_empty value, rfl⟩, ?_, ?_⟩
    · exact fun k => Nat.zero_le _
    · exact fun k hk => absurd hk (Nat.lt_irrefl 0)
  | @take p c h fuel hc ih =>
    by_cases hgc : ∃ floor, c = .gcBelow floor
    · obtain ⟨floor, rfl⟩ := hgc
      rw [take_gcBelow]
      exact ih.gcBelow floor
    · exact ih.take h.filed fuel (fun floor h => hgc ⟨floor, h⟩) hc

def sent (p : ResolverParty S cfg) (t : ℕ) (k : SendKey K D) : ℕ :=
  keyCount sendKey k (effectsOf t p.out)

/-- How often a SUGGEST was sent to its leader because a resolver view was entered. -/
def suggestedOnEntry (p : ResolverParty S cfg) (t : ℕ) (q : K) (view : ℕ) : ℕ :=
  if q = resolutionLeader cfg t view ∧ q ≠ cfg.name then
    (effectsOf t p.out).countP fun x => match x with
      | .broadcastProof m => decide (m.view = view)
      | _ => false
  else 0

theorem keyCount_granted_le (p : ResolverParty S cfg) (t : ℕ) (q : K) (view : ℕ) :
    keyCount (granted cfg t) (.coordinate q view .suggest) (effectsOf t p.out) ≤
      p.suggestedOnEntry t q view := by
  unfold suggestedOnEntry
  split
  · rw [keyCount, List.count_filterMap]
    refine List.countP_mono_left fun x _ hx => ?_
    obtain ⟨m, rfl, -, hkey⟩ := granted_eq_some (eq_of_beq hx)
    cases hkey
    exact decide_eq_true rfl
  · next hq =>
    refine Nat.le_of_eq (keyCount_eq_zero fun x _ hx => hq ?_)
    obtain ⟨m, -, hne, hkey⟩ := granted_eq_some hx
    cases hkey
    exact ⟨rfl, hne⟩

/-- In every run in which no party asks again, after the decision, for a value it asked for
before: each coordinate is replayed to each party at most once, a SUGGEST beside the send on the
entry of its view; so is each wish, the DONE before and after the decision, and each value. -/
theorem replayed_once (h : Reachable FetchOnce p) (t : ℕ) (q : K) :
    (∀ view kind, kind ≠ .suggest → p.sent t (.coordinate q view kind) ≤ 1) ∧
    (∀ view, p.sent t (.coordinate q view .suggest) ≤ p.suggestedOnEntry t q view + 1) ∧
    (∀ view, p.sent t (.wish q view) ≤ 1) ∧
    p.sent t (.done q) ≤ 1 ∧
    ∀ value, p.sent t (.value q value) ≤ 1 := by
  have hle := (h.onceAt t).once.le
  have hnone : ∀ k : SendKey K D, (∀ q view, k ≠ .coordinate q view .suggest) →
      p.sent t k ≤ 1 := by
    intro k hk
    have hzero : keyCount (granted cfg t) k (effectsOf t p.out) = 0 := by
      refine keyCount_eq_zero fun x _ hx => ?_
      obtain ⟨m, -, -, hkey⟩ := granted_eq_some hx
      exact hk _ _ hkey
    have := hle k
    rwa [hzero, Nat.zero_add] at this
  refine ⟨fun view kind hkind => hnone _ fun q' view' h => ?_,
    fun view => (hle _).trans (Nat.add_le_add_right (p.keyCount_granted_le t q view) 1),
    fun view => hnone _ nofun, hnone _ nofun, fun value => hnone _ nofun⟩
  cases h
  exact hkind rfl

/-- Party 0 of four gets DONE from the others for an empty full entry of view 1, and party 3 asks
for that value before and after the decision. -/
def repeatedFetch : List (ℕ × ResolverCall (Fin 4) ℕ) :=
  let e : ResolutionEntry (Fin 4) ℕ := .full 1 [] []
  let value := valueDigest (.numbered 4) e
  [(10, .activateWithLocalTerminal 1),
    (10, .done ⟨1, value, e, 1⟩),
    (10, .valueFetch ⟨1, value, 3⟩),
    (10, .valueFetch ⟨1, value, 3⟩),
    (10, .done ⟨1, value, e, 2⟩),
    (10, .done ⟨1, value, e, 3⟩),
    (10, .valueFetch ⟨1, value, 3⟩)]

/-- Before the decision the value is served to party 3 once, although it asks twice. -/
theorem replayed_once_repeatedFetch :
    let p : ResolverParty (.numbered 4) (.numbered 4 0) := run (repeatedFetch.take 4)
    let value := valueDigest (.numbered 4) (.full (1 : ℕ) [] [] : ResolutionEntry (Fin 4) ℕ)
    Meets FetchOnce (repeatedFetch.take 4) ({} : ResolverParty (.numbered 4) (.numbered 4 0)) ∧
      p.asked.length = 2 ∧ 0 < p.sent 1 (.value 3 value) ∧ p.sent 1 (.value 3 value) ≤ 1 := by
  have h : Meets FetchOnce (repeatedFetch.take 4)
      ({} : ResolverParty (.numbered 4) (.numbered 4 0)) := by decide +kernel
  exact ⟨h, by decide +kernel, by decide +kernel, (replayed_once (reachable_run h) 1 3).2.2.2.2 _⟩

/-- The decision forgets that the value was served to party 3, and it is served again. -/
theorem served_twice :
    let p : ResolverParty (.numbered 4) (.numbered 4 0) := run repeatedFetch
    let value := valueDigest (.numbered 4) (.full (1 : ℕ) [] [] : ResolutionEntry (Fin 4) ℕ)
    (p.resolver.state 1).decision.isSome ∧ p.sent 1 (.value 3 value) = 2 := by
  decide +kernel

end ResolverParty

end Vantage
