import Vantage.Resolver.Calls

/-!
# A rejected message retains nothing

Each message of an instance fills one slot: its sender's, the proposal's, or the open request for a
value.  A message that fills none is refused, and then nothing at all is kept of it.

* `TargetState.Grows`: filled slots stay filled while the instance lives, and no retained value is
  asked for again; every handler of an instance moves along it, from any state;
* `ResolverCall.slot`: whether the slot of a message is filled;
* `ResolverCall.Named`: a SUGGEST and a PROPOSAL that pass the other checks carry the value that
  they name;
* `ResolverParty.rejected_unchanged`: exactly under this condition a message that is not recorded
  changes nothing, and with it the retained values are those of recorded messages, candidates and
  fetches;
* `ResolverParty.rejected_retained`: a PROPOSAL that names another value is refused, but its value
  is retained.
-/

namespace Vantage

variable {K D : Type} [LinearOrder K] [LinearOrder D] [Inhabited D] {S : Session K D}
  {target : ℕ}

/-! ### Filled slots stay filled -/

/-- Filled slots of a view stay filled. -/
structure DirectViewState.Grows (st st' : DirectViewState K D) : Prop where
  suggestions : ∀ q ∈ st.suggestions, q ∈ st'.suggestions
  proofs : ∀ q ∈ st.proofs, q ∈ st'.proofs
  proposal : st.proposal.isSome → st'.proposal.isSome
  statements : ∀ phase, ∀ q ∈ st.statements phase, q ∈ st'.statements phase
  witnesses : ∀ q ∈ st.backingWitnesses, q ∈ st'.backingWitnesses

def DirectInstance.view (i : DirectInstance K D) (view : ℕ) : DirectViewState K D :=
  (i.views.lookup view).getD {}

/-- Filled slots of an instance stay filled. -/
structure DirectInstance.Grows (i i' : DirectInstance K D) : Prop where
  views : ∀ view, (i.view view).Grows (i'.view view)
  done : ∀ q ∈ i.done, q ∈ i'.done

/-- Filled slots stay filled until the instance is dropped, and no retained value is asked for
again. -/
structure TargetState.Grows {committee : Committee K} (s s' : TargetState S committee target) :
    Prop where
  values : ∀ value ∈ s.values, value ∈ s'.values
  pending : ∀ value ∈ s'.pendingFetch, value ∈ s.pendingFetch ∨ value ∉ s.values
  gone : s.inst = none → s'.inst = none
  inst : ∀ i i', s.inst = some i → s'.inst = some i' → i.Grows i'

section

omit [LinearOrder K] [LinearOrder D] [Inhabited D]

theorem DirectViewState.Grows.refl (st : DirectViewState K D) : st.Grows st :=
  ⟨fun _ h => h, fun _ h => h, id, fun _ _ h => h, fun _ h => h⟩

theorem DirectViewState.Grows.trans {st st' st'' : DirectViewState K D} (h : st.Grows st')
    (h' : st'.Grows st'') : st.Grows st'' where
  suggestions q hq := h'.suggestions q (h.suggestions q hq)
  proofs q hq := h'.proofs q (h.proofs q hq)
  proposal hp := h'.proposal (h.proposal hp)
  statements phase q hq := h'.statements phase q (h.statements phase q hq)
  witnesses q hq := h'.witnesses q (h.witnesses q hq)

end

omit [LinearOrder K] [LinearOrder D] in
theorem DirectInstance.Grows.refl (i : DirectInstance K D) : i.Grows i :=
  ⟨fun _ => .refl _, fun _ h => h⟩

omit [LinearOrder K] [LinearOrder D] in
theorem DirectInstance.Grows.insert (i : DirectInstance K D) {view : ℕ}
    {st : DirectViewState K D} (h : (i.view view).Grows st) :
    i.Grows { i with views := i.views.insert view st } := by
  refine ⟨fun v => ?_, fun _ h => h⟩
  unfold DirectInstance.view
  by_cases hv : v = view
  · subst hv
    rw [AList.lookup_insert]
    exact h
  · rw [AList.lookup_insert_ne hv]
    exact .refl _

namespace TargetState

section

variable {committee : Committee K} {s : TargetState S committee target}
  {f : DirectViewState K D → DirectViewState K D}

instance : IsPreorder (TargetState S committee target) Grows where
  refl s := by
    refine ⟨fun _ h => h, fun _ h => .inl h, id, fun i i' hi hi' => ?_⟩
    cases hi.symm.trans hi'
    exact .refl i
  trans s s' s'' h h' := by
    refine ⟨fun v hv => h'.values v (h.values v hv), fun v hv => ?_, fun hn => h'.gone (h.gone hn),
      fun i i'' hi hi'' => ?_⟩
    · rcases h'.pending v hv with hp | hn
      · exact h.pending v hp
      · exact .inr (mt (h.values v) hn)
    · cases hi' : s'.inst with
      | none =>
        rw [h'.gone hi'] at hi''
        cases hi''
      | some i' =>
        have hg := h.inst i i' hi hi'
        have hg' := h'.inst i' i'' hi' hi''
        exact ⟨fun view => (hg.views view).trans (hg'.views view),
          fun q hq => hg'.done q (hg.done q hq)⟩

theorem Grows.refl (s : TargetState S committee target) : s.Grows s := refl_of Grows s

theorem Grows.mapInst {f : DirectInstance K D → DirectInstance K D}
    (hf : ∀ i : DirectInstance K D, i.Grows (f i)) : s.Grows (s.mapInst f) := by
  refine ⟨fun _ h => h, fun _ h => .inl h, fun hn => ?_, fun i i' hi hi' => ?_⟩
  · unfold TargetState.mapInst
    rw [hn]
    rfl
  · unfold TargetState.mapInst at hi'
    rw [hi] at hi'
    cases hi'
    exact hf i

theorem Grows.mapView {view : ℕ} (hf : ∀ st : DirectViewState K D, st.Grows (f st)) :
    s.Grows (s.mapView view f) := by
  refine .mapInst fun i => ?_
  split
  · next st hst =>
    refine .insert i ?_
    unfold DirectInstance.view
    rw [hst]
    exact hf st
  · exact .refl i

theorem Grows.updateView {view : ℕ} (hf : ∀ st : DirectViewState K D, st.Grows (f st)) :
    s.Grows (s.updateView view f) :=
  .mapInst fun i => .insert i (hf _)

theorem Grows.rememberEntry (e : ResolutionEntry K D) : s.Grows (s.rememberEntry e).2 := by
  have hv : ∀ value ∈ s.values, value ∈ (s.rememberEntry e).2.values := fun value =>
    mem_values_rememberEntry e
  obtain ⟨values, h⟩ := rememberEntry_eq e s
  rw [h] at hv ⊢
  refine ⟨hv, fun _ h => .inl h, id, fun i i' hi hi' => ?_⟩
  cases hi.symm.trans hi'
  exact .refl i

end

/-! ### The handlers of an instance -/

variable {cfg : ResolverConfig K D} {s : TargetState S cfg.committee target}

theorem emitBackingWitness_grows (view : ℕ) (value : D) :
    Handler.Along Grows (emitBackingWitness cfg view value : TargetHandler S cfg target) := by
  intro s
  unfold emitBackingWitness
  split
  · split
    · exact .refl s
    · exact .mapView fun st => ⟨fun _ h => h, fun _ h => h, id, fun _ _ h => h,
        fun q h => (AList.mem_insert _).mpr (.inr h)⟩
  · exact .refl s

theorem recheckBacking_grows {view : ℕ} {adv : TargetHandler S cfg target}
    (h : Handler.Along Grows adv) : Handler.Along Grows (recheckBacking cfg view adv) := by
  refine Handler.Along.seq (fun s => ?_) fun s => ?_
  · split
    · exact emitBackingWitness_grows _ _ s
    · exact .refl s
  · split
    · exact h s
    · exact .refl s

theorem emitStatement_grows (view : ℕ) (phase : DirectResolutionPhase) (value : D)
    (key origin : Option ℕ) : Handler.Along Grows
      (emitStatement cfg view phase value key origin : TargetHandler S cfg target) := by
  intro s
  unfold emitStatement
  split
  · exact .refl s
  split
  · exact .refl s
  split
  · exact .refl s
  · dsimp only
    refine .updateView fun st => ⟨fun _ h => h, fun _ h => h, id, fun p q h => ?_, fun _ h => h⟩
    dsimp only
    by_cases hp : p = phase
    · subst hp
      rw [Function.update_self]
      exact (AList.mem_insert _).mpr (.inr h)
    · rwa [Function.update_of_ne hp]

theorem tryEcho_grows (view : ℕ) :
    Handler.Along Grows (tryEcho cfg view : TargetHandler S cfg target) := by
  intro s
  unfold tryEcho
  repeat' split
  all_goals first
    | exact .refl s
    | exact emitStatement_grows _ _ _ _ _ s
    | exact .mapView fun st => ⟨fun _ h => h, fun _ h => h, id, fun _ _ h => h, fun _ h => h⟩

theorem onProposal_grows (m : DirectResolutionProposal K D) :
    Handler.Along Grows (onProposal cfg m : TargetHandler S cfg target) := by
  intro s
  have hr : s.Grows (s.rememberEntry m.entry).2 := .rememberEntry m.entry
  unfold onProposal
  split
  · exact .refl s
  split
  · exact .refl s
  split
  · exact .refl s
  split
  · next h => rwa [h] at hr
  · next value s' h =>
    rw [h] at hr
    split
    · exact hr
    · have hset : s'.Grows (s'.updateView m.view fun st => { st with proposal := some m }) :=
        .updateView fun st => ⟨fun _ h => h, fun _ h => h, fun _ => rfl, fun _ _ h => h,
          fun _ h => h⟩
      exact trans_of Grows hr (trans_of Grows hset (tryEcho_grows _ _))

theorem takeNextCandidate_grows (view : ℕ) : s.Grows (s.takeNextCandidate cfg view).2 := by
  unfold takeNextCandidate
  dsimp only
  split
  · exact .refl s
  · exact .mapInst fun i => ⟨fun _ => .refl _, fun _ h => h⟩

theorem propose_grows (view keyView : ℕ) (e : ResolutionEntry K D) :
    Handler.Along Grows (propose cfg view keyView e : TargetHandler S cfg target) := fun s =>
  onProposal_grows _ s

theorem tryPrimaryPropose_grows (view : ℕ) :
    Handler.Along Grows (tryPrimaryPropose cfg view : TargetHandler S cfg target) := by
  intro s
  have ht : s.Grows (s.takeNextCandidate cfg view).2 := takeNextCandidate_grows view
  unfold tryPrimaryPropose
  split
  · exact .refl s
  split
  · exact .refl s
  dsimp only
  split
  · exact .refl s
  split
  · exact .refl s
  split
  · split
    · exact .refl s
    · exact propose_grows _ _ _ s
  · split
    · next h => rwa [h] at ht
    · next h =>
      rw [h] at ht
      exact trans_of Grows ht (propose_grows _ _ _ _)

theorem emitDone_grows (value : D) (e : ResolutionEntry K D) :
    Handler.Along Grows (emitDone cfg value e : TargetHandler S cfg target) := by
  intro s
  unfold emitDone
  split
  · exact .refl s
  split
  · exact .refl s
  next i hi =>
  split
  · exact .refl s
  · refine ⟨fun _ h => h, fun _ h => .inl h, fun hn => ?_, fun j j' hj hj' => ?_⟩
    · rw [hn] at hi
      cases hi
    · cases hi.symm.trans hj
      cases hj'
      exact ⟨fun _ => .refl _, fun q h => (AList.mem_insert _).mpr (.inr h)⟩

theorem recheckDone_grows : Handler.Along Grows (recheckDone cfg : TargetHandler S cfg target) := by
  refine Handler.Along.seq (fun s => ?_) fun s => ?_
  · unfold relayDone
    repeat' split
    all_goals first | exact .refl s | exact emitDone_grows _ _ s
  · unfold decideDone
    split
    · exact .refl s
    split
    · exact .refl s
    · exact ⟨fun _ h => h, fun _ h => absurd h (Finset.notMem_empty _), fun _ => rfl,
        fun _ _ _ h => by cases h⟩

theorem ensureValueFetch_grows (value : D) (peers : List K) :
    Handler.Along Grows (ensureValueFetch cfg value peers : TargetHandler S cfg target) := by
  intro s
  unfold ensureValueFetch
  split
  · exact .refl s
  · next h =>
    refine ⟨fun _ h => h, fun v hv => ?_, id, fun i i' hi hi' => ?_⟩
    · rcases Finset.mem_insert.mp hv with rfl | hv
      · refine .inr fun hm => h ?_
        obtain ⟨e, he⟩ := entry_of_mem_values hm
        rw [he]
        rfl
      · exact .inl hv
    · cases hi.symm.trans hi'
      exact .refl i

theorem sendPhase_grows (view : ℕ) (phase : DirectResolutionPhase) (value : D) :
    Handler.Along Grows (sendPhase cfg view phase value : TargetHandler S cfg target) := by
  refine Handler.Along.seq (fun s => ?_) (emitStatement_grows _ _ _ _ _)
  refine .mapInst fun i => ?_
  unfold recordKey
  repeat' split
  all_goals exact ⟨fun _ => .refl _, fun _ h => h⟩

theorem finishRound_grows (view : ℕ) (progressed : Bool) {loop : TargetHandler S cfg target}
    (h : Handler.Along Grows loop) :
    Handler.Along Grows (finishRound cfg view progressed loop) := by
  intro s
  unfold finishRound
  repeat' split
  · exact ensureValueFetch_grows _ _ s
  · exact (emitDone_grows _ _).seq h s
  · exact h s
  · exact recheckDone_grows s

theorem advanceRound_grows (view : ℕ) {backing loop : TargetHandler S cfg target}
    (hb : Handler.Along Grows backing) (hl : Handler.Along Grows loop)
    (l : List (DirectResolutionPhase × DirectResolutionPhase)) (progressed : Bool) :
    Handler.Along Grows (advanceRound cfg view backing loop l progressed) := by
  induction l generalizing progressed with
  | nil => exact finishRound_grows view progressed hl
  | cons x l ih =>
    intro s
    unfold advanceRound
    split
    · exact ih progressed s
    · exact ensureValueFetch_grows _ _ s
    · exact ((emitBackingWitness_grows _ _).seq hb).seq (ih progressed) s
    · exact (sendPhase_grows _ _ _).seq (ih true) s

theorem advance_grows (view fuel : ℕ) :
    Handler.Along Grows (advance cfg view fuel : TargetHandler S cfg target) := by
  induction fuel with
  | zero => exact fun s => .refl s
  | succ fuel ih => exact advanceRound_grows view (recheckBacking_grows ih) ih _ _

theorem advanceView_grows (fuel view : ℕ) :
    Handler.Along Grows (advanceView cfg fuel view : TargetHandler S cfg target) := by
  intro s
  unfold advanceView
  split
  · exact .refl s
  · exact advance_grows view fuel s

theorem retryTarget_grows (fuel : ℕ) :
    Handler.Along Grows (retryTarget cfg fuel : TargetHandler S cfg target) := by
  intro s
  unfold retryTarget retryTargetWith
  split
  · exact .refl s
  · exact (((tryPrimaryPropose_grows _).seq (tryEcho_grows _)).seq
      (advanceView_grows fuel _)).seq recheckDone_grows s

/-! ### Messages -/

/-- Whether the slot of a message is filled: that of its sender, that of the proposal, or the open
request for a value.  Without an instance there is no slot. -/
def slot {committee : Committee K} (c : ResolverCall K D) (s : TargetState S committee target) :
    Option Bool :=
  match c with
  | .suggest m => s.inst.map fun i => decide (m.sender ∈ (i.view m.view).suggestions)
  | .proof m => s.inst.map fun i => decide (m.sender ∈ (i.view m.view).proofs)
  | .proposal m => s.inst.map fun i => (i.view m.view).proposal.isSome
  | .statement m => s.inst.map fun i => decide (m.sender ∈ (i.view m.view).statements m.phase)
  | .witness m => s.inst.map fun i => decide (m.sender ∈ (i.view m.view).backingWitnesses)
  | .done m => s.inst.map fun i => decide (m.sender ∈ i.done)
  | .valueServe m => some (decide (m.value ∈ s.pendingFetch))
  | _ => none

/-- The handler of a message leaves the target as it is or changes the slot. -/
def Recorded (c : ResolverCall K D) (h : TargetHandler S cfg target)
    (s : TargetState S cfg.committee target) : Prop :=
  (h s).1 = s ∨ (h s).1.slot c ≠ s.slot c

theorem slot_ne {p : DirectInstance K D → Bool}
    (hp : ∀ i i' : DirectInstance K D, i.Grows i' → p i = true → p i' = true)
    {i i' : DirectInstance K D} {t t' : TargetState S cfg.committee target}
    (hi : s.inst = some i) (hempty : p i = false) (ht : t.inst = some i') (hfull : p i' = true)
    (hg : t.Grows t') : t'.inst.map p ≠ s.inst.map p := by
  rw [hi, Option.map_some, hempty]
  cases ht' : t'.inst with
  | none => exact nofun
  | some j =>
    rw [Option.map_some, hp i' j (hg.inst i' j ht ht') hfull]
    decide

theorem viewSlot_ne {P : DirectViewState K D → Bool}
    (hP : ∀ st st' : DirectViewState K D, st.Grows st' → P st = true → P st' = true)
    {i : DirectInstance K D} {t : TargetState S cfg.committee target} (hi : s.inst = some i)
    {view : ℕ} (hempty : P (i.view view) = false) (ht : t.inst = some i)
    {f : DirectViewState K D → DirectViewState K D} (hfull : P (f (i.view view)) = true)
    {h : TargetHandler S cfg target} (hh : Handler.Along Grows h) :
    ((h (t.updateView view f)).1.inst.map fun i => P (i.view view)) ≠
      s.inst.map fun i => P (i.view view) := by
  have ht' : (t.updateView view f).inst =
      some { i with views := i.views.insert view (f (i.view view)) } := by
    rw [updateView_eq _ _ ht]
    rfl
  refine slot_ne (fun i i' hg => hP _ _ (hg.views view)) hi hempty ht' ?_ (hh _)
  unfold DirectInstance.view at hfull ⊢
  rwa [AList.lookup_insert]

theorem view_of_any {view : ℕ} {P : DirectViewState K D → Bool} {i : DirectInstance K D}
    (hi : s.inst = some i) (h : ¬(s.viewState view).any P = true)
    (h0 : P ({} : DirectViewState K D) = false) : P (i.view view) = false := by
  unfold viewState at h
  rw [hi, Option.bind_some] at h
  unfold DirectInstance.view
  cases hl : i.views.lookup view with
  | none => exact h0
  | some st =>
    rw [hl] at h
    exact Bool.eq_false_iff.mpr h

/-- An entry that carries the value it is named with, or one that is retained already. -/
def Names (e : ResolutionEntry K D) (value : D) (s : TargetState S cfg.committee target) : Prop :=
  validEntry cfg.committee target e = true → valueDigest S e = value ∨ valueDigest S e ∈ s.values

instance (e : ResolutionEntry K D) (value : D) : Decidable (s.Names e value) :=
  inferInstanceAs (Decidable (_ → _))

theorem Names.rememberEntry {e : ResolutionEntry K D} {value : D} (h : s.Names e value)
    (hn : (s.rememberEntry e).1 ≠ some value) : (s.rememberEntry e).2 = s := by
  unfold TargetState.rememberEntry at hn ⊢
  split at hn
  · next hv =>
    rw [dif_pos hv]
    have hmem := (h hv).resolve_left fun hd => hn (congrArg some hd)
    dsimp only
    rw [if_pos hmem]
  · next hv => rw [dif_neg hv]

/-- An entry that is not named and not yet retained is retained nevertheless. -/
theorem rememberEntry_ne_of_not_names {e : ResolutionEntry K D} {value : D}
    (h : ¬ s.Names e value) :
    (s.rememberEntry e).1 ≠ some value ∧ (s.rememberEntry e).1.isSome ∧
      (s.rememberEntry e).2 ≠ s := by
  simp only [Names, Classical.not_imp, not_or] at h
  obtain ⟨hv, hne, hmem⟩ := h
  have hremembered : (s.rememberEntry e).1 = some (valueDigest S e) := by
    unfold TargetState.rememberEntry
    rw [dif_pos hv]
  have hin := mem_rememberEntry hremembered
  refine ⟨?_, ?_, fun hsame => hmem (hsame ▸ hin)⟩ <;> unfold TargetState.rememberEntry <;>
    rw [dif_pos hv]
  · exact fun h => hne (Option.some.inj h)
  · rfl

/-- The checks that come before the entry of a SUGGEST is retained. -/
def considersSuggest (cfg : ResolverConfig K D) (m : DirectResolutionSuggest K D)
    (s : TargetState S cfg.committee target) : Bool :=
  !s.refusesPhase cfg m.sender m.view &&
    !((s.viewState m.view).any fun st => decide (m.sender ∈ st.suggestions)) &&
    decide (m.key3View ≠ 0)

/-- The checks that come before the entry of a PROPOSAL is retained. -/
def considersProposal (cfg : ResolverConfig K D) (m : DirectResolutionProposal K D)
    (s : TargetState S cfg.committee target) : Bool :=
  !(!cfg.isMember m.sender || decide (target = 0) || decide (m.view = 0) ||
      decide (m.view ≤ m.keyView) || decide (m.sender ≠ resolutionLeader cfg target m.view) ||
      s.decision.isSome || s.inst.isNone) &&
    !(!s.admitsPhaseView cfg m.view || decide (m.view < s.currentView)) &&
    !((s.viewState m.view).any fun st => st.proposal.isSome)

theorem onSuggest_of_not_names {m : DirectResolutionSuggest K D} {e : ResolutionEntry K D}
    (hc : s.considersSuggest cfg m = true) (he : m.entry = some e)
    (hn : ¬ s.Names e m.key3Value) : (onSuggest cfg m s).1 = (s.rememberEntry e).2 := by
  simp only [considersSuggest, Bool.and_eq_true, Bool.not_eq_true', decide_eq_true_eq] at hc
  obtain ⟨⟨hguard, hnone⟩, hkey⟩ := hc
  obtain ⟨hne, hsome, -⟩ := rememberEntry_ne_of_not_names hn
  unfold onSuggest
  rw [if_neg (Bool.eq_false_iff.mp hguard), if_neg (Bool.eq_false_iff.mp hnone)]
  dsimp only
  rw [if_neg hkey, he]
  dsimp only
  generalize s.rememberEntry e = r at hne hsome
  obtain ⟨_ | value, s'⟩ := r
  · cases hsome
  · exact congrArg Prod.fst (if_pos fun h => hne (congrArg some h))

theorem onProposal_of_not_names {m : DirectResolutionProposal K D}
    (hc : s.considersProposal cfg m = true) (hn : ¬ s.Names m.entry m.value) :
    (onProposal cfg m s).1 = (s.rememberEntry m.entry).2 := by
  simp only [considersProposal, Bool.and_eq_true, Bool.not_eq_true'] at hc
  obtain ⟨⟨hguard, hlate⟩, hnone⟩ := hc
  obtain ⟨hne, hsome, -⟩ := rememberEntry_ne_of_not_names hn
  unfold onProposal
  rw [if_neg (Bool.eq_false_iff.mp hguard), if_neg (Bool.eq_false_iff.mp hlate),
    if_neg (Bool.eq_false_iff.mp hnone)]
  generalize s.rememberEntry m.entry = r at hne hsome
  obtain ⟨_ | value, s'⟩ := r
  · cases hsome
  · exact congrArg Prod.fst (if_pos fun h => hne (congrArg some h))

theorem onSuggest_recorded {m : DirectResolutionSuggest K D}
    (hm : s.considersSuggest cfg m = true → ∀ e ∈ m.entry, s.Names e m.key3Value) :
    s.Recorded (.suggest m) (onSuggest cfg m) := by
  unfold Recorded
  unfold onSuggest
  split
  · exact .inl rfl
  next hguard =>
  obtain ⟨i, hi⟩ := inst_of_refusesPhase hguard
  split
  · exact .inl rfl
  next hnone =>
  have hempty := view_of_any hi hnone rfl
  have hrecord : ∀ t : TargetState S cfg.committee target, t.inst = some i →
      ((tryPrimaryPropose cfg m.view (t.updateView m.view fun st =>
          { st with suggestions := st.suggestions.insert m.sender m })).1.inst.map fun i =>
            decide (m.sender ∈ (i.view m.view).suggestions)) ≠
        s.inst.map fun i => decide (m.sender ∈ (i.view m.view).suggestions) := fun t ht =>
    viewSlot_ne (P := fun st => decide (m.sender ∈ st.suggestions))
      (fun st st' hg h => decide_eq_true (hg.suggestions _ (of_decide_eq_true h))) hi hempty ht
      (decide_eq_true ((AList.mem_insert _).mpr (.inl rfl))) (tryPrimaryPropose_grows m.view)
  dsimp only
  split
  · split
    · exact .inl rfl
    · exact .inr (hrecord s hi)
  next hkey =>
  split
  · exact .inl rfl
  next e he =>
  have hconsiders : s.considersSuggest cfg m = true := by
    simp only [considersSuggest, Bool.eq_false_of_not_eq_true hguard,
      Bool.eq_false_of_not_eq_true hnone, decide_eq_true hkey, Bool.not_false, Bool.and_true]
  have hsame := (hm hconsiders e he).rememberEntry
  have hinst := rememberEntry_inst e s
  generalize s.rememberEntry e = r at hsame hinst
  obtain ⟨_ | value, s'⟩ := r
  · exact .inl (hsame (Option.some_ne_none _).symm)
  · dsimp only at hsame hinst ⊢
    split
    · next hne => exact .inl (hsame fun h => hne (Option.some.inj h))
    · exact .inr (hrecord s' (hinst.trans hi))

theorem onProof_recorded (m : DirectResolutionProof K D) :
    s.Recorded (.proof m) (onProof cfg m) := by
  unfold Recorded
  unfold onProof
  split
  · exact .inl rfl
  next hguard =>
  obtain ⟨i, hi⟩ := inst_of_refusesPhase hguard
  split
  · exact .inl rfl
  next hnone =>
  exact .inr (viewSlot_ne (P := fun st => decide (m.sender ∈ st.proofs))
    (fun st st' hg h => decide_eq_true (hg.proofs _ (of_decide_eq_true h))) hi
    (view_of_any hi hnone rfl) hi (decide_eq_true ((AList.mem_insert _).mpr (.inl rfl)))
    (tryEcho_grows m.view))

theorem onProposal_recorded {m : DirectResolutionProposal K D}
    (hm : s.considersProposal cfg m = true → s.Names m.entry m.value) :
    s.Recorded (.proposal m) (onProposal cfg m) := by
  unfold Recorded
  unfold onProposal
  split
  · exact .inl rfl
  next hguard =>
  obtain ⟨i, hi⟩ := inst_of_guard hguard
  split
  · exact .inl rfl
  next hlate =>
  split
  · exact .inl rfl
  next hnone =>
  have hconsiders : s.considersProposal cfg m = true := by
    unfold considersProposal
    rw [Bool.eq_false_of_not_eq_true hguard, Bool.eq_false_of_not_eq_true hlate,
      Bool.eq_false_of_not_eq_true hnone]
    rfl
  have hsame := (hm hconsiders).rememberEntry
  have hinst := rememberEntry_inst m.entry s
  generalize s.rememberEntry m.entry = r at hsame hinst
  obtain ⟨_ | value, s'⟩ := r
  · exact .inl (hsame (Option.some_ne_none _).symm)
  · dsimp only at hsame hinst ⊢
    split
    · next hne => exact .inl (hsame fun h => hne (Option.some.inj h))
    · exact .inr (viewSlot_ne (P := fun st => st.proposal.isSome)
        (fun st st' hg => hg.proposal) hi (view_of_any hi hnone rfl) (hinst.trans hi) rfl
        (tryEcho_grows m.view))

theorem onStatement_recorded (fuel : ℕ) (m : DirectResolutionStatement K D) :
    s.Recorded (.statement m) (onStatement cfg fuel m) := by
  unfold Recorded
  unfold onStatement onStatementWith
  split
  · exact .inl rfl
  next hguard =>
  obtain ⟨i, hi⟩ := inst_of_guard hguard
  split
  · exact .inl rfl
  split
  · exact .inl rfl
  next hnone =>
  have htail : Handler.Along Grows (((tryPrimaryPropose cfg s.currentView).seq
      (tryEcho cfg s.currentView)).seq
        (if m.view = s.currentView then advanceView cfg fuel m.view else .skip :
          TargetHandler S cfg target)) := by
    refine ((tryPrimaryPropose_grows _).seq (tryEcho_grows _)).seq ?_
    split
    · exact advanceView_grows fuel m.view
    · exact fun s => .refl s
  refine .inr (viewSlot_ne (P := fun st => decide (m.sender ∈ st.statements m.phase))
    (fun st st' hg h => decide_eq_true (hg.statements _ _ (of_decide_eq_true h))) hi
    (view_of_any hi hnone rfl) hi (decide_eq_true ?_) htail)
  dsimp only
  rw [Function.update_self]
  exact (AList.mem_insert _).mpr (.inl rfl)

theorem onWitness_recorded (fuel : ℕ) (m : DirectResolutionWitness K D) :
    s.Recorded (.witness m) (onWitness cfg fuel m) := by
  unfold Recorded
  unfold onWitness onWitnessWith
  split
  · exact .inl rfl
  next hguard =>
  obtain ⟨i, hi⟩ := inst_of_guard hguard
  split
  · exact .inl rfl
  split
  · exact .inl rfl
  next hnone =>
  have hinst := rememberEntry_inst m.entry s
  have hrefused : (s.rememberEntry m.entry).1 = none → (s.rememberEntry m.entry).2 = s := by
    unfold TargetState.rememberEntry
    split
    · exact fun h => absurd h (Option.some_ne_none _)
    · exact fun _ => rfl
  generalize s.rememberEntry m.entry = r at hinst hrefused
  obtain ⟨_ | value, s'⟩ := r
  · exact .inl (hrefused rfl)
  · exact .inr (viewSlot_ne (P := fun st => decide (m.sender ∈ st.backingWitnesses))
      (fun st st' hg h => decide_eq_true (hg.witnesses _ (of_decide_eq_true h))) hi
      (view_of_any hi hnone rfl) (hinst.trans hi)
      (decide_eq_true ((AList.mem_insert _).mpr (.inl rfl)))
      ((recheckBacking_grows (advanceView_grows fuel m.view)).seq (retryTarget_grows fuel)))

theorem onDone_recorded (m : DirectResolutionDone K D) :
    s.Recorded (.done m) (onDone cfg m) := by
  unfold Recorded
  unfold onDone
  split
  · exact .inl rfl
  split
  · exact .inl rfl
  next i hi =>
  split
  · exact .inl rfl
  next hn =>
  have ht : ((s.rememberEntry m.entry).2.mapInst fun i =>
      { i with done := i.done.insert m.sender m.value }).inst =
        some { i with done := i.done.insert m.sender m.value } := by
    unfold mapInst
    rw [rememberEntry_inst, hi]
    rfl
  exact .inr (slot_ne (p := fun i => decide (m.sender ∈ i.done))
    (fun i i' hg h => decide_eq_true (hg.done _ (of_decide_eq_true h))) hi (decide_eq_false hn) ht
    (decide_eq_true ((AList.mem_insert _).mpr (.inl rfl))) (recheckDone_grows _))

theorem onValueServe_recorded (fuel : ℕ) (m : DirectResolutionValueServe K D) :
    s.Recorded (.valueServe m) (onValueServe cfg fuel m) := by
  unfold Recorded
  unfold onValueServe
  split
  · exact .inl rfl
  next hguard =>
  simp only [Bool.or_eq_true, decide_eq_true_eq, not_or, not_not] at hguard
  obtain ⟨⟨hd, hv⟩, hp⟩ := hguard
  refine .inr fun hslot => ?_
  have hmem := (decide_eq_decide.mp (Option.some.inj hslot)).mpr hp
  rcases (retryTarget_grows fuel _).pending _ hmem with hpend | hval
  · rw [rememberEntry_pendingFetch] at hpend
    exact Finset.notMem_erase _ _ hpend
  · refine hval (mem_rememberEntry ?_)
    unfold TargetState.rememberEntry
    rw [Bool.not_eq_true', Bool.not_eq_false] at hv
    rw [dif_pos hv]
    exact congrArg some hd

end TargetState

/-! ### Calls -/

namespace ResolverCall

variable {cfg : ResolverConfig K D}

def isMessage : ResolverCall K D → Bool
  | .suggest _ | .proof _ | .proposal _ | .statement _ | .witness _ | .done _ => true
  | .valueServe _ => true
  | _ => false

/-- Whether the slot of a message is filled in its target. -/
def slot (r : DirectResolver S cfg) (c : ResolverCall K D) : Option Bool :=
  match c with
  | .suggest m => (r.state m.target).slot c
  | .proof m => (r.state m.target).slot c
  | .proposal m => (r.state m.target).slot c
  | .statement m => (r.state m.target).slot c
  | .witness m => (r.state m.target).slot c
  | .done m => (r.state m.target).slot c
  | .valueServe m => (r.state m.target).slot c
  | _ => none

/-- A SUGGEST and a PROPOSAL that pass the checks before their entry is retained carry the value
that they name, or one that is retained already. -/
def Named (r : DirectResolver S cfg) : ResolverCall K D → Prop
  | .suggest m => (r.state m.target).considersSuggest cfg m = true →
      ∀ e ∈ m.entry, (r.state m.target).Names e m.key3Value
  | .proposal m => (r.state m.target).considersProposal cfg m = true →
      (r.state m.target).Names m.entry m.value
  | _ => True

instance (r : DirectResolver S cfg) : ∀ c : ResolverCall K D, Decidable (c.Named r) := by
  intro c
  cases c <;> unfold Named <;> infer_instance

end ResolverCall

namespace DirectResolver

variable {cfg : ResolverConfig K D} {r : DirectResolver S cfg}

/-- Two resolvers with the same windows and the same state of every target. -/
structure Same (r r' : DirectResolver S cfg) : Prop where
  admitted : r'.admittedThrough = r.admittedThrough
  floor : r'.retainedFloor = r.retainedFloor
  state : ∀ t, r'.state t = r.state t

theorem onTarget_same {t : ℕ} {h : TargetHandler S cfg t} (hs : (h (r.state t)).1 = r.state t) :
    r.Same (onTarget t h r).1 := by
  refine ⟨rfl, rfl, fun t' => ?_⟩
  unfold onTarget
  dsimp only
  by_cases ht : t' = t
  · subst ht
    rw [state_setState_self, hs]
  · rw [state_setState_ne r _ ht]

theorem onTarget_recorded {t : ℕ} {h : TargetHandler S cfg t} {c : ResolverCall K D}
    (hrec : (r.state t).Recorded c h)
    (hslot : ((onTarget t h r).1.state t).slot c = (r.state t).slot c) :
    r.Same (onTarget t h r).1 := by
  refine onTarget_same (hrec.resolve_right fun hne => hne ?_)
  rwa [onTarget, state_setState_self] at hslot

/-- A handler that only retains an entry changes the state of the target and no slot of its
instance. -/
theorem onTarget_retains {t : ℕ} {h : TargetHandler S cfg t} {e : ResolutionEntry K D} {value : D}
    (hh : (h (r.state t)).1 = ((r.state t).rememberEntry e).2)
    (hn : ¬ (r.state t).Names e value) :
    ((onTarget t h r).1.state t).inst = (r.state t).inst ∧ ¬ r.Same (onTarget t h r).1 := by
  have hstate : (onTarget t h r).1.state t = ((r.state t).rememberEntry e).2 := by
    rw [onTarget, state_setState_self, hh]
  refine ⟨by rw [hstate, TargetState.rememberEntry_inst], fun hsame => ?_⟩
  exact (TargetState.rememberEntry_ne_of_not_names hn).2.2 (hstate.symm.trans (hsame.state t))

/-- A message that names its value and is not recorded changes nothing, in any state. -/
theorem call_same {c : ResolverCall K D} (fuel : ℕ) (hc : c.isMessage = true) (hn : c.Named r)
    (hslot : c.slot (r.call fuel c).1 = c.slot r) : r.Same (r.call fuel c).1 := by
  cases c with
  | suggest m => exact onTarget_recorded (TargetState.onSuggest_recorded hn) hslot
  | proof m => exact onTarget_recorded (TargetState.onProof_recorded m) hslot
  | proposal m => exact onTarget_recorded (TargetState.onProposal_recorded hn) hslot
  | statement m => exact onTarget_recorded (TargetState.onStatement_recorded fuel m) hslot
  | witness m => exact onTarget_recorded (TargetState.onWitness_recorded fuel m) hslot
  | done m => exact onTarget_recorded (TargetState.onDone_recorded m) hslot
  | valueServe m => exact onTarget_recorded (TargetState.onValueServe_recorded fuel m) hslot
  | _ => cases hc

/-- A message that does not name its value is refused and still changes something. -/
theorem call_same_iff {c : ResolverCall K D} (fuel : ℕ) (hc : c.isMessage = true) :
    (c.slot (r.call fuel c).1 = c.slot r → r.Same (r.call fuel c).1) ↔ c.Named r := by
  refine ⟨fun h => ?_, fun hn => call_same fuel hc hn⟩
  cases c with
  | suggest m =>
    intro hconsiders e he
    by_contra hn
    obtain ⟨hinst, hchanged⟩ :=
      onTarget_retains (TargetState.onSuggest_of_not_names hconsiders he hn) hn
    exact hchanged (h (congrArg (Option.map _) hinst))
  | proposal m =>
    intro hconsiders
    by_contra hn
    obtain ⟨hinst, hchanged⟩ :=
      onTarget_retains (TargetState.onProposal_of_not_names hconsiders hn) hn
    exact hchanged (h (congrArg (Option.map _) hinst))
  | _ => trivial

end DirectResolver

/-! ### Retained values -/

theorem TargetStep.mem_values {cfg : ResolverConfig K D} {J : CallInputs K D}
    {s s' : TargetState S cfg.committee target} {es : List (DirectResolutionEffect K D)}
    (h : TargetStep cfg J s es s') {value : D} (hv : value ∈ s'.values) :
    value ∈ s.values ∨ ∃ e, J.value e ∧ valueDigest S e = value := by
  cases h with
  | inner h => exact .inl (h.still.values ▸ hv)
  | @retain e hJ _ =>
    unfold TargetState.rememberEntry at hv
    split at hv
    · dsimp only at hv
      split at hv
      · exact .inl hv
      · exact ((AList.mem_insert _).mp hv).elim (fun h => .inr ⟨e, hJ, h.symm⟩) .inl
    · exact .inl hv
  | _ => exact .inl hv

theorem TargetState.mem_values_of_steps {cfg : ResolverConfig K D} {J : CallInputs K D}
    {s s' : TargetState S cfg.committee target} {es : List (DirectResolutionEffect K D)}
    (h : Steps (TargetStep cfg J) s es s') {value : D} (hv : value ∈ s'.values) :
    value ∈ s.values ∨ ∃ e, J.value e ∧ valueDigest S e = value := by
  induction h with
  | refl => exact .inl hv
  | step hr _ ih => exact (ih hv).elim hr.mem_values .inr

namespace ResolverParty

variable {cfg : ResolverConfig K D}

def retained (p : ResolverParty S cfg) (t : ℕ) : ℕ := (p.resolver.state t).values.keys.length

/-- The values that a call brings to a target: candidates, and the entry of a message that is
recorded, a served value included. -/
def brings (t : ℕ) (p : ResolverParty S cfg) (fuel : ℕ) (c : ResolverCall K D) : ℕ :=
  if c.isMessage = true ∧ c.slot (p.resolver.call fuel c).1 = c.slot p.resolver then 0
  else (c.entries t).length

/-- The values that the candidates, the recorded messages and the completed fetches of a run bring
to a target. -/
def brought (t : ℕ) : List (ℕ × ResolverCall K D) → ResolverParty S cfg → ℕ
  | [], _ => 0
  | x :: cs, p => p.brings t x.1 x.2 + brought t cs (p.take x.1 x.2)

theorem retained_take {p : ResolverParty S cfg} (hf : p.resolver.Filed) (t fuel : ℕ)
    {c : ResolverCall K D} (hn : c.Named p.resolver) :
    (p.take fuel c).retained t ≤ p.retained t + p.brings t fuel c := by
  unfold brings
  split
  · next h =>
    have hsame := (DirectResolver.call_same fuel h.1 hn h.2).state t
    unfold retained take
    rw [hsame]
    exact Nat.le_add_right _ _
  by_cases hgc : ∃ floor, c = .gcBelow floor
  · obtain ⟨floor, rfl⟩ := hgc
    rw [take_gcBelow, retained, DirectResolver.state_gcBelow]
    split
    · exact Nat.zero_le _
    · exact Nat.le_add_right _ _
  · have hsteps := (DirectResolver.call_moves (fun floor h => hgc ⟨floor, h⟩) fuel hf).steps t
    have hsub : ((p.take fuel c).resolver.state t).values.keys ⊆
        (p.resolver.state t).values.keys ++ (c.entries t).map (valueDigest S) := by
      intro value hv
      rcases TargetState.mem_values_of_steps hsteps (AList.mem_keys.mpr hv) with h | ⟨e, he, h⟩
      · exact List.mem_append_left _ (AList.mem_keys.mp h)
      · exact List.mem_append_right _ (List.mem_map.mpr ⟨e, he, h⟩)
    have hlen := ((AList.keys_nodup _).subperm hsub).length_le
    rwa [List.length_append, List.length_map] at hlen

theorem retained_run (t : ℕ) (cs : List (ℕ × ResolverCall K D)) {p : ResolverParty S cfg}
    (hf : p.resolver.Filed) (hcs : Meets (fun p c => c.Named p.resolver) cs p) :
    (cs.foldl (fun p x => p.take x.1 x.2) p).retained t ≤ p.retained t + brought t cs p := by
  induction cs generalizing p with
  | nil => exact Nat.le_refl _
  | cons x cs ih =>
    have hstep := retained_take hf t x.1 hcs.1
    have hrest := ih (filed_take hf x.1 x.2) hcs.2
    unfold brought
    rw [List.foldl_cons]
    omega

/-- In any state, a message leaves the whole resolver as it is when it is not recorded, exactly if
it names its value or is refused before its entry is looked at; and in every run of such messages
no more values of a target are retained than its candidates, its recorded messages and its completed
fetches have brought. -/
theorem rejected_unchanged :
    (∀ (r : DirectResolver S cfg) (fuel : ℕ) (c : ResolverCall K D), c.isMessage = true →
      ((c.slot (r.call fuel c).1 = c.slot r → r.Same (r.call fuel c).1) ↔ c.Named r)) ∧
    ∀ cs : List (ℕ × ResolverCall K D),
      Meets (fun p c => c.Named p.resolver) cs ({} : ResolverParty S cfg) →
      ∀ t, (run cs : ResolverParty S cfg).retained t ≤
        brought t cs ({} : ResolverParty S cfg) := by
  refine ⟨fun r fuel c hc => DirectResolver.call_same_iff fuel hc, fun cs hcs t => ?_⟩
  have h := retained_run t cs (fun _ => .empty) hcs
  rwa [show ({} : ResolverParty S cfg).retained t = 0 from rfl, Nat.zero_add] at h

/-- The primary of resolver view 1 proposes an entry under the name `value`. -/
def proposalOf (core value : ℕ) : ResolverCall (Fin 4) ℕ :=
  .proposal ⟨1, 1, 0, value, .full 1 [⟨0, core + 1, core⟩] [],
    resolutionLeader (.numbered 4 0) 1 1⟩

/-- Two proposals that name their values: the first is recorded, the second is refused. -/
theorem rejected_unchanged_proposals :
    let digest (core : ℕ) := valueDigest (.numbered 4)
      (.full 1 [⟨0, core + 1, core⟩] [] : ResolutionEntry (Fin 4) ℕ)
    let cs := [(10, .activateWithLocalTerminal 1), (10, proposalOf 0 (digest 0)),
      (10, proposalOf 1 (digest 1))]
    Meets (fun p c => c.Named p.resolver) cs ({} : ResolverParty (.numbered 4) (.numbered 4 0)) ∧
      brought 1 cs ({} : ResolverParty (.numbered 4) (.numbered 4 0)) = 1 ∧
      (run cs : ResolverParty (.numbered 4) (.numbered 4 0)).retained 1 ≤ 1 := by
  intro digest cs
  have hcs : Meets (fun p c => c.Named p.resolver) cs
      ({} : ResolverParty (.numbered 4) (.numbered 4 0)) := by decide +kernel
  have hone : brought 1 cs ({} : ResolverParty (.numbered 4) (.numbered 4 0)) = 1 := by
    decide +kernel
  have h := (@rejected_unchanged (Fin 4) ℕ _ _ _ (.numbered 4) (.numbered 4 0)).2 cs hcs 1
  rw [hone] at h
  exact ⟨hcs, hone, h⟩

/-- A proposal that names another value is refused, but its value is retained; the primary can
repeat this with any number of values. -/
theorem rejected_retained :
    let active : ResolverParty (.numbered 4) (.numbered 4 0) :=
      run [(10, .activateWithLocalTerminal 1)]
    let cs := (10, .activateWithLocalTerminal 1) ::
      [0, 1, 2].map fun core => (10, proposalOf core 0)
    ((proposalOf 0 0).isMessage = true ∧
      (proposalOf 0 0).slot (active.take 10 (proposalOf 0 0)).resolver =
        (proposalOf 0 0).slot active.resolver ∧
      active.retained 1 = 0 ∧ (active.take 10 (proposalOf 0 0)).retained 1 = 1) ∧
    (run cs : ResolverParty (.numbered 4) (.numbered 4 0)).retained 1 = 3 ∧
      brought 1 cs ({} : ResolverParty (.numbered 4) (.numbered 4 0)) = 0 := by
  decide +kernel

end ResolverParty

end Vantage
