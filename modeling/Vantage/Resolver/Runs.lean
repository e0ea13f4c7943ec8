import Vantage.Resolver.Entry
import Vantage.Resolver.Moves

/-!
# The handlers of one target are runs of its steps

* `tryEcho_inner`, `tryPrimaryPropose_inner`, `recheckDone_inner`, `advanceView_inner`: the
  handlers that entry points share;
* `recheckWishes_runs`: views are entered one after another;
* `onWish_runs`, `onSuggest_runs`, …: the entry points.
-/

namespace Vantage

variable {K D : Type} [LinearOrder K] [LinearOrder D] [Inhabited D] {S : Session K D}
  {target : ℕ}

namespace TargetState

variable {cfg : ResolverConfig K D} {J : CallInputs K D}
  {s s' : TargetState S cfg.committee target} {i : DirectInstance K D}
  {es : List (DirectResolutionEffect K D)} {h : TargetHandler S cfg target}
  {l : List (ResolutionEntry K D)} {e : ResolutionEntry K D}

/-- From a filed state, every call is a run of inner steps. -/
def InnerRuns (h : TargetHandler S cfg target) : Prop := Handler.FollowsIn (InnerStep cfg) Filed h

/-- From a filed state, every call is a run of steps. -/
def Runs (J : CallInputs K D) (h : TargetHandler S cfg target) : Prop :=
  Handler.FollowsIn (TargetStep cfg J) Filed h

theorem InnerRuns.of_followsAt (hh : ∀ s, s.Filed → Handler.FollowsAt (InnerStep cfg) h s) :
    InnerRuns h :=
  .of_kept (fun _ _ _ hr => hr.filed) hh

theorem Runs.of_followsAt (hh : ∀ s, s.Filed → Handler.FollowsAt (TargetStep cfg J) h s) :
    Runs J h :=
  .of_kept (fun _ _ _ hr => hr.filed) hh

theorem InnerRuns.runs (hh : InnerRuns h) : Runs J h :=
  hh.mono fun _ _ _ => .inner

theorem steps_inner (h : Steps (InnerStep cfg) s es s') : Steps (TargetStep cfg J) s es s' :=
  h.mono fun _ _ _ => .inner

theorem filed_of_steps (h : Steps (TargetStep cfg J) s es s') (hf : s.Filed) : s'.Filed :=
  h.kept (fun _ _ _ hr => hr.filed) hf

/-! ### Single steps -/

theorem steps_plain (h : ∀ x ∈ es, x.isPlain = true ∧ x.targetOf = some target) :
    Steps (InnerStep cfg) s es s := .single (.plain h)

theorem steps_one {x : DirectResolutionEffect K D} (hp : x.isPlain = true)
    (ht : x.targetOf = some target) : Steps (InnerStep cfg) s [x] s := by
  refine steps_plain fun y hy => ?_
  rw [List.mem_singleton.mp hy]
  exact ⟨hp, ht⟩

theorem steps_updateView {view : ℕ} {f : DirectViewState K D → DirectViewState K D}
    (hi : s.inst = some i)
    (h : ViewStep cfg target view (· ∈ s.values) ((i.views.lookup view).getD {})
      (f ((i.views.lookup view).getD {}))) :
    Steps (InnerStep cfg) s [] (s.updateView view f) := by
  rw [updateView_eq _ _ hi]
  exact .single (.view hi h)

theorem steps_mapView {view : ℕ} {st : DirectViewState K D}
    {f : DirectViewState K D → DirectViewState K D} (hi : s.inst = some i)
    (hv : i.views.lookup view = some st)
    (h : ViewStep cfg target view (· ∈ s.values) st (f st)) :
    Steps (InnerStep cfg) s [] (s.mapView view f) := by
  rw [mapView_eq _ hi hv]
  refine .single (.view hi ?_)
  rwa [hv]

theorem updateView_then {k : TargetHandler S cfg target} (hk : InnerRuns k) {view : ℕ}
    {f : DirectViewState K D → DirectViewState K D} (hf : s.Filed) (hi : s.inst = some i)
    (h : ViewStep cfg target view (· ∈ s.values) ((i.views.lookup view).getD {})
      (f ((i.views.lookup view).getD {}))) :
    Steps (InnerStep cfg) s (k (s.updateView view f)).2 (k (s.updateView view f)).1 :=
  have hstep := steps_updateView hi h
  Steps.silentTrans hstep (hk _ (hstep.kept (fun _ _ _ hr => hr.filed) hf)).1

theorem mapView_then {k : TargetHandler S cfg target} (hk : InnerRuns k) {view : ℕ}
    {st : DirectViewState K D} {f : DirectViewState K D → DirectViewState K D} (hf : s.Filed)
    (hi : s.inst = some i) (hv : i.views.lookup view = some st)
    (h : ViewStep cfg target view (· ∈ s.values) st (f st)) :
    Steps (InnerStep cfg) s (k (s.mapView view f)).2 (k (s.mapView view f)).1 :=
  have hstep := steps_mapView hi hv h
  Steps.silentTrans hstep (hk _ (hstep.kept (fun _ _ _ hr => hr.filed) hf)).1

theorem mem_values_of_entry {value : D} (h : s.entry value = some e) :
    value ∈ s.values := by
  obtain ⟨x, hx, -⟩ := Option.map_eq_some_iff.mp h
  exact AList.lookup_isSome.mp (Option.isSome_iff_exists.mpr ⟨x, hx⟩)

theorem entry_of_mem_values {value : D} (h : value ∈ s.values) : ∃ e, s.entry value = some e := by
  obtain ⟨x, hx⟩ := Option.isSome_iff_exists.mp (AList.lookup_isSome.mpr h)
  exact ⟨x.1, by rw [entry, hx]; rfl⟩

theorem rememberEntry_of_mem (h : valueDigest S e ∈ s.values) :
    (s.rememberEntry e).2 = s := by
  unfold rememberEntry
  split
  · dsimp only
    rw [if_pos h]
  · rfl

theorem mem_rememberEntry {value : D} (h : (s.rememberEntry e).1 = some value) :
    value ∈ (s.rememberEntry e).2.values := by
  obtain ⟨rfl, hvalid⟩ := rememberEntry_some h
  unfold rememberEntry
  rw [dif_pos hvalid]
  dsimp only
  split
  · next hm => exact hm
  · exact (AList.mem_insert _).mpr (.inl rfl)

theorem rememberEntry_pendingFetch (e : ResolutionEntry K D) :
    (s.rememberEntry e).2.pendingFetch = s.pendingFetch := by
  obtain ⟨values, h⟩ := rememberEntry_eq e s
  rw [h]

theorem rememberEntry_erase (e : ResolutionEntry K D) (value : D) :
    (({ s with pendingFetch := s.pendingFetch.erase value } :
        TargetState S cfg.committee target).rememberEntry e).2 =
      { (s.rememberEntry e).2 with
        pendingFetch := s.pendingFetch.erase value
        fetchRequested := s.fetchRequested } := by
  unfold rememberEntry
  split
  · dsimp only
    split <;> rfl
  · rfl

/-! ### Statements and proposals -/

theorem emitStatement_inner (view : ℕ) (phase : DirectResolutionPhase) (value : D)
    (key origin : Option ℕ) :
    InnerRuns (emitStatement cfg view phase value key origin : TargetHandler S cfg target) := by
  refine .of_followsAt fun s _ => ?_
  unfold Handler.FollowsAt emitStatement
  split
  · exact .refl s
  split
  · exact .refl s
  next i hi =>
  split
  · exact .refl s
  · next hs =>
    have hsent : ((i.views.lookup view).getD {}).sent phase = none := by simpa using hs
    dsimp only
    exact Steps.trans (steps_updateView hi
      (.say (r := ⟨value, key, if phase = .echo then origin else none⟩) hsent)) (steps_one rfl rfl)

theorem tryEcho_inner (view : ℕ) : InnerRuns (tryEcho cfg view : TargetHandler S cfg target) := by
  refine .of_followsAt fun s hf => ?_
  unfold Handler.FollowsAt tryEcho
  split
  · exact .refl s
  next i hi =>
  split
  · exact .refl s
  split
  · exact .refl s
  next st hv =>
  split
  · exact .refl s
  split
  · exact .refl s
  next p hp =>
  split
  · exact .refl s
  split
  · exact .refl s
  split
  · exact (emitStatement_inner _ _ _ _ _ s hf).1
  · exact (steps_mapView hi hv (.vote .requested st.voteOrigin)).trans (steps_one rfl rfl)
  · exact .refl s

theorem onProposal_followsAt {R : TargetState S cfg.committee target →
      List (DirectResolutionEffect K D) → TargetState S cfg.committee target → Prop}
    (hR : ∀ s es s', InnerStep cfg s es s' → R s es s') {m : DirectResolutionProposal K D}
    (hm : m.target = target) (hf' : (s.rememberEntry m.entry).2.Filed)
    (he : s.inst.isSome → Steps R s [] (s.rememberEntry m.entry).2) :
    Handler.FollowsAt R (onProposal cfg m) s := by
  unfold Handler.FollowsAt onProposal
  split
  · exact .refl s
  next hguard =>
  split
  · exact .refl s
  split
  · exact .refl s
  next hnone =>
  obtain ⟨i, hi⟩ := inst_of_guard hguard
  replace he := he (Option.isSome_iff_exists.mpr ⟨i, hi⟩)
  have hinst := rememberEntry_inst m.entry s
  generalize s.rememberEntry m.entry = r at he hf' hinst
  obtain ⟨_ | value, s'⟩ := r
  · exact he
  · dsimp only at he hf' hinst ⊢
    split
    · exact he
    have hi' : s'.inst = some i := hinst.trans hi
    have hp : ((i.views.lookup m.view).getD {}).proposal = none := by
      unfold viewState at hnone
      rw [hi, Option.bind_some] at hnone
      cases hl : i.views.lookup m.view with
      | none => rfl
      | some st => simpa [hl] using hnone
    exact Steps.silentTrans he
      ((updateView_then (tryEcho_inner m.view) hf' hi' (.propose ⟨hm, rfl⟩ hp)).mono hR)

theorem propose_followsAt {view keyView : ℕ} (hf : s.Filed) (he : valueDigest S e ∈ s.values) :
    Handler.FollowsAt (InnerStep cfg) (propose cfg view keyView e) s := by
  have hsame := rememberEntry_of_mem he
  refine Handler.FollowsAt.after (steps_one rfl rfl) (onProposal_followsAt (fun _ _ _ => id) rfl
    ?_ ?_)
  · dsimp only
    rwa [hsame]
  · dsimp only
    rw [hsame]
    exact fun _ => .refl s

theorem takeNextCandidate_spec (view : ℕ) (s : TargetState S cfg.committee target) :
    Steps (InnerStep cfg) s [] (s.takeNextCandidate cfg view).2 ∧
      (s.takeNextCandidate cfg view).2.values = s.values ∧
      ∀ e, (s.takeNextCandidate cfg view).1 = some e → ∃ i, s.inst = some i ∧ e ∈ i.candidates := by
  unfold takeNextCandidate
  dsimp only
  split
  · exact ⟨.refl s, rfl, fun e he => by cases he⟩
  · next e he =>
    have hmem : e ∈ s.eligible cfg := List.mem_of_getElem? he
    unfold eligible at hmem
    cases hi : s.inst with
    | none =>
      rw [hi] at hmem
      cases hmem
    | some i =>
      rw [hi] at hmem
      refine ⟨?_, rfl, fun e' he' => ?_⟩
      · unfold mapInst
        rw [hi]
        exact .single (.cursor _ hi)
      · cases he'
        exact ⟨i, rfl, List.mem_of_mem_filter hmem⟩

theorem tryPrimaryPropose_inner (view : ℕ) :
    InnerRuns (tryPrimaryPropose cfg view : TargetHandler S cfg target) := by
  refine .of_followsAt fun s hf => ?_
  unfold Handler.FollowsAt tryPrimaryPropose
  split
  · exact .refl s
  split
  · exact .refl s
  dsimp only
  split
  · exact .refl s
  split
  · exact .refl s
  split
  · split
    · exact .refl s
    · next e he =>
      refine propose_followsAt hf ?_
      rw [(entry_spec he).1]
      exact mem_values_of_entry he
  · obtain ⟨hsteps, hvalues, hcand⟩ := takeNextCandidate_spec view s
    generalize s.takeNextCandidate cfg view = r at hsteps hvalues hcand
    obtain ⟨_ | e, s'⟩ := r
    · exact hsteps
    · obtain ⟨i, hi, hmem⟩ := hcand e rfl
      have hknown : valueDigest S e ∈ s'.values := by
        rw [hvalues]
        exact ((hf.inst i hi).candidates e hmem).2
      exact Steps.silentTrans hsteps
        (propose_followsAt (hsteps.kept (fun _ _ _ hr => hr.filed) hf) hknown)

/-! ### DONE -/

theorem emitDone_inner (value : D) (e : ResolutionEntry K D) (hv : value ∈ s.values) :
    Handler.FollowsAt (InnerStep cfg) (emitDone cfg value e) s := by
  unfold Handler.FollowsAt emitDone
  split
  · exact .refl s
  split
  · exact .refl s
  next i hi =>
  split
  · exact .refl s
  · next hn =>
    have hstep : InnerStep cfg s [] _ := .sendDone hi (by simpa using hn) hv
    exact Steps.silent hstep (steps_one rfl rfl)

theorem doneWinner_retained {threshold : ℕ} {value : D} (ht : 0 < threshold) (hf : s.Filed)
    (h : s.doneWinner cfg threshold = some value) : value ∈ s.values := by
  obtain ⟨i, hi, hw⟩ := Option.bind_eq_some_iff.mp h
  have hcount := ht.trans_le (Table.winner_count hw)
  obtain ⟨q, hq⟩ := Finset.card_pos.mp hcount
  obtain ⟨v, hv, hvalue⟩ := Table.mem_keysWhere.mp hq
  have : v = value := by simpa using hvalue
  exact this ▸ (hf.inst i hi).done q v hv

theorem recheckDone_inner : InnerRuns (recheckDone cfg : TargetHandler S cfg target) := by
  refine Handler.FollowsIn.seq (InnerRuns.of_followsAt fun s hf => ?_)
    (InnerRuns.of_followsAt fun s hf => ?_)
  · unfold Handler.FollowsAt relayDone
    split
    · exact .refl s
    split
    · exact .refl s
    next value hw =>
    have hmem := doneWinner_retained (Nat.succ_pos _) hf hw
    obtain ⟨e, he⟩ := entry_of_mem_values hmem
    rw [he]
    exact emitDone_inner value e hmem
  · unfold Handler.FollowsAt decideDone
    split
    · exact .refl s
    next value hw =>
    obtain ⟨e, he⟩ := entry_of_mem_values (doneWinner_retained (quorumParties_pos cfg) hf hw)
    obtain ⟨i, hi, -⟩ := Option.bind_eq_some_iff.mp hw
    rw [he]
    refine Steps.silent (.decide value e hi) (steps_one rfl ?_)
    have hvalid := (entry_spec he).2
    simp only [validEntry, Bool.and_eq_true, decide_eq_true_eq] at hvalid
    exact congrArg some hvalid.1

/-! ### The phase loop -/

theorem ensureValueFetch_inner (value : D) (peers : List K) (hi : s.inst.isSome) :
    Handler.FollowsAt (InnerStep cfg) (ensureValueFetch cfg value peers) s := by
  unfold Handler.FollowsAt ensureValueFetch
  split
  · exact .refl s
  · refine Steps.silent (.fetch _ (.inl hi)) (steps_plain fun x hx => ?_)
    obtain ⟨q, -, rfl⟩ := List.mem_map.mp hx
    exact ⟨rfl, rfl⟩

theorem inst_of_phaseWinner {view threshold : ℕ} {phase : DirectResolutionPhase}
    {vote : Option ℕ × D} (h : s.phaseWinner cfg view phase threshold = some vote) :
    s.inst.isSome := by
  obtain ⟨st, hst, -⟩ := Option.bind_eq_some_iff.mp h
  obtain ⟨i, hi, -⟩ := viewState_eq hst
  exact Option.isSome_iff_exists.mpr ⟨i, hi⟩

theorem inst_of_nextMove_fetch {view : ℕ} {fromPhase toPhase : DirectResolutionPhase}
    {vote : Option ℕ × D} (h : s.nextMove cfg view fromPhase toPhase = .fetch vote) :
    s.inst.isSome := by
  unfold nextMove at h
  split at h
  · cases h
  · next hw => exact inst_of_phaseWinner hw

theorem emitBackingWitness_inner (view : ℕ) (value : D) :
    InnerRuns (emitBackingWitness cfg view value : TargetHandler S cfg target) := by
  refine .of_followsAt fun s _ => ?_
  unfold Handler.FollowsAt emitBackingWitness
  split
  · next e st he hst =>
    split
    · exact .refl s
    · next hn =>
      obtain ⟨i, hi, hv⟩ := viewState_eq hst
      exact (steps_mapView hi hv (.witness (by simpa using hn) (mem_values_of_entry he))).trans
        (steps_one rfl rfl)
  · exact .refl s

theorem recheckBacking_inner (view : ℕ) {advanceView : TargetHandler S cfg target}
    (h : InnerRuns advanceView) : InnerRuns (recheckBacking cfg view advanceView) := by
  refine Handler.FollowsIn.seq (InnerRuns.of_followsAt fun s hf => ?_)
    (InnerRuns.of_followsAt fun s hf => ?_)
  · unfold Handler.FollowsAt
    dsimp only
    split
    · exact (emitBackingWitness_inner _ _ s hf).1
    · exact .refl s
  · unfold Handler.FollowsAt
    dsimp only
    split
    · exact (h s hf).1
    · exact .refl s

theorem sendPhase_inner (view : ℕ) (phase : DirectResolutionPhase) (value : D) :
    InnerRuns (sendPhase cfg view phase value : TargetHandler S cfg target) := by
  refine Handler.FollowsIn.seq (InnerRuns.of_followsAt fun s _ => ?_)
    (emitStatement_inner _ _ _ _ _)
  unfold Handler.FollowsAt mapInst
  dsimp only [Handler.modify_apply]
  cases hi : s.inst with
  | none =>
    have hs : ({ s with inst := Option.map (recordKey view phase value) none } :
        TargetState S cfg.committee target) = s := by
      rw [Option.map_none, ← hi]
    rw [hs]
    exact .refl s
  | some i => exact .single (.key view phase value hi)

theorem finishRound_inner (view : ℕ) (progressed : Bool) {loop : TargetHandler S cfg target}
    (h : InnerRuns loop) : InnerRuns (finishRound cfg view progressed loop) := by
  refine .of_followsAt fun s hf => ?_
  unfold Handler.FollowsAt finishRound
  split
  · next vote hw _ =>
    split
    · exact ensureValueFetch_inner _ _ (inst_of_phaseWinner hw)
    · next e he =>
      have hdone := @emitDone_inner K D _ _ _ S target cfg s vote.2 e (mem_values_of_entry he)
      exact hdone.seq (h _ (hdone.kept (fun _ _ _ hr => hr.filed) hf)).1
  · split
    · exact (h s hf).1
    · exact (recheckDone_inner s hf).1

theorem advanceRound_inner (view : ℕ) {recheckBacking loop : TargetHandler S cfg target}
    (hb : InnerRuns recheckBacking) (hl : InnerRuns loop)
    (ts : List (DirectResolutionPhase × DirectResolutionPhase)) (progressed : Bool) :
    InnerRuns (advanceRound cfg view recheckBacking loop ts progressed) := by
  induction ts generalizing progressed with
  | nil => exact finishRound_inner view progressed hl
  | cons t ts ih =>
    refine .of_followsAt fun s hf => ?_
    unfold Handler.FollowsAt advanceRound
    split
    · exact (ih progressed s hf).1
    · next hmove => exact ensureValueFetch_inner _ _ (inst_of_nextMove_fetch hmove)
    · exact (((emitBackingWitness_inner _ _).seq hb).seq (ih progressed) s hf).1
    · exact ((sendPhase_inner _ _ _).seq (ih true) s hf).1

theorem advance_inner (view fuel : ℕ) :
    InnerRuns (advance cfg view fuel : TargetHandler S cfg target) := by
  induction fuel with
  | zero => exact Handler.FollowsIn.skip
  | succ fuel ih => exact advanceRound_inner view (recheckBacking_inner view ih) ih _ _

theorem advanceView_inner (fuel view : ℕ) :
    InnerRuns (advanceView cfg fuel view : TargetHandler S cfg target) := by
  refine .of_followsAt fun s hf => ?_
  unfold Handler.FollowsAt advanceView
  split
  · exact .refl s
  · exact (advance_inner view fuel s hf).1

theorem retryTarget_inner (fuel : ℕ) :
    InnerRuns (retryTarget cfg fuel : TargetHandler S cfg target) := by
  refine .of_followsAt fun s hf => ?_
  unfold Handler.FollowsAt retryTarget retryTargetWith
  split
  · exact .refl s
  · exact ((((tryPrimaryPropose_inner _).seq (tryEcho_inner _)).seq
      (advanceView_inner fuel _)).seq recheckDone_inner s hf).1

/-! ### Wishes and view entry -/

theorem raiseOwnWish_followsAt {view : ℕ}
    (hv : ∀ i, s.inst = some i → view = 1 ∨ view = i.currentView + 1 ∨
      view = kthLargest (wishViews i) cfg.fPlus1Parties) :
    Handler.FollowsAt (TargetStep cfg J) (raiseOwnWish cfg view) s := by
  unfold Handler.FollowsAt raiseOwnWish
  split
  · exact .refl s
  next i hi =>
  split
  · exact .refl s
  · next hlt =>
    have hraise : TargetStep cfg J s _ _ := .raise hi (not_le.mp hlt) (hv i hi)
    have htimer : ∀ x ∈ (if i.currentView = 0 then [DirectResolutionEffect.armTimer target view
        .entry cfg.proposalTimeout] else [] : List (DirectResolutionEffect K D)),
        x.isPlain = true ∧ x.targetOf = some target := by
      intro x hx
      split at hx
      · rw [List.mem_singleton.mp hx]
        exact ⟨rfl, rfl⟩
      · cases hx
    exact Steps.step hraise (steps_inner (steps_plain htimer))

theorem enterView_followsAt (fuel : ℕ) {view : ℕ} (hf : s.Filed)
    (h : ∀ i, s.inst = some i → view = i.enteredThrough + 1 ∧
      view ≤ kthLargest (wishViews i) cfg.quorumParties) :
    Handler.FollowsAt (TargetStep cfg J) (enterView cfg fuel view) s ∧
      ∀ i', (enterView cfg fuel view s).1.inst = some i' → ∃ i, s.inst = some i ∧
        i'.enteredThrough = view ∧ i'.wishes = i.wishes := by
  unfold Handler.FollowsAt enterView
  split
  · next hi => exact ⟨.refl s, fun i' hi' => by rw [hi] at hi'; cases hi'⟩
  next i hi =>
  obtain ⟨hview, hq⟩ := h i hi
  rw [if_neg (by omega)]
  dsimp only
  have hinner : InnerRuns (((tryPrimaryPropose cfg view).seq (tryEcho cfg view)).seq
      (advanceView cfg fuel view) : TargetHandler S cfg target) :=
    ((tryPrimaryPropose_inner view).seq (tryEcho_inner view)).seq (advanceView_inner fuel view)
  generalize ((tryPrimaryPropose cfg view).seq (tryEcho cfg view)).seq (advanceView cfg fuel view) =
    k at hinner
  have henter := @TargetStep.enter K D _ _ _ S target cfg J s i _ view
    ⟨target, view, cfg.name, i.key3View, i.key3Value, i.key2View, i.key2Value, i.prevKey2,
      if 0 < i.key3View then s.entry i.key3Value else none⟩
    ⟨target, view, cfg.name, i.key1View, i.key1Value, i.prevKey1⟩
    hi hview hq rfl ⟨rfl, rfl⟩ ⟨rfl, rfl⟩
  have htail := hinner _ (henter.filed hf)
  refine ⟨?_, fun i' hi' => ?_⟩
  · refine Handler.FollowsAt.after ?_ (steps_inner htail.1)
    have htimers : Steps (TargetStep cfg J) s [.armTimer target view .proposal cfg.proposalTimeout,
        .armTimer target view .view cfg.resolverTimeout] s := by
      refine steps_inner (steps_plain fun x hx => ?_)
      rcases List.mem_cons.mp hx with rfl | hx
      · exact ⟨rfl, rfl⟩
      · rw [List.mem_singleton.mp hx]
        exact ⟨rfl, rfl⟩
    exact htimers.trans (.single henter)
  · obtain ⟨i₁, hi₁, hpart, -⟩ := (InnerStep.still_of_steps htail.1).inst i' hi'
    cases hi₁
    simp only [DirectInstance.entryPart, Prod.mk.injEq] at hpart
    exact ⟨i, hi, hpart.2.1, hpart.1.2⟩

theorem enterViews_followsAt (fuel n : ℕ) {entered : ℕ} (hf : s.Filed)
    (h : ∀ i, s.inst = some i → i.enteredThrough = entered ∧
      (0 < n → entered + n ≤ kthLargest (wishViews i) cfg.quorumParties)) :
    Handler.FollowsAt (TargetStep cfg J)
      (Handler.forEach (List.range' (entered + 1) n) (enterView cfg fuel)) s := by
  induction n generalizing s entered with
  | zero => exact .refl s
  | succ n ih =>
    rw [List.range'_succ]
    have hnext : ∀ i, s.inst = some i → entered + 1 = i.enteredThrough + 1 ∧
        entered + 1 ≤ kthLargest (wishViews i) cfg.quorumParties := by
      intro i hi
      obtain ⟨he, hq⟩ := h i hi
      have := hq (Nat.succ_pos n)
      exact ⟨by rw [he], by omega⟩
    obtain ⟨hstep, hafter⟩ := @enterView_followsAt K D _ _ _ S target cfg J s fuel _ hf hnext
    refine Handler.FollowsAt.seq hstep (ih (filed_of_steps hstep hf) fun i' hi' => ?_)
    obtain ⟨i, hi, hent, hw⟩ := hafter i' hi'
    have hwishes : wishViews i' = wishViews i := by
      unfold wishViews
      rw [hw]
    refine ⟨hent, fun _ => ?_⟩
    have := (h i hi).2 (Nat.succ_pos n)
    rw [hwishes]
    omega

theorem recheckWishes_runs (fuel : ℕ) :
    Runs J (recheckWishes cfg fuel : TargetHandler S cfg target) := by
  refine Handler.FollowsIn.seq (Runs.of_followsAt fun s hf => ?_)
    (Runs.of_followsAt fun s hf => ?_)
  · unfold Handler.FollowsAt
    dsimp only
    split
    · exact .refl s
    · next i hi =>
      refine raiseOwnWish_followsAt fun i' hi' => ?_
      rw [hi] at hi'
      cases hi'
      exact .inr (.inr rfl)
  · unfold Handler.FollowsAt
    dsimp only
    split
    · exact .refl s
    · next i hi =>
      refine enterViews_followsAt fuel _ hf fun i' hi' => ?_
      rw [hi] at hi'
      cases hi'
      exact ⟨rfl, fun hpos => by omega⟩

theorem raiseFirst_runs (fuel : ℕ) :
    Runs J ((raiseOwnWish cfg 1).seq (recheckWishes cfg fuel) : TargetHandler S cfg target) :=
  Handler.FollowsIn.seq (Runs.of_followsAt fun _ _ => raiseOwnWish_followsAt fun _ _ => .inl rfl)
    (recheckWishes_runs fuel)

theorem onTimer_runs (fuel view : ℕ) (kind : DirectResolutionTimerKind) :
    Runs J (onTimer cfg fuel view kind : TargetHandler S cfg target) := by
  refine .of_followsAt fun s hf => ?_
  unfold Handler.FollowsAt onTimer
  split
  · exact .refl s
  next i hi =>
  split
  · split
    · exact .refl s
    · next hwish =>
      have hown : i.ownWish = view := by
        by_contra hne
        exact hwish (.inr hne)
      subst hown
      have hrewish : TargetStep cfg J s _ s := .rewish hi
      exact Steps.step hrewish (steps_inner (steps_one rfl rfl))
  split
  · exact .refl s
  next hview =>
  split
  · exact .refl s
  · have hraise : Handler.FollowsAt (TargetStep cfg J) (raiseOwnWish cfg (view + 1)) s := by
      refine raiseOwnWish_followsAt fun i' hi' => ?_
      rw [hi] at hi'
      cases hi'
      rw [not_ne_iff] at hview
      exact .inr (.inl (by rw [hview]))
    exact hraise.seq (recheckWishes_runs fuel _ (filed_of_steps hraise hf)).1

/-! ### Messages -/

theorem notMem_view {view : ℕ} {β : Type} (table : DirectViewState K D → Table K β) {q : K}
    (hi : s.inst = some i) (hempty : q ∉ table {})
    (h : ¬((s.viewState view).any fun st => decide (q ∈ table st)) = true) :
    q ∉ table ((i.views.lookup view).getD {}) := by
  rw [viewState_any hi] at h
  cases hv : i.views.lookup view with
  | none => exact hempty
  | some st => simpa [hv] using h

theorem inst_of_refusesPhase {sender : K} {view : ℕ}
    (h : ¬s.refusesPhase cfg sender view = true) : ∃ i, s.inst = some i := by
  unfold refusesPhase at h
  simp only [Bool.or_eq_true, not_or, Option.isNone_iff_eq_none] at h
  exact Option.ne_none_iff_exists'.mp h.1.1.2

theorem onSuggest_runs {m : DirectResolutionSuggest K D} (hm : m.target = target)
    (hJ : ∀ e, m.entry = some e → J.value e) :
    Runs J (onSuggest cfg m : TargetHandler S cfg target) := by
  refine .of_followsAt fun s hf => ?_
  unfold Handler.FollowsAt onSuggest
  split
  · exact .refl s
  next hguard =>
  obtain ⟨i, hi⟩ := inst_of_refusesPhase hguard
  split
  · exact .refl s
  next hnone =>
  have hn := notMem_view (fun st => st.suggestions) hi (AList.notMem_empty _) hnone
  -- recording is an inner step from any state with this instance
  have hrecord : ∀ t : TargetState S cfg.committee target, t.Filed → t.inst = some i →
      Steps (TargetStep cfg J) t (tryPrimaryPropose cfg m.view (t.updateView m.view fun st =>
          { st with suggestions := st.suggestions.insert m.sender m })).2
        (tryPrimaryPropose cfg m.view (t.updateView m.view fun st =>
          { st with suggestions := st.suggestions.insert m.sender m })).1 := by
    intro t ht hti
    exact steps_inner
      (updateView_then (tryPrimaryPropose_inner m.view) ht hti (.suggest ⟨hm, rfl⟩ hn))
  dsimp only
  split
  · split
    · exact .refl s
    · exact hrecord s hf hi
  split
  · exact .refl s
  next e he =>
  have hsome : s.inst.isSome := by rw [hi]; rfl
  have hretain : Steps (TargetStep cfg J) s [] (s.rememberEntry e).2 :=
    .single (.retain (hJ e he) (.inl hsome))
  have hinst := rememberEntry_inst e s
  generalize s.rememberEntry e = r at hretain hinst
  obtain ⟨_ | value, s'⟩ := r
  · exact hretain
  · dsimp only at hretain hinst ⊢
    split
    · exact hretain
    · exact Steps.silentTrans hretain (hrecord s' (filed_of_steps hretain hf) (hinst.trans hi))

theorem onProof_runs {m : DirectResolutionProof K D} (hm : m.target = target) :
    InnerRuns (onProof cfg m : TargetHandler S cfg target) := by
  refine .of_followsAt fun s hf => ?_
  unfold Handler.FollowsAt onProof
  split
  · exact .refl s
  next hguard =>
  obtain ⟨i, hi⟩ := inst_of_refusesPhase hguard
  split
  · exact .refl s
  next hnone =>
  have hn := notMem_view (fun st => st.proofs) hi (AList.notMem_empty _) hnone
  exact updateView_then (tryEcho_inner m.view) hf hi (.proof ⟨hm, rfl⟩ hn)

theorem onProposal_runs {m : DirectResolutionProposal K D} (hm : m.target = target)
    (hJ : J.value m.entry) : Runs J (onProposal cfg m : TargetHandler S cfg target) := by
  refine .of_followsAt fun s hf => ?_
  exact onProposal_followsAt (fun _ _ _ => .inner) hm (hf.rememberEntry m.entry)
    fun hi => .single (.retain hJ (.inl hi))

theorem onWitness_runs (fuel : ℕ) {m : DirectResolutionWitness K D} (hJ : J.value m.entry) :
    Runs J (onWitness cfg fuel m : TargetHandler S cfg target) := by
  refine .of_followsAt fun s hf => ?_
  unfold Handler.FollowsAt onWitness onWitnessWith
  split
  · exact .refl s
  next hguard =>
  obtain ⟨i, hi⟩ := inst_of_guard hguard
  split
  · exact .refl s
  split
  · exact .refl s
  next hnone =>
  have hn := notMem_view (fun st => st.backingWitnesses) hi (AList.notMem_empty _) hnone
  have hsome : s.inst.isSome := by rw [hi]; rfl
  have hretain : Steps (TargetStep cfg J) s [] (s.rememberEntry m.entry).2 :=
    .single (.retain hJ (.inl hsome))
  have hinst := rememberEntry_inst m.entry s
  generalize s.rememberEntry m.entry = r at hretain hinst
  obtain ⟨_ | value, s'⟩ := r
  · exact hretain
  · dsimp only at hretain hinst ⊢
    have htail : InnerRuns ((recheckBacking cfg m.view (advanceView cfg fuel m.view)).seq
        (retryTarget cfg fuel) : TargetHandler S cfg target) :=
      (recheckBacking_inner m.view (advanceView_inner fuel m.view)).seq (retryTarget_inner fuel)
    exact Steps.silentTrans hretain (steps_inner (updateView_then htail
      (filed_of_steps hretain hf) (hinst.trans hi) (.witnessed m.value hn)))

theorem onVote_runs (fuel view : ℕ) (value : D) (vote : DirectResolutionVote) :
    InnerRuns (onVote cfg fuel view value vote : TargetHandler S cfg target) := by
  refine .of_followsAt fun s hf => ?_
  unfold Handler.FollowsAt onVote onVoteWith
  split
  · exact .refl s
  next st hst =>
  obtain ⟨i, hi, hv⟩ := viewState_eq hst
  split
  · exact .refl s
  split
  · exact steps_mapView hi hv (.vote _ st.voteOrigin)
  split
  · exact steps_mapView hi hv (.vote _ st.voteOrigin)
  · next origin _ =>
    have htail : InnerRuns ((tryEcho cfg view).seq (advanceView cfg fuel view) :
        TargetHandler S cfg target) := (tryEcho_inner view).seq (advanceView_inner fuel view)
    exact mapView_then htail hf hi hv (.vote .accepted origin)

theorem retryExternalValidity_inner :
    InnerRuns (retryExternalValidity cfg : TargetHandler S cfg target) := by
  refine .of_followsAt fun s hf => ?_
  unfold Handler.FollowsAt retryExternalValidity
  split
  · exact .refl s
  next i hi =>
  split
  · next hany =>
    obtain ⟨st, hv, -⟩ := (Option.any_eq_true _ _).mp hany
    exact mapView_then (tryEcho_inner _) hf hi hv (.vote .unknown st.voteOrigin)
  · exact .refl s

theorem onStatement_runs (fuel : ℕ) (m : DirectResolutionStatement K D) :
    InnerRuns (onStatement cfg fuel m : TargetHandler S cfg target) := by
  refine .of_followsAt fun s hf => ?_
  unfold Handler.FollowsAt onStatement onStatementWith
  split
  · exact .refl s
  next hguard =>
  obtain ⟨i, hi⟩ := inst_of_guard hguard
  split
  · exact .refl s
  split
  · exact .refl s
  next hnone =>
  have hn := notMem_view (fun st => st.statements m.phase) hi (AList.notMem_empty _) hnone
  have htail : InnerRuns (((tryPrimaryPropose cfg s.currentView).seq
      (tryEcho cfg s.currentView)).seq
        (if m.view = s.currentView then advanceView cfg fuel m.view else .skip) :
          TargetHandler S cfg target) := by
    refine ((tryPrimaryPropose_inner _).seq (tryEcho_inner _)).seq ?_
    split
    · exact advanceView_inner fuel m.view
    · exact Handler.FollowsIn.skip
  exact updateView_then htail hf hi (.statement ⟨m.value, m.proposalKeyView, m.origin⟩ hn)

theorem onDone_runs {m : DirectResolutionDone K D} (hJ : J.value m.entry) :
    Runs J (onDone cfg m : TargetHandler S cfg target) := by
  refine .of_followsAt fun s hf => ?_
  unfold Handler.FollowsAt onDone
  split
  · exact .refl s
  next hguard =>
  split
  · exact .refl s
  next i hi =>
  split
  · exact .refl s
  next hn =>
  simp only [Bool.or_eq_true, decide_eq_true_eq, not_or, Bool.not_eq_true', Bool.not_eq_false,
    not_ne_iff] at hguard
  obtain ⟨⟨⟨-, hdigest⟩, hvalid⟩, -⟩ := hguard
  have hsome : s.inst.isSome := by rw [hi]; rfl
  have hretain : Steps (TargetStep cfg J) s [] (s.rememberEntry m.entry).2 :=
    .single (.retain hJ (.inl hsome))
  have hknown : m.value ∈ (s.rememberEntry m.entry).2.values := by
    refine mem_rememberEntry ?_
    unfold rememberEntry
    rw [dif_pos hvalid]
    exact congrArg some hdigest
  have hi' : (s.rememberEntry m.entry).2.inst = some i := (rememberEntry_inst m.entry s).trans hi
  generalize (s.rememberEntry m.entry).2 = s' at hretain hknown hi'
  have hstep : Steps (TargetStep cfg J) s' [] _ := .single (.inner (.done hi' hn hknown))
  have hmap : s'.mapInst (fun i => { i with done := i.done.insert m.sender m.value }) =
      { s' with inst := some { i with done := i.done.insert m.sender m.value } } := by
    unfold mapInst
    rw [hi']
    rfl
  rw [hmap]
  have hpre := Steps.silentTrans hretain hstep
  exact Steps.silentTrans hpre (steps_inner (recheckDone_inner _ (filed_of_steps hpre hf)).1)

theorem onValueFetch_runs {m : DirectResolutionValueFetch K D}
    (hJ : m.value ∈ s.values → J.fetch m.value m.requester s.decision.isSome) :
    Handler.FollowsAt (TargetStep cfg J) (onValueFetch cfg m) s := by
  unfold Handler.FollowsAt onValueFetch
  split
  · exact .refl s
  split
  · exact .refl s
  next e he =>
  split
  · exact .refl s
  · next hn => exact .single (.serve (hJ (mem_values_of_entry he)) he hn)

theorem onValueServe_runs (fuel : ℕ) {m : DirectResolutionValueServe K D} (hJ : J.value m.entry) :
    Runs J (onValueServe cfg fuel m : TargetHandler S cfg target) := by
  refine .of_followsAt fun s hf => ?_
  unfold Handler.FollowsAt onValueServe
  split
  · exact .refl s
  next hguard =>
  simp only [Bool.or_eq_true, decide_eq_true_eq, not_or, not_not] at hguard
  have hretain : TargetStep cfg J s [] _ := .retain hJ (.inr (.inr ⟨m.value, hguard.2⟩))
  have hfetch : TargetStep cfg J (s.rememberEntry m.entry).2 [] { (s.rememberEntry m.entry).2 with
      pendingFetch := s.pendingFetch.erase m.value
      fetchRequested := s.fetchRequested } := by
    refine .inner (.fetch _ (.inr ?_))
    rw [rememberEntry_pendingFetch]
    exact Finset.erase_subset _ _
  have hpre := Steps.silent hretain (.single hfetch)
  rw [rememberEntry_erase]
  exact Steps.silentTrans hpre (steps_inner (retryTarget_inner fuel _ (filed_of_steps hpre hf)).1)

/-! ### Starting an instance -/

theorem rememberAll_steps (hJ : ∀ e ∈ l, J.value e) (ho : s.inst.isSome ∨ J.mayStart) :
    Steps (TargetStep cfg J) s [] (l.foldl (fun s e => (s.rememberEntry e).2) s) := by
  induction l generalizing s with
  | nil => exact .refl s
  | cons e l ih =>
    refine Steps.silent (.retain (hJ e List.mem_cons_self) (ho.imp_right .inl))
      (ih (fun e' he' => hJ e' (List.mem_cons_of_mem _ he')) ?_)
    rwa [rememberEntry_inst]

theorem mem_values_rememberAll {d : D} (l : List (ResolutionEntry K D)) (h : d ∈ s.values) :
    d ∈ (l.foldl (fun s e => (s.rememberEntry e).2) s).values := by
  induction l generalizing s with
  | nil => exact h
  | cons e l ih => exact ih (mem_values_rememberEntry e h)

theorem rememberAll_retained (he : e ∈ l) (hv : validEntry cfg.committee target e = true) :
    valueDigest S e ∈ (l.foldl (fun s e => (s.rememberEntry e).2) s).values := by
  induction l generalizing s with
  | nil => cases he
  | cons e' l ih =>
    rw [List.foldl_cons]
    rcases List.mem_cons.mp he with rfl | he
    · refine mem_values_rememberAll l (mem_rememberEntry ?_)
      unfold rememberEntry
      rw [dif_pos hv]
    · exact ih he

theorem rememberAll_inst (l : List (ResolutionEntry K D)) :
    (l.foldl (fun s e => (s.rememberEntry e).2) s).inst = s.inst ∧
      (l.foldl (fun s e => (s.rememberEntry e).2) s).decision = s.decision := by
  induction l generalizing s with
  | nil => exact ⟨rfl, rfl⟩
  | cons e l ih =>
    exact ⟨ih.1.trans (rememberEntry_inst e s), ih.2.trans (rememberEntry_decision e)⟩

theorem joinWishes_lookup {passive wishes : Table K ℕ} {q : K} {v : ℕ}
    (h : (joinWishes passive wishes).lookup q = some v) :
    wishes.lookup q = some v ∨ passive.lookup q = some v := by
  unfold joinWishes at h
  have hkeys : ∀ q ∈ passive.keys, ∃ v, passive.lookup q = some v := fun q hq =>
    Option.isSome_iff_exists.mp (AList.lookup_isSome.mpr hq)
  generalize passive.keys = l at h hkeys
  induction l generalizing wishes with
  | nil => exact .inl h
  | cons k l ih =>
    rw [List.foldl_cons] at h
    rcases ih h (fun q hq => hkeys q (List.mem_cons_of_mem _ hq)) with hw | hp
    · by_cases hq : q = k
      · subst hq
        obtain ⟨u, hu⟩ := hkeys q List.mem_cons_self
        rw [AList.lookup_insert, hu, Option.getD_some, Option.some.injEq] at hw
        cases hl : wishes.lookup q with
        | none =>
          rw [hl, Option.getD_none, Nat.zero_max] at hw
          exact .inr (hu.trans (congrArg some hw))
        | some w =>
          rw [hl, Option.getD_some] at hw
          rcases le_total w u with hle | hle
          · rw [max_eq_right hle] at hw
            exact .inr (hu.trans (congrArg some hw))
          · rw [max_eq_left hle] at hw
            exact .inl (congrArg some hw)
      · rw [AList.lookup_insert_ne hq] at hw
        exact .inl hw
    · exact .inr hp

theorem startOrKeep_steps (hd : s.decision = none) (hJ : s.inst = none → J.mayStart) :
    Steps (TargetStep cfg J) s [] { s with inst := some (s.inst.getD {}) } := by
  cases hi : s.inst with
  | none => exact .single (.start hi hd (hJ hi))
  | some i =>
    have hs : ({ s with inst := some ((some i).getD {}) } : TargetState S cfg.committee target) =
        s := by
      rw [Option.getD_some, ← hi]
    rw [hs]
    exact .refl s

omit [Inhabited D] in
theorem mem_foldl_candidates {accepted l : List (ResolutionEntry K D)}
    (h : e ∈ accepted.foldl (fun l e => if e ∈ l then l else l ++ [e]) l) :
    e ∈ l ∨ e ∈ accepted := by
  induction accepted generalizing l with
  | nil => exact .inl h
  | cons a accepted ih =>
    rw [List.foldl_cons] at h
    rcases ih h with hl | ha
    · split at hl
      · exact .inl hl
      · rcases List.mem_append.mp hl with hl | hl
        · exact .inl hl
        · exact .inr (List.mem_singleton.mp hl ▸ List.mem_cons_self)
    · exact .inr (List.mem_cons_of_mem _ ha)

theorem adopt_steps (hi : s.inst = some i)
    (hl : ∀ e ∈ l, validEntry cfg.committee target e = true ∧ valueDigest S e ∈ s.values) :
    Steps (TargetStep cfg J) s []
      { s with
        inst := some { i with wishes := joinWishes s.passiveWishes i.wishes, candidates := l }
        passiveWishes := ∅ } :=
  have hcand : TargetStep cfg J s [] { s with inst := some { i with candidates := l } } :=
    .candidates l hi hl
  have hjoin : TargetStep cfg J { s with inst := some { i with candidates := l } } [] _ :=
    .join rfl fun _ _ => joinWishes_lookup
  Steps.silent hcand (.single hjoin)

theorem updateCandidates_runs (fuel : ℕ) {candidates : List (ResolutionEntry K D)}
    (hf : s.Filed) (hd : s.decision = none) (hstart : s.inst = none → J.mayStart)
    (hJ : ∀ e ∈ candidates, J.value e) :
    Handler.FollowsAt (TargetStep cfg J) (updateCandidates cfg fuel candidates) s := by
  unfold Handler.FollowsAt updateCandidates
  dsimp only
  have hopen : s.inst.isSome ∨ J.mayStart := by
    cases hi : s.inst with
    | none => exact .inr (hstart hi)
    | some i => exact .inl rfl
  have hall := rememberAll_steps hJ hopen
  have hknown := fun e he hv => @rememberAll_retained K D _ _ _ S target cfg s candidates e he hv
  obtain ⟨hinst, hdec⟩ := rememberAll_inst (s := s) candidates
  generalize candidates.foldl (fun s e => (s.rememberEntry e).2) s = t at hall hknown hinst hdec
  split
  · exact hall
  have hft := filed_of_steps hall hf
  have hbegin := startOrKeep_steps (hdec.trans hd) fun h => hstart (hinst.symm.trans h)
  have hft' := filed_of_steps hbegin hft
  have hcand : ∀ e ∈ ((candidates.filter (validEntry cfg.committee target)).foldl
      (fun l e => if e ∈ l then l else l ++ [e]) (t.inst.getD {}).candidates).insertionSort
        (fun a b => canonicalEntryLe cfg a b = true),
      validEntry cfg.committee target e = true ∧ valueDigest S e ∈ t.values := by
    intro e he
    rcases mem_foldl_candidates ((List.mem_insertionSort _).mp he) with hold | hnew
    · exact (hft'.inst _ rfl).candidates e hold
    · exact ⟨List.of_mem_filter hnew, hknown e (List.mem_of_mem_filter hnew)
        (List.of_mem_filter hnew)⟩
  generalize ((candidates.filter (validEntry cfg.committee target)).foldl
    (fun l e => if e ∈ l then l else l ++ [e]) (t.inst.getD {}).candidates).insertionSort
      (fun a b => canonicalEntryLe cfg a b = true) = l at hcand ⊢
  generalize t.inst.getD {} = i at hbegin ⊢
  have hadopt := @adopt_steps K D _ _ _ S target cfg J { t with inst := some i } i l rfl hcand
  have hpre := Steps.silentTrans hall (Steps.silentTrans hbegin hadopt)
  have hcurrent : Runs J (fun s => tryPrimaryPropose cfg s.currentView s :
      TargetHandler S cfg target) := by
    refine Runs.of_followsAt fun s hs => ?_
    unfold Handler.FollowsAt
    exact steps_inner (tryPrimaryPropose_inner s.currentView s hs).1
  have htail := Handler.FollowsIn.seq (raiseFirst_runs fuel) hcurrent
  exact Steps.silentTrans hpre (htail _ (filed_of_steps hpre hf)).1

theorem activateWithLocalTerminal_runs (fuel : ℕ) (hf : s.Filed) (hd : s.decision = none)
    (hi : s.inst = none) (hJ : J.mayStart) :
    Handler.FollowsAt (TargetStep cfg J) (activateWithLocalTerminal cfg fuel) s := by
  have hstart : TargetStep cfg J s [] _ := .start hi hd hJ
  have hjoin := @TargetStep.join K D _ _ _ S target cfg J { s with inst := some {} } {}
    s.passiveWishes rfl fun _ _ => .inr
  have hpre := Steps.silent hstart (.single hjoin)
  exact Steps.silentTrans hpre (raiseFirst_runs fuel _ (filed_of_steps hpre hf)).1

/-! ### Catch-up -/

omit [LinearOrder K] [LinearOrder D] [Inhabited D] in
theorem toList_map_append_sublist {β : Type} (o : Option β)
    (f : β → DirectReplayKind × DirectResolutionEffect K D) {kind : DirectReplayKind}
    {l kinds : List DirectReplayKind} (hf : ∀ b, (f b).1 = kind) (h : l.Sublist kinds) :
    ((o.toList.map f).map Prod.fst ++ l).Sublist (kind :: kinds) := by
  cases o with
  | none => exact h.cons _
  | some b =>
    rw [Option.toList_some, List.map_singleton, List.map_singleton, hf]
    exact h.cons_cons kind

/-- The kinds of the own sends, in the order in which they are replayed. -/
def replayKinds : List DirectReplayKind :=
  [.suggest, .proof, .proposal, .statement .echo, .statement .key1, .statement .key2,
    .statement .key3, .statement .lock, .witness]

theorem ownSends_kinds (requester : K) (view : ℕ) (st : DirectViewState K D) :
    ((s.ownSends cfg requester view st).map Prod.fst).Sublist replayKinds := by
  have hrest : ∀ l : List DirectReplayKind, l.Sublist replayKinds.tail →
      ((if requester = resolutionLeader cfg target view then
        (st.suggestions.lookup cfg.name).toList.map fun m =>
          (DirectReplayKind.suggest, DirectResolutionEffect.suggestTo requester m) else
            []).map Prod.fst ++ l).Sublist replayKinds := by
    intro l hl
    split
    · exact toList_map_append_sublist _ _ (fun _ => rfl) hl
    · exact hl.cons _
  unfold ownSends
  simp only [List.map_append, List.flatMap_cons, List.flatMap_nil, List.append_nil,
    List.append_assoc]
  refine hrest _ ?_
  unfold replayKinds
  iterate 7 refine toList_map_append_sublist _ _ (fun _ => rfl) ?_
  rw [← List.append_nil (List.map Prod.fst _)]
  exact toList_map_append_sublist _ _ (fun _ => rfl) (List.Sublist.refl [])

theorem ownSends_spec (hf : s.Filed) (hi : s.inst = some i) {view : ℕ} {st : DirectViewState K D}
    (hl : i.views.lookup view = some st) (requester : K) :
    (∀ x ∈ s.ownSends cfg requester view st, x.2.replayKey = some (requester, view, x.1) ∧
        x.2.targetOf = some target) ∧
      ((s.ownSends cfg requester view st).map Prod.fst).Nodup := by
  have hst := (hf.inst i hi).views view st hl
  refine ⟨fun x hx => ?_, ?_⟩
  · simp only [ownSends, List.mem_append] at hx
    rcases hx with (((hx | hx) | hx) | hx) | hx
    · split at hx
      · obtain ⟨m, hm, rfl⟩ := List.mem_map.mp hx
        obtain ⟨ht, hv⟩ := hst.suggestions _ m (Option.mem_toList.mp hm)
        simp only [DirectResolutionEffect.replayKey, DirectResolutionEffect.targetOf, ht, hv,
          and_self]
      · cases hx
    · obtain ⟨m, hm, rfl⟩ := List.mem_map.mp hx
      obtain ⟨ht, hv⟩ := hst.proofs _ m (Option.mem_toList.mp hm)
      simp only [DirectResolutionEffect.replayKey, DirectResolutionEffect.targetOf, ht, hv,
        and_self]
    · obtain ⟨m, hm, rfl⟩ := List.mem_map.mp hx
      have hp := (Option.mem_filter_iff.mp (Option.mem_toList.mp hm)).1
      obtain ⟨ht, hv⟩ := hst.proposal m hp
      simp only [DirectResolutionEffect.replayKey, DirectResolutionEffect.targetOf, ht, hv,
        and_self]
    · obtain ⟨phase, -, hx⟩ := List.mem_flatMap.mp hx
      obtain ⟨r, -, rfl⟩ := List.mem_map.mp hx
      exact ⟨rfl, rfl⟩
    · obtain ⟨value, hvalue, rfl⟩ := List.mem_map.mp hx
      obtain ⟨e, he⟩ := entry_of_mem_values (hst.backing value (Option.mem_toList.mp hvalue))
      rw [he]
      exact ⟨rfl, rfl⟩
  · exact List.Nodup.sublist (ownSends_kinds requester view st) (by decide)

theorem replayView_followsAt (hf : s.Filed) (requester : K) {view : ℕ}
    (hv : (s.viewState view).isSome) :
    Handler.FollowsAt (TargetStep cfg J) (replayView cfg requester view) s := by
  obtain ⟨st, hst⟩ := Option.isSome_iff_exists.mp hv
  obtain ⟨i, hi, hl⟩ := viewState_eq hst
  obtain ⟨hkeys, hnodup⟩ := @ownSends_spec K D _ _ _ S target cfg s i hf hi view st hl requester
  unfold Handler.FollowsAt replayView
  rw [hst]
  dsimp only
  rw [mapView_eq _ hi hl]
  refine .single (.replay hi hl (fun x hx => ?_) ?_)
  · obtain ⟨hmem, hnew⟩ := List.mem_filter.mp hx
    exact ⟨(hkeys x hmem).1, (hkeys x hmem).2, of_decide_eq_true hnew⟩
  · exact hnodup.sublist ((List.filter_sublist).map _)

theorem replayView_viewState (requester : K) (view v : ℕ) (hv : (s.viewState v).isSome) :
    ((replayView cfg requester view s).1.viewState v).isSome := by
  unfold replayView
  split
  · exact hv
  · next st hst =>
    obtain ⟨i, hi, hl⟩ := viewState_eq hst
    dsimp only
    rw [mapView_eq _ hi hl]
    unfold viewState at hv ⊢
    rw [hi] at hv
    by_cases hvv : v = view
    · subst hvv
      simp
    · simpa [AList.lookup_insert_ne hvv] using hv

theorem replayViews_runs (requester : K) {views : List ℕ} (hf : s.Filed)
    (hv : ∀ v ∈ views, (s.viewState v).isSome) :
    Handler.FollowsAt (TargetStep cfg J)
      (Handler.forEach views (replayView cfg requester)) s := by
  induction views generalizing s with
  | nil => exact .refl s
  | cons v views ih =>
    have hstep : Handler.FollowsAt (TargetStep cfg J) (replayView cfg requester v) s :=
      replayView_followsAt hf requester (hv v List.mem_cons_self)
    exact hstep.seq (ih (filed_of_steps hstep hf) fun u hu =>
      replayView_viewState requester v u (hv u (List.mem_cons_of_mem _ hu)))

theorem replayWish_runs (requester : K) :
    Runs J (replayWish cfg requester : TargetHandler S cfg target) := by
  refine .of_followsAt fun s _ => ?_
  unfold Handler.FollowsAt replayWish
  split
  · exact .refl s
  next i hi =>
  split
  · next hlt => exact .single (.replayWish hi hlt)
  · exact .refl s

theorem replayDone_runs (requester : K) :
    Runs J (replayDone cfg requester : TargetHandler S cfg target) := by
  refine .of_followsAt fun s hf => ?_
  unfold Handler.FollowsAt replayDone
  split
  · exact .refl s
  next value hvalue =>
  split
  · exact .refl s
  · next hn =>
    obtain ⟨i, hi, hdone⟩ := Option.bind_eq_some_iff.mp hvalue
    obtain ⟨e, he⟩ := entry_of_mem_values ((hf.inst i hi).doneSent value hdone)
    rw [he]
    exact .single (.replayDone value e (.inl (by rw [hi]; rfl)) hn)

theorem replayProgressTo_runs (requester : K) (through : ℕ) :
    Runs J (replayProgressTo cfg requester through : TargetHandler S cfg target) := by
  refine Handler.FollowsIn.seq (Handler.FollowsIn.seq (replayWish_runs requester) ?_)
    (replayDone_runs requester)
  refine Runs.of_followsAt fun s hf => replayViews_runs requester hf fun v hv => ?_
  have hmem := List.mem_of_mem_filter hv
  unfold viewState
  cases hi : s.inst with
  | none =>
    rw [hi] at hmem
    cases hmem
  | some i =>
    rw [hi] at hmem
    exact AList.lookup_isSome.mpr (Table.mem_sortedKeys.mp hmem)

theorem onWish_runs (fuel : ℕ) {m : DirectResolutionWish K} (hf : s.Filed)
    (hstart : s.inst = none → s.decision = none → J.mayStart) (hJ : J.wish m.sender m.view) :
    Handler.FollowsAt (TargetStep cfg J) (onWish cfg fuel m) s := by
  have htail : Runs J ((recheckWishes cfg fuel).seq (replayProgressTo cfg m.sender m.view) :
      TargetHandler S cfg target) :=
    (recheckWishes_runs fuel).seq (replayProgressTo_runs m.sender m.view)
  unfold Handler.FollowsAt onWish
  split
  · next value e hd =>
    split
    · exact .refl s
    · next hn => exact .single (.replayDone value e (.inr (by rw [hd]; rfl)) hn)
  · next hd hi =>
    split
    · exact .refl s
    dsimp only
    split
    · exact .single (.passive hJ)
    · have hpassive : TargetStep cfg J s [] _ := .passive hJ
      have hbegin : TargetStep cfg J _ [] _ := .start (s := { s with
        passiveWishes := s.passiveWishes.insert m.sender m.view }) hi hd (hstart hi hd)
      have hjoin := @TargetStep.join K D _ _ _ S target cfg J
        { s with inst := some {}, passiveWishes := s.passiveWishes.insert m.sender m.view } {}
        (s.passiveWishes.insert m.sender m.view) rfl fun _ _ => .inr
      have hpre := Steps.silent hpassive (Steps.silent hbegin (.single hjoin))
      exact Steps.silentTrans hpre (htail _ (filed_of_steps hpre hf)).1
  · next i hd hi =>
    split
    · exact .refl s
    · have hpre : Steps (TargetStep cfg J) s [] _ := .single (.wish hi hJ)
      exact Steps.silentTrans hpre (htail _ (filed_of_steps hpre hf)).1

end TargetState

end Vantage
