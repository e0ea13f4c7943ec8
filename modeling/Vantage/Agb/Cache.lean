import Vantage.Agb.Bodies
import Vantage.Agb.Numbering

/-!
# The cached proposals of a view

A by-value statement is canonicalised, and its proposal cached, before the engine looks whether
its sender has already been counted.

* `AgbParty.duplicate_unchanged`: a duplicate retains nothing exactly when its proposal is cached
  or never looked up, and the cache is bounded by the counted statements in every run whose
  duplicates are of that kind;
* `AgbParty.duplicate_cached`: without that, one sender fills the cache.
-/

namespace Vantage

variable {K D : Type} [LinearOrder K] [LinearOrder D] {S : Session K D}

/-- Inputs of which nothing is known. -/
def anything (S : Session K D) (view : ℕ) : Inputs S view :=
  ⟨fun _ _ => True, fun _ _ => True, fun _ => True, fun _ => True⟩

namespace ViewState

variable {view : ℕ}

/-! ### The cache and what pays for it -/

/-- One if a proposal is fixed. -/
def fixedCount (s : ViewState S view) : ℕ :=
  match s.fixed with
  | .proposal _ => 1
  | _ => 0

/-- The cache holds no more bodies than there are counted statements and fixed proposals. -/
def CacheBounded (s : ViewState S view) : Prop :=
  s.digestCache.length ≤ s.echoStatements.size + s.readyStatements.size + s.fixedCount

/-- The proposal is in the digest cache. -/
def IsCached (s : ViewState S view) (p : ProposalOut K D) : Prop :=
  ∃ b ∈ s.digestCache, b.proposal = p

theorem size_le_of_grows {s s' : ViewState S view} (h : s.toStatements.Grows s'.toStatements) :
    s.echoStatements.size ≤ s'.echoStatements.size ∧
      s.readyStatements.size ≤ s'.readyStatements.size := by
  refine ⟨Table.size_le_size fun q hq => ?_, Table.size_le_size fun q hq => ?_⟩
  · obtain ⟨st, hst⟩ := Option.isSome_iff_exists.mp hq
    rw [h.echo q st hst]
    rfl
  · obtain ⟨st, hst⟩ := Option.isSome_iff_exists.mp hq
    obtain ⟨st', hst', -⟩ := h.ready q st hst
    rw [hst']
    rfl

theorem CacheBounded.of_grows {s s' : ViewState S view} (h : s.CacheBounded)
    (hg : s.toStatements.Grows s'.toStatements) (hb : s'.bodies = s.bodies) :
    s'.CacheBounded := by
  obtain ⟨hecho, hready⟩ := size_le_of_grows hg
  obtain ⟨hf, hc⟩ := Prod.mk.inj hb
  unfold CacheBounded fixedCount at h ⊢
  rw [hf, hc]
  omega

theorem canonicalProposal_of_cached {p : ProposalOut K D} (hp : p.view = view)
    {s : ViewState S view} (h : s.IsCached p) : (s.canonicalProposal p hp).1 = s := by
  obtain ⟨b, hb, hbp⟩ := h
  unfold canonicalProposal
  split
  · rfl
  · next hnone =>
    have := List.find?_eq_none.mp hnone b hb
    simp [hbp] at this

theorem canonicalProposal_of_not_cached {p : ProposalOut K D} (hp : p.view = view)
    {s : ViewState S view} (h : ¬ s.IsCached p) :
    (s.canonicalProposal p hp).1.digestCache.length = s.digestCache.length + 1 := by
  unfold canonicalProposal
  split
  · next b hb =>
    have hproposal := List.find?_some hb
    exact absurd ⟨b, List.mem_of_find?_eq_some hb, by simpa using hproposal⟩ h
  · simp

theorem canonicalProposal_length (p : ProposalOut K D) (hp : p.view = view)
    (s : ViewState S view) :
    (s.canonicalProposal p hp).1.digestCache.length ≤ s.digestCache.length + 1 := by
  unfold canonicalProposal
  split
  · exact Nat.le_succ _
  · simp

theorem canonicalProposal_fixed (p : ProposalOut K D) (hp : p.view = view)
    (s : ViewState S view) : (s.canonicalProposal p hp).1.fixed = s.fixed := by
  unfold canonicalProposal
  split <;> rfl

/-- A statement of a sender that has not been counted pays for its body; that of another sender
must name a cached one. -/
theorem CacheBounded.onEchoStatement {cfg : Config K} {s : ViewState S view} (h : s.CacheBounded)
    (ctx : ViewCtx) {p : ProposalOut K D} (hp : p.view = view) (q : K)
    (st : EchoStatement S view) (hq : q ∈ s.echoStatements → s.IsCached p) :
    (ViewState.onEchoStatement cfg ctx q st (s.canonicalProposal p hp).1).1.CacheBounded := by
  by_cases hmem : q ∈ s.echoStatements
  · rw [canonicalProposal_of_cached hp (hq hmem)]
    unfold ViewState.onEchoStatement Statements.countEchoStatement
    rw [if_pos hmem]
    exact h
  · have hs := canonicalProposal_toStatements p hp s
    have hlen := canonicalProposal_length p hp s
    have hfix := canonicalProposal_fixed p hp s
    generalize (s.canonicalProposal p hp).1 = s₁ at hs hlen hfix ⊢
    unfold ViewState.onEchoStatement Statements.countEchoStatement
    rw [hs, if_neg hmem]
    refine CacheBounded.of_grows ?_ (steps_grows (I := anything S view)
      (recheckAfterEcho_follows ctx _)) (recheckAfterEcho_keeps ctx _)
    have hsize : (Statements.enterEcho cfg q st s.toStatements).echoStatements.size =
        s.echoStatements.size + 1 := by
      rw [Statements.enterEcho_echoStatements]
      exact Table.size_insert_of_notMem st hmem
    have hready : (Statements.enterEcho cfg q st s.toStatements).readyStatements =
        s.readyStatements := by cases st <;> rfl
    unfold CacheBounded fixedCount at h ⊢
    dsimp only
    rw [hsize, hready, hfix]
    omega

theorem CacheBounded.onReadyStatement {cfg : Config K} {s : ViewState S view} (h : s.CacheBounded)
    {p : ProposalOut K D} (hp : p.view = view) (q : K) (b : Body S view) (grade : ReadyGrade)
    (hq : q ∈ s.readyStatements → s.IsCached p) :
    (ViewState.onReadyStatement cfg q b grade (s.canonicalProposal p hp).1).1.CacheBounded := by
  by_cases hmem : q ∈ s.readyStatements
  · rw [canonicalProposal_of_cached hp (hq hmem)]
    have hI : (anything S view).ready q (.graded b grade) := trivial
    exact h.of_grows (steps_grows (onReadyStatement_follows hI s))
      (onReadyStatement_keeps q b grade s)
  · have hs := canonicalProposal_toStatements p hp s
    have hlen := canonicalProposal_length p hp s
    have hfix := canonicalProposal_fixed p hp s
    generalize (s.canonicalProposal p hp).1 = s₁ at hs hlen hfix ⊢
    have hcount : Statements.countReadyStatement cfg q (.graded b grade) s.toStatements =
        some (s.enterReady cfg q (.graded b grade)) := by
      unfold Statements.countReadyStatement
      rw [AList.lookup_eq_none.mpr hmem]
    unfold ViewState.onReadyStatement
    rw [hs, hcount]
    refine CacheBounded.of_grows ?_ (steps_grows (I := anything S view)
      (recheckCompletionAndDirect_follows b.digest _)) (recheckCompletionAndDirect_keeps b.digest _)
    have hsize :
        (Statements.enterReady cfg q (.graded b grade) s.toStatements).readyStatements.size =
          s.readyStatements.size + 1 := by
      rw [Statements.enterReady_readyStatements]
      exact Table.size_insert_of_notMem _ hmem
    unfold CacheBounded fixedCount at h ⊢
    dsimp only
    rw [hsize, hfix]
    change _ ≤ s.echoStatements.size + _ + _
    omega

end ViewState

/-! ### The engine -/

namespace AgbEngine

variable {cfg : Config K} {e : AgbEngine S}

/-- The caches of all views are bounded. -/
def CacheBounded (e : AgbEngine S) : Prop := ∀ u, (e.state u).CacheBounded

theorem CacheBounded.of_keeps {c : AgbCall K D} (h : e.CacheBounded) (hc : c.isPlain = true) :
    (e.call cfg c).1.CacheBounded := by
  have hallowed : c.Allowed (anything S) := by
    cases c <;> trivial
  have hgc : ∀ floor, c ≠ .gcBelow floor := by
    rintro floor rfl
    cases hc
  intro u
  exact (h u).of_grows (steps_grows (call_follows_allowed hallowed hgc e) u)
    (congrFun (call_keeps hc e) u)

omit [LinearOrder K] [LinearOrder D] in
theorem CacheBounded.setState (h : e.CacheBounded) {view : ℕ} {s : ViewState S view}
    (hs : s.CacheBounded) : (e.setState view s).CacheBounded := by
  intro u
  by_cases hu : u = view
  · subst hu
    rwa [state_setState_self]
  · rw [state_setState_ne e s hu]
    exact h u

omit [LinearOrder K] [LinearOrder D] in
theorem CacheBounded.onView (h : e.CacheBounded) {view : ℕ}
    {k : ViewCtx → Handler (ViewState S view) (Effect K D)}
    (hk : e.isPruned view = false → ∀ ctx, (k ctx (e.state view)).1.CacheBounded) :
    (onView view k e).1.CacheBounded := by
  unfold AgbEngine.onView
  split
  · exact h
  · next hlive => exact h.setState (hk (Bool.eq_false_of_not_eq_true hlive) _)

theorem CacheBounded.recheckGate (h : e.CacheBounded) (lm : Lanes K D) (view : ℕ) :
    (recheckGate cfg lm view e).1.CacheBounded := fun u =>
  (h u).of_grows (steps_grows (I := anything S) (recheckGate_follows lm view e) u)
    (congrFun (recheckGate_keeps lm view e) u)

theorem CacheBounded.onProposeAny (h : e.CacheBounded) (lm : Lanes K D) (sender : K)
    (p : ProposalOut K D) (now : ℕ) : (onProposeAny cfg lm sender p now e).1.CacheBounded := by
  have hv := h p.view
  unfold AgbEngine.onProposeAny
  dsimp only
  split
  · exact h
  split
  · exact h.setState hv
  split
  · next hunset =>
    have hfix : ViewState.fixedCount (e.state p.view) = 0 := by
      unfold ViewState.fixedCount
      rw [hunset]
    unfold ViewState.CacheBounded at hv
    rw [hfix] at hv
    split
    · refine CacheBounded.recheckGate (h.setState ?_) lm p.view
      generalize hs₀ : ({ e.state p.view with
        firstProposalInstant := some ((e.state p.view).firstProposalInstant.getD now) } :
          ViewState S p.view) = s₀
      have hlen := ViewState.canonicalProposal_length p rfl s₀
      have hst := ViewState.canonicalProposal_toStatements p rfl s₀
      unfold ViewState.CacheBounded ViewState.fixedCount
      dsimp only
      rw [hst]
      subst hs₀
      dsimp only at hlen ⊢
      omega
    · refine h.setState ?_
      unfold ViewState.CacheBounded ViewState.fixedCount
      exact hv
  · exact h.setState hv

omit [LinearOrder K] [LinearOrder D] in
theorem state_gcBelow_cases (floor : ℕ) (e : AgbEngine S) (u : ℕ) :
    (e.gcBelow floor).state u = e.state u ∨ (e.gcBelow floor).state u = {} := by
  unfold gcBelow
  split
  · exact .inl rfl
  · unfold state
    dsimp only
    rw [Table.lookup_eraseAll]
    split
    · exact .inr rfl
    · exact .inl rfl

end AgbEngine

/-! ### Duplicates -/

/-- A statement of a sender whose statement of that stage is already counted for the view, and
which does not refine it. -/
def AgbCall.Duplicate (e : AgbEngine S) : AgbCall K D → Prop
  | .echo m => m.sender ∈ (e.state m.proposalOut.view).echoStatements
  | .echoSkip view q => q ∈ (e.state view).echoStatements
  | .ready m => ∃ old, (e.state m.proposalOut.view).readyStatements.lookup m.sender = some old ∧
      Statements.isRefinement old (.graded (AgbEngine.readyBody S m) m.grade) = false
  | .noready view q => q ∈ (e.state view).readyStatements
  | _ => False

/-- A by-value statement that is canonicalised (its view is live, and an echo has a grade of at most
1), of a sender whose statement of that stage is already counted, names a proposal that is already
cached. -/
def AgbCall.Cached (e : AgbEngine S) : AgbCall K D → Prop
  | .echo m => e.isPruned m.proposalOut.view = false → m.grade ≤ 1 →
      m.sender ∈ (e.state m.proposalOut.view).echoStatements →
      (e.state m.proposalOut.view).IsCached m.proposalOut
  | .ready m => e.isPruned m.proposalOut.view = false →
      m.sender ∈ (e.state m.proposalOut.view).readyStatements →
      (e.state m.proposalOut.view).IsCached m.proposalOut
  | _ => True

namespace AgbEngine

variable {cfg : Config K} {e : AgbEngine S}

/-- The states of all views and the counters of the engine are the same. -/
def Same (e e' : AgbEngine S) : Prop :=
  (∀ u, e'.state u = e.state u) ∧ e'.minLiveView = e.minLiveView ∧
    e'.recheckCursor = e.recheckCursor

omit [LinearOrder K] [LinearOrder D] in
theorem same_setState (e : AgbEngine S) (view : ℕ) : e.Same (e.setState view (e.state view)) := by
  refine ⟨fun u => ?_, rfl, rfl⟩
  by_cases hu : u = view
  · subst hu
    rw [state_setState_self]
  · rw [state_setState_ne e _ hu]

omit [LinearOrder K] [LinearOrder D] in
theorem onView_same {view : ℕ} {h : ViewCtx → Handler (ViewState S view) (Effect K D)}
    (hh : e.isPruned view = false → ∀ ctx, h ctx (e.state view) = (e.state view, [])) :
    e.Same (onView view h e).1 ∧ (onView view h e).2 = [] := by
  unfold onView
  split
  · exact ⟨⟨fun _ => rfl, rfl, rfl⟩, rfl⟩
  · next hlive =>
    rw [hh (Bool.eq_false_of_not_eq_true hlive)]
    exact ⟨same_setState e view, rfl⟩

theorem countReadyStatement_of_duplicate {view : ℕ} {s : Statements S view} {q : K}
    {old st : ReadyStatement S view} (h : s.readyStatements.lookup q = some old)
    (hno : Statements.isRefinement old st = false) : s.countReadyStatement cfg q st = none := by
  unfold Statements.countReadyStatement
  rw [h]
  dsimp only
  rw [hno, if_neg Bool.false_ne_true]

/-- A handler that only canonicalises the proposal, as the two do on a duplicate, changes nothing
exactly when the view is pruned or the proposal is cached. -/
theorem onView_canonicalProposal_same_iff {p : ProposalOut K D}
    {h : ViewCtx → Handler (ViewState S p.view) (Effect K D)}
    (hh : ∀ ctx, h ctx (e.state p.view) = (((e.state p.view).canonicalProposal p rfl).1, [])) :
    (e.Same (onView p.view h e).1 ∧ (onView p.view h e).2 = []) ↔
      (e.isPruned p.view = false → (e.state p.view).IsCached p) := by
  constructor
  · rintro ⟨⟨hsame, -⟩, -⟩ hlive
    by_contra hcached
    have hlen := ViewState.canonicalProposal_of_not_cached (S := S) rfl hcached
    have hview := hsame p.view
    unfold onView at hview
    rw [if_neg (Bool.eq_false_iff.mp hlive), hh, state_setState_self] at hview
    dsimp only at hview
    rw [hview] at hlen
    exact Nat.ne_of_lt (Nat.lt_succ_self _) hlen
  · refine fun hcached => onView_same fun hlive ctx => ?_
    rw [hh, ViewState.canonicalProposal_of_cached rfl (hcached hlive)]

theorem onEchoAny_same_iff {m : EchoOut K D}
    (hd : m.sender ∈ (e.state m.proposalOut.view).echoStatements) :
    (e.Same (onEchoAny cfg m e).1 ∧ (onEchoAny cfg m e).2 = []) ↔ AgbCall.Cached e (.echo m) := by
  unfold onEchoAny
  split
  · next hg =>
    rw [onView_canonicalProposal_same_iff fun ctx => ?_]
    · exact ⟨fun h hlive _ _ => h hlive, fun h hlive => h hlive hg hd⟩
    · dsimp only
      unfold ViewState.onEchoStatement Statements.countEchoStatement
      rw [ViewState.canonicalProposal_toStatements, if_pos hd]
  · next hg =>
    exact iff_of_true ⟨⟨fun _ => rfl, rfl, rfl⟩, rfl⟩ fun _ hgrade => absurd hgrade hg

theorem onReadyAny_same_iff {m : ReadyOut K D} (hd : AgbCall.Duplicate e (.ready m)) :
    (e.Same (onReadyAny cfg m e).1 ∧ (onReadyAny cfg m e).2 = []) ↔
      AgbCall.Cached e (.ready m) := by
  obtain ⟨old, hold, hno⟩ := hd
  have hmem : m.sender ∈ (e.state m.proposalOut.view).readyStatements :=
    AList.lookup_isSome.mp (by rw [hold]; rfl)
  unfold onReadyAny
  rw [onView_canonicalProposal_same_iff fun ctx => ?_]
  · exact ⟨fun h hlive _ => h hlive, fun h hlive => h hlive hmem⟩
  · have hbody : ((e.state m.proposalOut.view).canonicalProposal m.proposalOut rfl).2 =
        readyBody S m :=
      Body.ext_proposal (ViewState.canonicalProposal_proposal m.proposalOut rfl _)
    dsimp only
    unfold ViewState.onReadyStatement
    rw [hbody, ViewState.canonicalProposal_toStatements,
      countReadyStatement_of_duplicate hold hno]

omit [LinearOrder D] in
theorem claimEffects_of_counted {view grade : ℕ} {q : K} {formed : Bool}
    {avail : Option AvailClaim} {refs : List (BlockRef K D)}
    (h : q ∈ (e.state view).echoStatements) :
    e.claimEffects cfg view grade q formed avail refs = [] :=
  if_neg fun hc => hc.2.2.1 h

/-- A duplicate leaves the engine as it was exactly when its proposal need not be cached anew. -/
theorem call_same_iff {c : AgbCall K D} (hd : c.Duplicate e) :
    (e.Same (e.call cfg c).1 ∧ (e.call cfg c).2 = []) ↔ c.Cached e := by
  cases c with
  | echo m =>
    rw [← onEchoAny_same_iff hd]
    -- the availability claims of the message are guarded by the same test, so none is left
    have happend : ∀ effects : List (Effect K D), [] ++ effects = [] ↔ effects = [] := by simp
    cases m with
    | single m =>
      refine and_congr_right fun _ => ?_
      rw [← happend]
      exact iff_of_eq (congrArg (fun l => l ++ _ = []) (claimEffects_of_counted hd))
    | batch m =>
      refine and_congr_right fun _ => ?_
      rw [← happend]
      exact iff_of_eq (congrArg (fun l => l ++ _ = []) (claimEffects_of_counted hd))
  | echoSkip view q =>
    refine iff_of_true (onView_same fun _ ctx => ?_) trivial
    have hmem : q ∈ (e.state view).echoStatements := hd
    unfold ViewState.onEchoSkip Statements.countEchoStatement
    rw [if_pos hmem]
  | ready m =>
    rw [← onReadyAny_same_iff hd]
    cases m <;> exact Iff.rfl
  | noready view q =>
    refine iff_of_true (onView_same fun _ ctx => ?_) trivial
    obtain ⟨old, hold⟩ := Option.isSome_iff_exists.mp (AList.lookup_isSome.mpr hd)
    have hno : Statements.isRefinement old (.noReady : ReadyStatement S view) = false := by
      cases old with
      | noReady => rfl
      | graded b grade => cases grade <;> rfl
    unfold ViewState.onNoready ViewState.mapStatements
    dsimp only
    rw [countReadyStatement_of_duplicate hold hno]
    rfl
  | _ => exact hd.elim

theorem CacheBounded.call {c : AgbCall K D} (h : e.CacheBounded) (hc : c.Cached e) :
    (e.call cfg c).1.CacheBounded := by
  by_cases hplain : c.isPlain = true
  · exact h.of_keeps hplain
  cases c with
  | propose lm sender p now =>
    cases p with
    | single p => exact h.onProposeAny lm sender _ now
    | batch p => exact h.onProposeAny lm sender _ now
  | echo m =>
    have hm : (onEchoAny cfg m e).1.CacheBounded := by
      unfold onEchoAny
      split
      · next hg =>
        exact h.onView fun hlive ctx => (h _).onEchoStatement ctx rfl m.sender _ (hc hlive hg)
      · exact h
    cases m with
    | single m => exact hm
    | batch m => exact hm
  | ready m =>
    have hm : (onReadyAny cfg m e).1.CacheBounded :=
      h.onView fun hlive ctx => (h _).onReadyStatement rfl m.sender _ m.grade (hc hlive)
    cases m with
    | single m => exact hm
    | batch m => exact hm
  | gcBelow floor =>
    intro u
    change ((e.gcBelow floor).state u).CacheBounded
    rcases state_gcBelow_cases floor e u with hu | hu <;> rw [hu]
    · exact h u
    · exact Nat.zero_le _
  | _ => exact absurd rfl hplain

end AgbEngine

namespace AgbParty

variable {cfg : Config K}

/-- In a run, every by-value statement of a sender that is already counted names a cached
proposal. -/
def Cached (cfg : Config K) : List (AgbCall K D) → AgbParty S → Prop
  | [], _ => True
  | c :: cs, p => c.Cached p.engine ∧ Cached cfg cs (p.take cfg c)

theorem cacheBounded_run {cs : List (AgbCall K D)} {p : AgbParty S} (hcs : p.Cached cfg cs)
    (h : p.engine.CacheBounded) : (p.run cfg cs).engine.CacheBounded := by
  induction cs generalizing p with
  | nil => exact h
  | cons c cs ih => exact ih hcs.2 (AgbEngine.CacheBounded.call h hcs.1)

/-- In any state of the engine a duplicate retains nothing exactly when its proposal is cached or
not canonicalised at all; and in every run whose duplicates are of that kind, a view caches at most
one proposal for each counted statement and one for the fixed proposal. -/
theorem duplicate_unchanged (cfg : Config K) :
    (∀ (e : AgbEngine S) (c : AgbCall K D), c.Duplicate e →
      ((e.Same (e.call cfg c).1 ∧ (e.call cfg c).2 = []) ↔ c.Cached e)) ∧
    ∀ cs : List (AgbCall K D), ({} : AgbParty S).Cached cfg cs → ∀ view,
      let s := (({} : AgbParty S).run cfg cs).engine.state view
      s.digestCache.length ≤ s.echoStatements.size + s.readyStatements.size + s.fixedCount :=
  ⟨fun _ _ hd => AgbEngine.call_same_iff hd, fun _ hcs view =>
    cacheBounded_run hcs (fun _ => Nat.zero_le _) view⟩

/-- Party 1 of four echoes `n` different proposals for view 1. -/
def repeatedEchoes (n : ℕ) : List (AgbCall (Fin 4) ℕ) :=
  (List.range n).map fun i => .echo (.single ⟨⟨1, [⟨0, i + 1, i⟩], [], none⟩, 1, 1, none, none⟩)

/-- The same proposal twice: the second echo is a duplicate, and its proposal is cached. -/
theorem duplicate_unchanged_repeatedEchoes :
    let cs := repeatedEchoes 1 ++ repeatedEchoes 1
    let p := ({} : AgbParty (.numbered 4)).run (.numbered 4 0) cs
    ({} : AgbParty (.numbered 4)).Cached (.numbered 4 0) cs ∧
      (p.engine.state 1).digestCache.length ≤ (p.engine.state 1).echoStatements.size +
        (p.engine.state 1).readyStatements.size + (p.engine.state 1).fixedCount := by
  have hcs : ({} : AgbParty (.numbered 4)).Cached (.numbered 4 0)
      (repeatedEchoes 1 ++ repeatedEchoes 1) := by
    refine ⟨fun _ _ h => absurd h (by decide +kernel), fun _ _ _ => ?_, trivial⟩
    exact ⟨_, List.mem_singleton.mpr rfl, rfl⟩
  exact ⟨hcs, (duplicate_unchanged (.numbered 4 0)).2 _ hcs 1⟩

/-- After its first echo, party 1 repeats itself with two other proposals. Each of these calls is a
duplicate, and each adds a proposal to the cache: three are cached for one counted statement. -/
theorem duplicate_cached :
    let p (n : ℕ) := ({} : AgbParty (.numbered 4)).run (.numbered 4 0) (repeatedEchoes n)
    ((∀ c ∈ (repeatedEchoes 3).drop 1, AgbCall.Duplicate (p 1).engine c) ∧
      ((p 1).engine.state 1).digestCache.length = 1) ∧
    ((p 3).engine.state 1).digestCache.length = 3 ∧
      ((p 3).engine.state 1).echoStatements.size = 1 ∧
      ((p 3).engine.state 1).readyStatements.size = 0 ∧
      ((p 3).engine.state 1).fixedCount = 0 := by
  refine ⟨⟨?_, by decide +kernel⟩, by decide +kernel⟩
  have hmem : (1 : Fin 4) ∈ ((({} : AgbParty (.numbered 4)).run (.numbered 4 0)
      (repeatedEchoes 1)).engine.state 1).echoStatements := by decide +kernel
  intro c hc
  obtain ⟨i, -, rfl⟩ := List.mem_map.mp (List.mem_of_mem_drop hc)
  exact hmem

end AgbParty

end Vantage
