import Vantage.Resolver.Entry

/-!
# What the parties have said about one target

A `History` is what one party has sent about a target, and `inputsOf` turns the histories of
all parties into what may reach one of them.
-/

namespace Vantage

variable {K D : Type} {x : DirectResolutionEffect K D} {r : ℕ} {ph : DirectResolutionPhase}

/-- What one party has sent about one target. -/
@[ext] structure History (K D : Type) where
  statement : ℕ → DirectResolutionPhase → StatementRecord D → Prop
  /-- The view, the first key with its value, and the previous first key. -/
  proof : ℕ → ℕ → D → ℕ → Prop
  witness : ℕ → D → Prop
  done : D → Prop
  request : ℕ → D → ResolutionEntry K D → Bool → Prop
  decision : ResolutionEntry K D → Prop

namespace DirectResolutionEffect

@[simp] def statement? : DirectResolutionEffect K D → Option (DirectResolutionStatement K D)
  | .broadcastStatement m => some m
  | .statementTo _ m => some m
  | _ => none

@[simp] def proof? : DirectResolutionEffect K D → Option (DirectResolutionProof K D)
  | .broadcastProof m => some m
  | .proofTo _ m => some m
  | _ => none

@[simp] def witness? : DirectResolutionEffect K D → Option (DirectResolutionWitness K D)
  | .broadcastWitness m => some m
  | .witnessTo _ m => some m
  | _ => none

@[simp] def done? : DirectResolutionEffect K D → Option (DirectResolutionDone K D)
  | .broadcastDone m => some m
  | .doneTo _ m => some m
  | _ => none

@[simp] def target? : DirectResolutionEffect K D → Option ℕ
  | .broadcastProof m => some m.target
  | .proofTo _ m => some m.target
  | .broadcastWitness m => some m.target
  | .witnessTo _ m => some m.target
  | .broadcastStatement m => some m.target
  | .statementTo _ m => some m.target
  | .broadcastDone m => some m.target
  | .doneTo _ m => some m.target
  | .validateVote target .. => some target
  | .decide e => some e.targetView
  | _ => none

theorem target?_of_isQuiet (h : x.isQuiet = true) :
    x.target? = none := by
  cases x <;> first | rfl | cases h

end DirectResolutionEffect

/-- The history of a party about a target, read off its effects. -/
def history (target : ℕ) (name : K) (out : List (DirectResolutionEffect K D)) : History K D where
  statement view phase r := ∃ e ∈ out, e.statement? =
    some ⟨target, view, r.value, phase, r.proposalKeyView, r.origin, name⟩
  proof view key1View key1Value prevKey1 := ∃ e ∈ out, e.proof? =
    some ⟨target, view, name, key1View, key1Value, prevKey1⟩
  witness view value := ∃ e ∈ out, ∃ entry, e.witness? = some ⟨target, view, value, entry, name⟩
  done value := ∃ e ∈ out, ∃ entry, e.done? = some ⟨target, value, entry, name⟩
  request view value entry fresh := .validateVote target view value entry fresh ∈ out
  decision entry := .decide entry ∈ out ∧ entry.targetView = target

namespace History

/-- Everything said in `h` is said in `h'`. -/
structure Le (h h' : History K D) : Prop where
  statement : ∀ r ph x, h.statement r ph x → h'.statement r ph x
  proof : ∀ r k v k', h.proof r k v k' → h'.proof r k v k'
  witness : ∀ r v, h.witness r v → h'.witness r v
  done : ∀ v, h.done v → h'.done v
  request : ∀ r v e f, h.request r v e f → h'.request r v e f
  decision : ∀ e, h.decision e → h'.decision e

theorem Le.refl (h : History K D) : h.Le h :=
  ⟨fun _ _ _ h => h, fun _ _ _ _ h => h, fun _ _ h => h, fun _ h => h, fun _ _ _ _ h => h,
    fun _ h => h⟩

variable {h h' : History K D}

theorem Le.said (hle : h.Le h') {P : StatementRecord D → Prop}
    (hs : r = 0 ∨ ∃ y, P y ∧ h.statement r ph y) :
    r = 0 ∨ ∃ y, P y ∧ h'.statement r ph y :=
  hs.imp id fun ⟨y, hy, h⟩ => ⟨y, hy, hle.statement _ _ _ h⟩

/-- A history that grows at the latest view only: a lock that is new in `h'` is of no view
before anything said in `h`. -/
structure Grows (h h' : History K D) : Prop extends Le h h' where
  latest : ∀ r y, h'.statement r .lock y →
    h.statement r .lock y ∨ ∀ r' ph x, h.statement r' ph x → r' ≤ r

end History

/-- What may reach the party `self` about a target, given what everybody has said, what the
caller has accepted, and whether an instance may start. -/
def inputsOf (committee : Committee K) (target : ℕ) (H : K → History K D) (self : K)
    (accepted : ResolutionEntry K D → Bool → Option ℕ → Prop) (mayStart : Prop) :
    ResolverInputs K D where
  mayStart := mayStart
  proof m := m.target = target ∧ m.sender ∈ committee.authorities ∧
    (H m.sender).proof m.view m.key1View m.key1Value m.prevKey1
  witness q view value := q ∈ committee.authorities ∧ (H q).witness view value
  statement m := m.target = target ∧ m.sender ∈ committee.authorities ∧
    (H m.sender).statement m.view m.phase ⟨m.value, m.proposalKeyView, m.origin⟩
  done q value := q ∈ committee.authorities ∧ (H q).done value
  vote view value origin := ∃ e fresh, (H self).request view value e fresh ∧
    accepted e fresh origin

theorem inputsOf_le {committee : Committee K} {target : ℕ} {H H' : K → History K D} {self : K}
    {acc acc' : ResolutionEntry K D → Bool → Option ℕ → Prop} {may may' : Prop}
    (hle : ∀ q, (H q).Le (H' q)) (ha : ∀ e f o, acc e f o → acc' e f o) (hm : may → may') :
    (inputsOf committee target H self acc may).Le
      (inputsOf committee target H' self acc' may') where
  mayStart := hm
  proof _ h := ⟨h.1, h.2.1, (hle _).proof _ _ _ _ h.2.2⟩
  witness _ _ _ h := ⟨h.1, (hle _).witness _ _ h.2⟩
  statement _ h := ⟨h.1, h.2.1, (hle _).statement _ _ _ h.2.2⟩
  done _ _ h := ⟨h.1, (hle _).done _ h.2⟩
  vote _ _ _ := fun ⟨e, f, hr, hacc⟩ => ⟨e, f, (hle _).request _ _ _ _ hr, ha _ _ _ hacc⟩

variable [DecidableEq K] {S : Session K D} {v : D} {F : FaultModel K}
  {acc : ResolutionEntry K D → Bool → Option ℕ → Prop}

/-- The histories grow, those of the correct parties at their latest view only. -/
structure Extends (F : FaultModel K) (H H' : K → History K D) : Prop where
  le : ∀ q, (H q).Le (H' q)
  grows : ∀ q, F.Correct q → (H q).Grows (H' q)

theorem Extends.refl (F : FaultModel K) (H : K → History K D) : Extends F H H :=
  ⟨fun _ => .refl _, fun _ _ => ⟨.refl _, fun _ _ => .inl⟩⟩

/-! ### Evidence -/

section Evidence

variable (F : FaultModel K) (H : K → History K D)

def SaidValue (view : ℕ) (phase : DirectResolutionPhase) (value : D) (q : K) : Prop :=
  ∃ x, x.value = value ∧ (H q).statement view phase x

def PhaseSaid (view : ℕ) (phase : DirectResolutionPhase) (value : D) : Prop :=
  AtLeast F.members F.quorum (SaidValue H view phase value)

/-- A quorum has echoed a value under one proposal key. -/
def Echoed (view : ℕ) (value : D) (key : ℕ) : Prop :=
  AtLeast F.members F.quorum fun q => ∃ origin, (H q).statement view .echo ⟨value, some key, origin⟩

/-- A quorum has witnessed a value in some resolver view. -/
def BackedBy (value : D) : Prop :=
  ∃ view, AtLeast F.members F.quorum fun q => (H q).witness view value

/-- A quorum has echoed a value fresh, and `f + 1` of them first-hand unless it is a skip. -/
def Fresh (S : Session K D) (view : ℕ) (value : D) : Prop :=
  Echoed F H view value 0 ∧ ∃ e, valueDigest S e = value ∧
    (e.isNonSkip = true → AtLeast F.members (F.f + 1) fun q =>
      (H q).statement view .echo ⟨value, some 0, some 1⟩)

/-- A quorum has locked a value in some resolver view. -/
def Locked (value : D) : Prop := ∃ view, PhaseSaid F H view .lock value

def DoneSaid (value : D) : Prop := AtLeast F.members F.quorum fun q => (H q).done value

/-- `f + 1` proofs of a resolver view open the lock `(l, lv)`. -/
def Opens (view l : ℕ) (lv : D) : Prop :=
  AtLeast F.members (F.f + 1) fun q => ∃ k v k', (H q).proof view k v k' ∧
    k' < k ∧ k < view ∧ (l ≤ k' ∨ (l ≤ k ∧ v ≠ lv))

/-- The lock `(l, lv)` is the latest one said before the resolver view `view`, or one of that
view itself. -/
def LockAt (h : History K D) (view l : ℕ) (lv : D) : Prop :=
  (l = 0 ∨ ∃ y, y.value = lv ∧ h.statement l .lock y) ∧ l ≤ view ∧
    ∀ view' y, view' < view → h.statement view' .lock y → view' ≤ l

/-- A lock of view `l` permits an ECHO for `value` under the proposal key `key`. -/
def Permits (h : History K D) (view : ℕ) (value : D) (key l : ℕ) : Prop :=
  ∃ lv, LockAt h view l lv ∧ (l = 0 ∨ lv = value ∨ (l ≤ key ∧ Opens F H view l lv))

/-- What an ECHO rests on: a carried value is backed, a fresh one is accepted by the caller,
and the lock permits it. -/
def EchoFact (S : Session K D) (accepted : ResolutionEntry K D → Bool → Option ℕ → Prop)
    (h : History K D) (view : ℕ) (x : StatementRecord D) : Prop :=
  ∃ key, x.proposalKeyView = some key ∧ key < view ∧ (0 < key → BackedBy F H x.value) ∧
    (key = 0 → ∃ e, valueDigest S e = x.value ∧ accepted e true x.origin) ∧
    ∃ l, Permits F H h view x.value key l

/-- An ECHO that was sent under a lock of an earlier view. -/
def GroundedEcho (view : ℕ) (value : D) (q : K) : Prop :=
  ∃ x key l, x.value = value ∧ (H q).statement view .echo x ∧ key < view ∧ l < view ∧
    Permits F H (H q) view value key l

/-- A quorum whose correct members echoed a value under locks of earlier views. -/
def Grounded (view : ℕ) (value : D) : Prop :=
  AtLeast F.members F.quorum fun q => F.Correct q → GroundedEcho F H view value q

/-- What the sayings `g` of a party with history `h` rest on. -/
structure SayingFacts (S : Session K D)
    (accepted : ResolutionEntry K D → Bool → Option ℕ → Prop) (h g : History K D) : Prop where
  echo : ∀ r x, g.statement r .echo x → EchoFact F H S accepted h r x
  key1 : ∀ r x, g.statement r .key1 x →
    (∃ key, Echoed F H r x.value key ∧ (key = 0 → BackedBy F H x.value)) ∧ Grounded F H r x.value
  later : ∀ f t, (f, t) ∈ TargetState.transitions → f ≠ .echo → ∀ r x, g.statement r t x →
    PhaseSaid F H r f x.value
  proof : ∀ r k v k', g.proof r k v k' →
    (k = 0 ∨ ∃ x, x.value = v ∧ h.statement k .key1 x) ∧
      (k' = 0 ∨ ∃ x, x.value ≠ v ∧ h.statement k' .key1 x)
  witness : ∀ r v, g.witness r v → Fresh F H S r v
  done : ∀ v, g.done v → Locked F H v
  decision : ∀ e, g.decision e → DoneSaid F H (valueDigest S e)

/-- What a correct party has said: one statement per phase of a view, each with its reason. -/
structure LogFacts (S : Session K D) (accepted : ResolutionEntry K D → Bool → Option ℕ → Prop)
    (h : History K D) : Prop extends SayingFacts F H S accepted h h where
  unique : ∀ r ph x y, h.statement r ph x → h.statement r ph y → x = y

end Evidence

/-! ### Evidence is never lost -/

namespace Extends

variable {F : FaultModel K} {H H' : K → History K D} (hE : Extends F H H')
  {acc acc' : ResolutionEntry K D → Bool → Option ℕ → Prop} {ph : DirectResolutionPhase}
include hE

theorem phaseSaid (h : PhaseSaid F H r ph v) :
    PhaseSaid F H' r ph v :=
  h.mono fun q _ ⟨x, hx, hs⟩ => ⟨x, hx, (hE.le q).statement _ _ _ hs⟩

theorem echoed {r key : ℕ} (h : Echoed F H r v key) : Echoed F H' r v key :=
  h.mono fun q _ ⟨o, ho⟩ => ⟨o, (hE.le q).statement _ _ _ ho⟩

theorem backedBy (h : BackedBy F H v) : BackedBy F H' v :=
  h.imp fun _ h => h.mono fun q _ hw => (hE.le q).witness _ _ hw

theorem fresh (h : Fresh F H S r v) : Fresh F H' S r v := by
  obtain ⟨hq, e, he, ho⟩ := h
  exact ⟨hE.echoed hq, e, he, fun hn => (ho hn).mono fun q _ hs => (hE.le q).statement _ _ _ hs⟩

theorem locked (h : Locked F H v) : Locked F H' v := h.imp fun _ h => hE.phaseSaid h

theorem doneSaid (h : DoneSaid F H v) : DoneSaid F H' v :=
  h.mono fun q _ hd => (hE.le q).done _ hd

theorem opens {r l : ℕ} {lv : D} (h : Opens F H r l lv) : Opens F H' r l lv :=
  h.mono fun q _ ⟨k, v, k', hp, hr⟩ => ⟨k, v, k', (hE.le q).proof _ _ _ _ hp, hr⟩

omit hE [DecidableEq K] in
theorem lockAt (hg : h.Grows h') {r l : ℕ} {lv : D} {x : StatementRecord D}
    (hx : h.statement r ph x) (hl : LockAt h r l lv) :
    LockAt h' r l lv := by
  obtain ⟨hsaid, hle, hmax⟩ := hl
  refine ⟨hg.toLe.said hsaid, hle, ?_⟩
  intro r' y hr hy
  rcases hg.latest r' y hy with hold | hnew
  · exact hmax r' y hr hold
  · have := hnew r ph x hx
    omega

theorem permits (hg : h.Grows h') {r key l : ℕ} {x : StatementRecord D} (hx : h.statement r ph x)
    (hp : Permits F H h r v key l) :
    Permits F H' h' r v key l := by
  obtain ⟨lv, hl, hc⟩ := hp
  exact ⟨lv, lockAt hg hx hl, hc.imp id (.imp id fun ⟨hk, ho⟩ => ⟨hk, hE.opens ho⟩)⟩

theorem echoFact (ha : ∀ e f o, acc e f o → acc' e f o) (hg : h.Grows h') {x : StatementRecord D}
    (hx : h.statement r .echo x) (he : EchoFact F H S acc h r x) :
    EchoFact F H' S acc' h' r x := by
  obtain ⟨key, hk, hlt, hb, hf, l, hl⟩ := he
  refine ⟨key, hk, hlt, fun h0 => hE.backedBy (hb h0), fun h0 => ?_, l, hE.permits hg hx hl⟩
  obtain ⟨e, hd, hacc⟩ := hf h0
  exact ⟨e, hd, ha _ _ _ hacc⟩

theorem grounded (h : Grounded F H r v) : Grounded F H' r v := by
  refine h.mono fun q _ hq hc => ?_
  obtain ⟨x, key, l, hx, hs, hk, hl, hp⟩ := hq hc
  have hg := hE.grows q hc
  exact ⟨x, key, l, hx, hg.statement _ _ _ hs, hk, hl, hE.permits hg hs hp⟩

theorem sayingFacts (ha : ∀ e f o, acc e f o → acc' e f o) (hg : h.Grows h')
    (hs : SayingFacts F H S acc h h) :
    SayingFacts F H' S acc' h' h where
  echo r x hx := hE.echoFact ha hg hx (hs.echo r x hx)
  key1 r x hx := by
    obtain ⟨⟨key, he, hb⟩, hgr⟩ := hs.key1 r x hx
    exact ⟨⟨key, hE.echoed he, fun h0 => hE.backedBy (hb h0)⟩, hE.grounded hgr⟩
  later f t ht hf r x hx := hE.phaseSaid (hs.later f t ht hf r x hx)
  proof r k v k' hp := by
    obtain ⟨h1, h2⟩ := hs.proof r k v k' hp
    exact ⟨hg.toLe.said h1, hg.toLe.said h2⟩
  witness r v hw := hE.fresh (hs.witness r v hw)
  done v hd := hE.locked (hs.done v hd)
  decision e he := hE.doneSaid (hs.decision e he)

end Extends

/-! ### New sayings -/

namespace History

omit [DecidableEq K]

def empty : History K D where
  statement _ _ _ := False
  proof _ _ _ _ := False
  witness _ _ := False
  done _ := False
  request _ _ _ _ := False
  decision _ := False

def union (h g : History K D) : History K D where
  statement r ph x := h.statement r ph x ∨ g.statement r ph x
  proof r k v k' := h.proof r k v k' ∨ g.proof r k v k'
  witness r v := h.witness r v ∨ g.witness r v
  done v := h.done v ∨ g.done v
  request r v e f := h.request r v e f ∨ g.request r v e f
  decision e := h.decision e ∨ g.decision e

theorem le_union (h g : History K D) : h.Le (h.union g) :=
  ⟨fun _ _ _ => .inl, fun _ _ _ _ => .inl, fun _ _ => .inl, fun _ => .inl, fun _ _ _ _ => .inl,
    fun _ => .inl⟩

theorem union_eq_self {h g : History K D} (hg : g.Le h) : h.union g = h := by
  ext
  · exact or_iff_left_of_imp (hg.statement _ _ _)
  · exact or_iff_left_of_imp (hg.proof _ _ _ _)
  · exact or_iff_left_of_imp (hg.witness _ _)
  · exact or_iff_left_of_imp (hg.done _)
  · exact or_iff_left_of_imp (hg.request _ _ _ _)
  · exact or_iff_left_of_imp (hg.decision _)

def ofStatement (r : ℕ) (ph : DirectResolutionPhase) (x : StatementRecord D) : History K D :=
  { empty with statement := fun r' ph' x' => r' = r ∧ ph' = ph ∧ x' = x }

def ofProof (r k : ℕ) (v : D) (k' : ℕ) : History K D :=
  { empty with proof := fun r₁ k₁ v₁ k₁' => r₁ = r ∧ k₁ = k ∧ v₁ = v ∧ k₁' = k' }

def ofWitness (r : ℕ) (v : D) : History K D :=
  { empty with witness := fun r' v' => r' = r ∧ v' = v }

def ofDone (v : D) : History K D := { empty with done := fun v' => v' = v }

def ofRequest (r : ℕ) (v : D) (e : ResolutionEntry K D) (f : Bool) : History K D :=
  { empty with request := fun r' v' e' f' => r' = r ∧ v' = v ∧ e' = e ∧ f' = f }

def ofDecision (e : ResolutionEntry K D) : History K D :=
  { empty with decision := fun e' => e' = e }

end History

section Effects

omit [DecidableEq K]

variable {target : ℕ} {name : K} {e : ResolutionEntry K D}

theorem history_eq_empty {es : List (DirectResolutionEffect K D)}
    (h : ∀ x ∈ es, x.target? ≠ some target) : history target name es = .empty := by
  ext
  · refine iff_of_false (fun ⟨x, hx, he⟩ => h x hx ?_) id
    cases x <;> cases he <;> rfl
  · refine iff_of_false (fun ⟨x, hx, he⟩ => h x hx ?_) id
    cases x <;> cases he <;> rfl
  · refine iff_of_false (fun ⟨x, hx, _, he⟩ => h x hx ?_) id
    cases x <;> cases he <;> rfl
  · refine iff_of_false (fun ⟨x, hx, _, he⟩ => h x hx ?_) id
    cases x <;> cases he <;> rfl
  · exact iff_of_false (fun hx => h _ hx rfl) id
  · exact iff_of_false (fun hx => h _ hx.1 (congrArg some hx.2)) id

theorem history_quiet {es : List (DirectResolutionEffect K D)} (h : ∀ x ∈ es, x.isQuiet = true) :
    history target name es = .empty :=
  history_eq_empty fun x hx => by
    rw [DirectResolutionEffect.target?_of_isQuiet (h x hx)]
    exact nofun

theorem history_statement {k o : Option ℕ}
    (hx : x.statement? = some ⟨target, r, v, ph, k, o, name⟩) :
    history target name [x] = .ofStatement r ph ⟨v, k, o⟩ := by
  cases x <;> cases hx <;> ext r' ph' x' <;>
    simp [history, History.ofStatement, History.empty] <;> cases x' <;>
      grind

theorem history_proof {r k k' : ℕ} (hx : x.proof? = some ⟨target, r, name, k, v, k'⟩) :
    history target name [x] = .ofProof r k v k' := by
  cases x <;> cases hx <;> ext <;>
    simp [history, History.ofProof, History.empty] <;> grind

theorem history_witness (hx : x.witness? = some ⟨target, r, v, e, name⟩) :
    history target name [x] = .ofWitness r v := by
  cases x <;> cases hx <;> ext <;>
    simp [history, History.ofWitness, History.empty] <;> grind

theorem history_done (hx : x.done? = some ⟨target, v, e, name⟩) :
    history target name [x] = .ofDone v := by
  cases x <;> cases hx <;> ext <;>
    simp [history, History.ofDone, History.empty] <;> grind

theorem history_request (r : ℕ) (v : D) (e : ResolutionEntry K D) (f : Bool) :
    history target name [.validateVote target r v e f] = .ofRequest r v e f := by
  ext <;> simp [history, History.ofRequest, History.empty]

theorem history_decide (he : e.targetView = target) :
    history target name [.decide e] = .ofDecision e := by
  ext <;> simp [history, History.ofDecision, History.empty]
  grind

end Effects

omit [DecidableEq K] in
theorem history_append (target : ℕ) (name : K) (out es : List (DirectResolutionEffect K D)) :
    history target name (out ++ es) = (history target name out).union (history target name es) := by
  ext <;> simp only [history, History.union, List.mem_append, or_and_right, exists_or]

theorem SayingFacts.union {H : K → History K D} {h g g' : History K D}
    (hg : SayingFacts F H S acc h g) (hg' : SayingFacts F H S acc h g') :
    SayingFacts F H S acc h (g.union g') where
  echo r x := Or.rec (hg.echo r x) (hg'.echo r x)
  key1 r x := Or.rec (hg.key1 r x) (hg'.key1 r x)
  later f t ht hf r x := Or.rec (hg.later f t ht hf r x) (hg'.later f t ht hf r x)
  proof r k v k' := Or.rec (hg.proof r k v k') (hg'.proof r k v k')
  witness r v := Or.rec (hg.witness r v) (hg'.witness r v)
  done v := Or.rec (hg.done v) (hg'.done v)
  decision e := Or.rec (hg.decision e) (hg'.decision e)

/-- New sayings with their reasons, each the only statement of its phase. -/
theorem LogFacts.union {H H' : K → History K D} {h h' g : History K D} (hE : Extends F H H')
    (hg : h.Grows h') (hh : h' = h.union g) (hs : SayingFacts F H' S acc h' g)
    (hu : ∀ r ph x, g.statement r ph x → ∀ y, h'.statement r ph y → y = x)
    (hl : LogFacts F H S acc h) : LogFacts F H' S acc h' := by
  refine ⟨?_, fun r ph x y hx hy => ?_⟩
  · have := (hE.sayingFacts (fun _ _ _ h => h) hg hl.toSayingFacts).union hs
    rwa [← hh] at this
  · have hx' := hx
    have hy' := hy
    rw [hh] at hx' hy'
    rcases hx' with hx' | hx'
    · rcases hy' with hy' | hy'
      · exact hl.unique r ph x y hx' hy'
      · exact hu r ph y hy' x hx
    · exact (hu r ph x hx' y hy).symm

theorem SayingFacts.empty {H : K → History K D} {h : History K D} :
    SayingFacts F H S acc h .empty where
  echo _ _ := False.elim
  key1 _ _ := False.elim
  later _ _ _ _ _ _ := False.elim
  proof _ _ _ _ := False.elim
  witness _ _ := False.elim
  done _ := False.elim
  decision _ := False.elim

theorem SayingFacts.ofStatement {H : K → History K D} {h : History K D} {x : StatementRecord D}
    (hecho : ph = .echo → EchoFact F H S acc h r x)
    (hkey1 : ph = .key1 → (∃ key, Echoed F H r x.value key ∧ (key = 0 → BackedBy F H x.value)) ∧
      Grounded F H r x.value)
    (hlater : ∀ f, (f, ph) ∈ TargetState.transitions → f ≠ .echo → PhaseSaid F H r f x.value) :
    SayingFacts F H S acc h (.ofStatement r ph x) where
  echo := by
    rintro _ _ ⟨rfl, hph, rfl⟩
    exact hecho hph.symm
  key1 := by
    rintro _ _ ⟨rfl, hph, rfl⟩
    exact hkey1 hph.symm
  later := by
    rintro f _ ht hf _ _ ⟨rfl, rfl, rfl⟩
    exact hlater f ht hf
  proof _ _ _ _ := False.elim
  witness _ _ := False.elim
  done _ := False.elim
  decision _ := False.elim

end Vantage
