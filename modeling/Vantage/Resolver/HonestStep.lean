import Vantage.Resolver.Honest

/-!
# Every atomic step keeps a correct party honest

* `BallotFacts.echoed` … `ProgressFacts.atLeast_done`: the tables of a party as evidence in
  terms of histories.
-/

namespace Vantage

variable {K D : Type} [LinearOrder K] [LinearOrder D] [Inhabited D] {F : FaultModel K}
  {S : Session K D} {cfg : ResolverConfig K D} {target : ℕ} {H H' : K → History K D}
  {accepted : ResolutionEntry K D → Bool → Option ℕ → Prop} {mayStart : Prop}
  {h : History K D} {c c' : Core K D} {i : InstCore K D} {r : ℕ} {b : Ballot K D}
  {es : List (DirectResolutionEffect K D)} {p : DirectResolutionProposal K D} {view : ℕ}
  {ph : DirectResolutionPhase} {v : D} {vote : Option ℕ × D}

/-! ### Tables as evidence -/

namespace BallotFacts

variable (hF : cfg.toConfig.Fits F) (hb : BallotFacts F S target H accepted h r b)
include hb

omit [Inhabited D] in
theorem atLeast_witness {n : ℕ} (hn : n ≤ TargetState.witnessCount v b) :
    AtLeast F.members n fun q => (H q).witness r v :=
  Table.atLeast_of_count hn fun q w hw he => by
    obtain rfl := of_decide_eq_true he
    exact hb.witnesses q w hw

include hF

omit [Inhabited D] in
theorem echoed (hp : b.proposal = some p) (hv : p.value = vote.2)
    (hq : InstCore.PhaseQuorum cfg b .echo vote) : Echoed F H r vote.2 p.keyView := by
  unfold InstCore.PhaseQuorum at hq
  rw [hF.quorumParties] at hq
  refine Table.atLeast_of_count hq fun q x hx he => ?_
  have hvote := of_decide_eq_true he
  unfold TargetState.phaseVote at hvote
  rw [if_pos rfl, hp] at hvote
  dsimp only at hvote
  split at hvote
  · next hk =>
    obtain ⟨hm, hs⟩ := hb.statements .echo q x hx
    refine ⟨hm, x.origin, ?_⟩
    rw [← hk.1, ← hv, ← hk.2]
    exact hs
  · cases hvote

omit [Inhabited D] in
theorem phaseSaid (hph : ph ≠ .echo) (hq : InstCore.PhaseQuorum cfg b ph vote) :
    PhaseSaid F H r ph vote.2 := by
  unfold InstCore.PhaseQuorum at hq
  rw [hF.quorumParties] at hq
  refine Table.atLeast_of_count hq fun q x hx he => ?_
  have hvote := of_decide_eq_true he
  unfold TargetState.phaseVote at hvote
  rw [if_neg hph] at hvote
  obtain ⟨hm, hs⟩ := hb.statements ph q x hx
  exact ⟨hm, x, congrArg Prod.snd (Option.some.inj hvote), hs⟩

omit [Inhabited D] in
theorem fresh (hq : InstCore.FreshQuorum cfg b v) : Fresh F H S r v := by
  obtain ⟨p, hp, rfl, hk, hq, ho⟩ := hq
  have he := hb.echoed hF hp rfl hq
  rw [hk] at he
  refine ⟨he, p.entry, (hb.proposal p hp).symm, fun hn => ?_⟩
  have hcount := ho hn
  rw [hF.fPlus1Parties] at hcount
  refine Table.atLeast_of_count hcount fun q x hx hx' => ?_
  obtain ⟨hv, hk', ho'⟩ := of_decide_eq_true hx'
  obtain ⟨hm, hs⟩ := hb.statements .echo q x hx
  obtain ⟨xv, xk, xo⟩ := x
  subst hv hk' ho'
  exact ⟨hm, hs⟩

theorem opens {i : Progress K D} (ho : TargetState.openLock cfg r i b = true) :
    Opens F H r i.lockView i.lockValue := by
  have hcount := of_decide_eq_true ho
  rw [hF.fPlus1Parties] at hcount
  refine Table.atLeast_of_count hcount fun q m hm ho' => ?_
  obtain ⟨-, -, -, hq, hp⟩ := hb.proofs q m hm
  simp only [TargetState.opensLock, Bool.and_eq_true, Bool.or_eq_true, decide_eq_true_eq] at ho'
  exact ⟨hq, _, _, _, hp, ho'.1.1, ho'.1.2, ho'.2⟩

end BallotFacts

theorem ProgressFacts.atLeast_done {i : Progress K D} (hp : ProgressFacts F H h i) {n : ℕ}
    (hn : n ≤ Table.count (fun w => decide (w = v)) i.done) :
    AtLeast F.members n fun q => (H q).done v :=
  Table.atLeast_of_count hn fun q w hw he => by
    obtain rfl := of_decide_eq_true he
    exact hp.dones q w hw

/-! ### Steps that say something -/

namespace Honest

variable (hF : cfg.toConfig.Fits F) (hname : cfg.name ∈ F.members) (hrel : Relay F S H)
  (hc : Honest F S cfg target H accepted mayStart c) (hi : c.inst = some i)
  (hother : ∀ q, q ≠ cfg.name → H' q = H q)
include hc

omit [LinearOrder D] in
theorem sayQuietly {g : History K D} (hother : ∀ q, q ≠ cfg.name → H' q = H q)
    (hself : H' cfg.name = (H cfg.name).union g)
    (hs : ∀ r ph x, ¬g.statement r ph x) (hr : ∀ r v e f, ¬g.request r v e f)
    (hg : Extends F H H' → SayingFacts F H' S accepted (H' cfg.name) g) :
    Extends F H H' ∧ Honest F S cfg target H' accepted mayStart c := by
  have hE : Extends F H H' :=
    extends_of_union hself hother fun r y hy => absurd hy (hs r _ y)
  exact ⟨hE, hc.say hE hself hs hr (hg hE)⟩

include hi

theorem backedBy (hF : cfg.toConfig.Fits F) (hb : i.Backed cfg v) : BackedBy F H v := by
  obtain ⟨view, hq⟩ := hb
  rw [hF.quorumParties] at hq
  exact ⟨view, (hc.ballots i hi view).atLeast_witness hq⟩

include hother hname

omit [LinearOrder D] in
theorem enter {m : DirectResolutionProof K D} (hv : i.enteredThrough < view)
    (hm : m = ⟨target, view, cfg.name, i.key1View, i.key1Value, i.prevKey1⟩)
    (hself : H' cfg.name = (H cfg.name).union (.ofProof view i.key1View i.key1Value i.prevKey1)) :
    Extends F H H' ∧ Honest F S cfg target H' accepted mayStart
      { c with
        inst := some (InstCore.setBallot { i with enteredThrough := view, currentView := view }
          view { i.ballots view with proofs := (i.ballots view).proofs.insert cfg.name m }) } := by
  have hp := hc.progress i hi
  obtain ⟨hE, hc'⟩ := hc.sayQuietly hother hself (fun _ _ _ => id) (fun _ _ _ _ => id) fun hE => by
    refine { SayingFacts.empty with proof := ?_ }
    rintro _ _ _ _ ⟨rfl, rfl, rfl, rfl⟩
    exact ⟨(hE.le cfg.name).said hp.key1Said, (hE.le cfg.name).said hp.prevKey1⟩
  have hp' := hc'.progress i hi
  have hcur := hp.entered
  refine ⟨hE, hc'.withInst ?_ (BallotFacts.update ?_ fun r _ => hc'.ballots i hi r)⟩
  · refine { hp' with entered := rfl, past := fun r ph x hx => ?_, lockCur := ?_ }
    · have := hp'.past r ph x hx
      change r ≤ view
      omega
    · have := hp'.lockCur
      change i.lockView ≤ view
      omega
  · refine { hc'.ballots i hi view with proofs := fun q m' hm' => ?_ }
    rcases Table.lookup_insert_cases hm' with ⟨rfl, rfl⟩ | hold
    · subst hm
      refine ⟨rfl, rfl, rfl, hname, ?_⟩
      rw [hself]
      exact .inr ⟨rfl, rfl, rfl, rfl⟩
    · exact (hc'.ballots i hi view).proofs q m' hold

theorem witness (hF : cfg.toConfig.Fits F) (hrel : Relay F S H)
    (hq : InstCore.FreshQuorum cfg (i.ballots view) v ∨
      cfg.fPlus1Parties ≤ TargetState.witnessCount v (i.ballots view))
    (hself : H' cfg.name = (H cfg.name).union (.ofWitness view v)) :
    Extends F H H' ∧ Honest F S cfg target H' accepted mayStart
      { c with
        inst := some (i.setBallot view
          { i.ballots view with
            backingSent := some v
            backingWitnesses := (i.ballots view).backingWitnesses.insert cfg.name v }) } := by
  have hb := hc.ballots i hi view
  have hfresh : Fresh F H S view v := by
    rcases hq with hq | hq
    · exact hb.fresh hF hq
    · rw [hF.fPlus1Parties] at hq
      exact hrel.witness view v (hb.atLeast_witness hq)
  obtain ⟨hE, hc'⟩ := hc.sayQuietly hother hself (fun _ _ _ => id) (fun _ _ _ _ => id) fun hE => by
    refine { SayingFacts.empty with witness := ?_ }
    rintro _ _ ⟨rfl, rfl⟩
    exact hE.fresh hfresh
  have hb' := hc'.ballots i hi view
  have hsaid : (H' cfg.name).witness view v := by
    rw [hself]
    exact .inr ⟨rfl, rfl⟩
  refine ⟨hE, hc'.withBallot hi { hb' with witnesses := fun q w hw => ?_, backing := ?_ }⟩
  · rcases Table.lookup_insert_cases hw with ⟨rfl, rfl⟩ | hold
    · exact ⟨hname, hsaid⟩
    · exact hb'.witnesses q w hold
  · rintro w ⟨⟩
    exact hsaid

theorem done (hF : cfg.toConfig.Fits F) (hrel : Relay F S H)
    (hq : (∃ view vote, InstCore.PhaseQuorum cfg (i.ballots view) .lock vote ∧ vote.2 = v) ∨
      cfg.fPlus1Parties ≤ Table.count (fun w => decide (w = v)) i.done)
    (hself : H' cfg.name = (H cfg.name).union (.ofDone v)) :
    Extends F H H' ∧ Honest F S cfg target H' accepted mayStart
      { c with inst := some { i with doneSent := some v, done := i.done.insert cfg.name v } } := by
  have hlocked : Locked F H v := by
    rcases hq with ⟨view, vote, hq, rfl⟩ | hq
    · exact ⟨view, (hc.ballots i hi view).phaseSaid hF (by decide) hq⟩
    · rw [hF.fPlus1Parties] at hq
      exact hrel.done v ((hc.progress i hi).atLeast_done hq)
  obtain ⟨hE, hc'⟩ := hc.sayQuietly hother hself (fun _ _ _ => id) (fun _ _ _ _ => id) fun hE => by
    refine { SayingFacts.empty with done := ?_ }
    rintro _ rfl
    exact hE.locked hlocked
  have hp' := hc'.progress i hi
  have hsaid : (H' cfg.name).done v := by
    rw [hself]
    exact .inr rfl
  refine ⟨hE, hc'.withInst { hp' with dones := fun q w hw => ?_, doneSent := ?_ }
    (hc'.ballots i hi)⟩
  · rcases Table.lookup_insert_cases hw with ⟨rfl, rfl⟩ | hold
    · exact ⟨hname, hsaid⟩
    · exact hp'.dones q w hold
  · rintro w ⟨⟩
    exact hsaid

omit hname in
theorem decide (hF : cfg.toConfig.Fits F) {e : ResolutionEntry K D}
    (hq : cfg.quorumParties ≤ Table.count (fun w => Decidable.decide (w = valueDigest S e)) i.done)
    (hself : H' cfg.name = (H cfg.name).union (.ofDecision e)) :
    Extends F H H' ∧
      Honest F S cfg target H' accepted mayStart ⟨none, some (valueDigest S e, e)⟩ := by
  rw [hF.quorumParties] at hq
  have hdone : DoneSaid F H (valueDigest S e) := (hc.progress i hi).atLeast_done hq
  obtain ⟨hE, hc'⟩ := hc.sayQuietly hother hself (fun _ _ _ => id) (fun _ _ _ _ => id) fun hE => by
    refine { SayingFacts.empty with decision := ?_ }
    rintro _ rfl
    exact hE.doneSaid hdone
  refine ⟨hE, hc'.log, nofun, nofun, nofun, ?_⟩
  rintro _ _ ⟨⟩
  exact hE.doneSaid hdone

omit hname [LinearOrder D] in
theorem request (hp : (i.ballots view).proposal = some p)
    (hself : H' cfg.name = (H cfg.name).union
      (.ofRequest view p.value p.entry (Decidable.decide (p.keyView = 0)))) :
    Extends F H H' ∧ Honest F S cfg target H' accepted mayStart
      { c with
        inst := some (i.setBallot view { i.ballots view with voteStatus := .requested }) } := by
  have hE : Extends F H H' := extends_of_union hself hother fun _ _ => False.elim
  have hle := hE.le cfg.name
  have hst : ∀ r ph x, (H' cfg.name).statement r ph x → (H cfg.name).statement r ph x := by
    intro r ph x hx
    rw [hself] at hx
    exact hx.resolve_right id
  have hgrow : (H cfg.name).Grows (H' cfg.name) := ⟨hle, fun r y hy => .inl (hst r _ y hy)⟩
  have hlog : LogFacts F H' S accepted (H' cfg.name) :=
    hc.log.union hE hgrow hself { SayingFacts.empty with } fun _ _ _ => False.elim
  have hballots : ∀ r, BallotFacts F S target H' accepted (H' cfg.name) r (i.ballots r) := by
    refine fun r => (hc.ballots i hi r).extend hE hle (fun _ _ _ h => h) (hst r) ?_
    intro v e f hr
    rw [hself] at hr
    rcases hr with hr | ⟨rfl, -, rfl, rfl⟩
    · exact (hc.ballots i hi r).request v e f hr
    · exact ⟨p, hp, rfl, rfl⟩
  refine ⟨hE, hlog, ?_, ?_, nofun, fun v e hd => hE.doneSaid (hc.decided v e hd)⟩
  · rintro _ ⟨⟩
    exact (hc.progress i hi).extend hE hle hst
  · rintro _ ⟨⟩
    exact BallotFacts.update { hballots view with accepted := nofun } fun r _ => hballots r

end Honest

/-! ### Statements -/

theorem ProgressFacts.recordKey {x : StatementRecord D} (hp : ProgressFacts F H h i.toProgress)
    (hE : Extends F H H') {h' : History K D} (hh : h' = h.union (.ofStatement i.currentView ph x)) :
    ProgressFacts F H' h' (i.recordKey ph x.value).toProgress := by
  have hle : h.Le h' := by
    rw [hh]
    exact History.le_union _ _
  have hst : ∀ r ph' y, h'.statement r ph' y →
      h.statement r ph' y ∨ (r = i.currentView ∧ ph' = ph ∧ y = x) := by
    intro r ph' y hy
    rw [hh] at hy
    exact hy
  have hnew : h'.statement i.currentView ph x := by
    rw [hh]
    exact .inr ⟨rfl, rfl, rfl⟩
  have hpast : ∀ r ph' y, h'.statement r ph' y → r ≤ i.currentView := by
    intro r ph' y hy
    rcases hst r ph' y hy with hold | ⟨rfl, -, -⟩
    · exact hp.past r ph' y hold
    · exact le_rfl
  have hlock : ph ≠ .lock → ∀ r y, h'.statement r .lock y → r ≤ i.lockView := by
    intro hph r y hy
    rcases hst r .lock y hy with hold | ⟨-, hph', -⟩
    · exact hp.lockMax r y hold
    · exact absurd hph'.symm hph
  have hdones : ∀ q v, i.done.lookup q = some v → q ∈ F.members ∧ (H' q).done v :=
    fun q v hv => (hp.dones q v hv).imp id ((hE.le q).done _)
  have hdone : ∀ v, i.doneSent = some v → h'.done v := fun v hv => hle.done _ (hp.doneSent v hv)
  have hl := hle.said hp.lockSaid
  have hk := hle.said hp.key1Said
  have hk' := hle.said hp.prevKey1
  cases ph with
  | echo => exact ⟨hp.entered, hpast, hdones, hdone, hl, hlock nofun, hp.lockCur, hk, hk'⟩
  | key2 => exact ⟨hp.entered, hpast, hdones, hdone, hl, hlock nofun, hp.lockCur, hk, hk'⟩
  | key3 => exact ⟨hp.entered, hpast, hdones, hdone, hl, hlock nofun, hp.lockCur, hk, hk'⟩
  | lock =>
    exact ⟨hp.entered, hpast, hdones, hdone, .inr ⟨x, rfl, hnew⟩, fun r y => hpast r .lock y,
      le_rfl, hk, hk'⟩
  | key1 =>
    refine ⟨hp.entered, hpast, hdones, hdone, hl, hlock nofun, hp.lockCur, .inr ⟨x, rfl, hnew⟩, ?_⟩
    simp only [InstCore.recordKey]
    split
    · next hne =>
      -- A first key for another value becomes the previous first key.
      refine hk.imp id fun ⟨y, hy, hs⟩ => ⟨y, ?_, hs⟩
      rw [hy]
      exact hne
    · next heq =>
      rw [not_not] at heq
      rw [← heq]
      exact hk'

namespace Honest

variable (hF : cfg.toConfig.Fits F) (hname : cfg.name ∈ F.members)
  (hc : Honest F S cfg target H accepted mayStart c) (hi : c.inst = some i)
  (hother : ∀ q, q ≠ cfg.name → H' q = H q)
include hc hi hname hother

theorem sayStatement {x : StatementRecord D} (hs : (i.ballots i.currentView).sent ph = none)
    (hself : H' cfg.name = (H cfg.name).union (.ofStatement i.currentView ph x))
    (hx : Extends F H H' →
      SayingFacts F H' S accepted (H' cfg.name) (.ofStatement i.currentView ph x)) :
    Extends F H H' ∧ Honest F S cfg target H' accepted mayStart
      { c with inst := some ((i.recordKey ph x.value).say cfg ph x) } := by
  have hp := hc.progress i hi
  have hb := hc.ballots i hi
  have hE : Extends F H H' := by
    refine extends_of_union hself hother fun r y hy r' ph' z hz => ?_
    obtain ⟨rfl, -, -⟩ := hy
    exact hp.past r' ph' z hz
  have hle := hE.le cfg.name
  have hst : ∀ r ph' y, (H' cfg.name).statement r ph' y →
      (H cfg.name).statement r ph' y ∨ (r = i.currentView ∧ ph' = ph ∧ y = x) := by
    intro r ph' y hy
    rw [hself] at hy
    exact hy
  have hnew : (H' cfg.name).statement i.currentView ph x := by
    rw [hself]
    exact .inr ⟨rfl, rfl, rfl⟩
  have hreq : ∀ r v e f, (H' cfg.name).request r v e f → (H cfg.name).request r v e f := by
    intro r v e f hr
    rw [hself] at hr
    exact hr.resolve_right id
  have hgrow : (H cfg.name).Grows (H' cfg.name) := by
    refine ⟨hle, fun r y hy => (hst r .lock y hy).imp id ?_⟩
    rintro ⟨rfl, -, -⟩
    exact hp.past
  have hlog : LogFacts F H' S accepted (H' cfg.name) := by
    refine hc.log.union hE hgrow hself (hx hE) ?_
    rintro r ph' x' ⟨rfl, rfl, rfl⟩ y hy
    rcases hst _ _ y hy with hold | ⟨-, -, rfl⟩
    · exact absurd hold ((hb i.currentView).unsent _ hs y)
    · rfl
  have hsame : (i.recordKey ph x.value).currentView = i.currentView ∧
      (i.recordKey ph x.value).ballots = i.ballots := by
    cases ph <;> exact ⟨rfl, rfl⟩
  refine ⟨hE, hlog, ?_, ?_, nofun, fun v e hd => hE.doneSaid (hc.decided v e hd)⟩
  · rintro _ ⟨⟩
    exact hp.recordKey hE hself
  · rintro _ ⟨⟩
    rw [InstCore.say, InstCore.setBallot, hsame.1, hsame.2]
    refine BallotFacts.update ?_ fun r hr => ?_
    · have hb' := hb i.currentView
      refine ⟨fun ph' hn y hy => ?_, fun ph' q y hy => ?_, fun q m hm => ?_, fun q v hv => ?_,
        fun v hv => hle.witness _ _ (hb'.backing v hv), hb'.proposal,
        fun v e f hr => hb'.request v e f (hreq _ _ _ _ hr), hb'.accepted⟩
      · by_cases hph : ph' = ph
        · subst hph
          simp at hn
        · dsimp only at hn
          rw [Function.update_of_ne hph] at hn
          rcases hst _ ph' y hy with hold | ⟨-, hph', -⟩
          · exact hb'.unsent ph' hn y hold
          · exact hph hph'
      · dsimp only at hy
        by_cases hph : ph' = ph
        · subst hph
          rw [Function.update_self] at hy
          rcases Table.lookup_insert_cases hy with ⟨rfl, rfl⟩ | hold
          · exact ⟨hname, hnew⟩
          · exact (hb'.statements ph' q y hold).imp id ((hE.le q).statement _ _ _)
        · rw [Function.update_of_ne hph] at hy
          exact (hb'.statements ph' q y hy).imp id ((hE.le q).statement _ _ _)
      · obtain ⟨h1, h2, h3, h4, h5⟩ := hb'.proofs q m hm
        exact ⟨h1, h2, h3, h4, (hE.le q).proof _ _ _ _ h5⟩
      · exact (hb'.witnesses q v hv).imp id ((hE.le q).witness _ _)
    · refine (hb r).extend hE hle (fun _ _ _ h => h) (fun ph' y hy => ?_)
        fun v e f hv => (hb r).request v e f (hreq _ _ _ _ hv)
      exact (hst r ph' y hy).resolve_right fun hcur => hr hcur.1

theorem echo (hF : cfg.toConfig.Fits F) (hp : (i.ballots i.currentView).proposal = some p)
    (hs : (i.ballots i.currentView).sent .echo = none) (hb : 0 < p.keyView → i.Backed cfg p.value)
    (hl : TargetState.lockOk cfg i.currentView p i.toProgress (i.ballots i.currentView) = true)
    (hv : (i.ballots i.currentView).voteStatus = .accepted) (hk : p.keyView < i.currentView)
    (hself : H' cfg.name = (H cfg.name).union (.ofStatement i.currentView .echo
      ⟨p.value, some p.keyView, (i.ballots i.currentView).voteOrigin⟩)) :
    Extends F H H' ∧ Honest F S cfg target H' accepted mayStart
      { c with
        inst := some (i.say cfg .echo
          ⟨p.value, some p.keyView, (i.ballots i.currentView).voteOrigin⟩) } := by
  have hfacts := hc.ballots i hi i.currentView
  have hprog := hc.progress i hi
  refine hc.sayStatement hname hi hother hs hself fun hE => ?_
  refine .ofStatement (fun _ => ?_) nofun fun f ht => ?_
  · refine ⟨p.keyView, rfl, hk, fun h0 => hE.backedBy (hc.backedBy hi hF (hb h0)), fun h0 => ?_,
      i.lockView, i.lockValue, ⟨?_, hprog.lockCur, ?_⟩, ?_⟩
    · obtain ⟨p', hp', hacc⟩ := hfacts.accepted hv
      obtain rfl : p' = p := Option.some.inj (hp'.symm.trans hp)
      rw [h0] at hacc
      exact ⟨p'.entry, (hfacts.proposal p' hp).symm, hacc⟩
    · exact (hE.le cfg.name).said hprog.lockSaid
    · intro r y _ hy
      rw [hself] at hy
      exact hprog.lockMax r y (hy.resolve_right fun hnew => nomatch hnew.2.1)
    · simp only [TargetState.lockOk, Bool.or_eq_true, Bool.and_eq_true, decide_eq_true_eq] at hl
      rcases hl with (hl | hl) | ⟨⟨-, hl⟩, ho⟩
      · exact .inl hl
      · exact .inr (.inl hl)
      · exact .inr (.inr ⟨hl, hE.opens (hfacts.opens hF ho)⟩)
  · simp [TargetState.transitions] at ht

theorem phase (hF : cfg.toConfig.Fits F) (hrel : Relay F S H)
    {fromPhase toPhase : DirectResolutionPhase}
    (ht : (fromPhase, toPhase) ∈ TargetState.transitions)
    (hq : InstCore.PhaseQuorum cfg (i.ballots i.currentView) fromPhase vote)
    (hs : (i.ballots i.currentView).sent toPhase = none)
    (he : fromPhase = .echo → ∃ p, (i.ballots i.currentView).proposal = some p ∧
      p.value = vote.2 ∧ (p.keyView = 0 → i.Backed cfg vote.2))
    (hself : H' cfg.name = (H cfg.name).union
      (.ofStatement i.currentView toPhase ⟨vote.2, none, none⟩)) :
    Extends F H H' ∧ Honest F S cfg target H' accepted mayStart
      { c with
        inst := some ((i.recordKey toPhase vote.2).say cfg toPhase ⟨vote.2, none, none⟩) } := by
  have hfacts := hc.ballots i hi i.currentView
  refine hc.sayStatement (x := ⟨vote.2, none, none⟩) hname hi hother hs hself fun hE => ?_
  refine .ofStatement ?_ ?_ fun f ht' hf => ?_
  · rintro rfl
    simp [TargetState.transitions] at ht
  · rintro rfl
    obtain rfl : fromPhase = .echo := by simpa [TargetState.transitions] using ht
    obtain ⟨p, hp, hpv, hb⟩ := he rfl
    have hecho := hfacts.echoed hF hp hpv hq
    exact ⟨⟨p.keyView, hE.echoed hecho, fun h0 => hE.backedBy (hc.backedBy hi hF (hb h0))⟩,
      hE.grounded (hrel.ground _ _ _ hecho)⟩
  · obtain rfl : f = fromPhase := by
      simp only [TargetState.transitions, List.mem_cons, Prod.mk.injEq, List.not_mem_nil,
        or_false] at ht ht'
      grind
    exact hE.phaseSaid (hfacts.phaseSaid hF hf hq)

end Honest

/-! ### Receiving -/

namespace Honest

variable (hF : cfg.toConfig.Fits F) (hc : Honest F S cfg target H accepted mayStart c)
  (hi : c.inst = some i)
include hc hi

section

omit [LinearOrder D]

theorem replay_le {x : DirectResolutionEffect K D} (hx : IsReplay S cfg target i x) :
    (history target cfg.name [x]).Le (H cfg.name) := by
  cases hx with
  | @statement view phase r q hl =>
    rw [history_statement rfl]
    have hs := ((hc.ballots i hi view).statements phase cfg.name r hl).2
    exact ⟨by rintro _ _ _ ⟨rfl, rfl, rfl⟩; exact hs, nofun, nofun, nofun, nofun, nofun⟩
  | @proof view m q hl =>
    obtain ⟨h1, h2, h3, -, hp⟩ := (hc.ballots i hi view).proofs cfg.name m hl
    obtain ⟨mt, mv, ms, k, v, k'⟩ := m
    subst h1 h2 h3
    rw [history_proof rfl]
    exact ⟨nofun, by rintro _ _ _ _ ⟨rfl, rfl, rfl, rfl⟩; exact hp, nofun, nofun, nofun, nofun⟩
  | @witness view value e q hl =>
    rw [history_witness rfl]
    have hw := (hc.ballots i hi view).backing value hl
    exact ⟨nofun, nofun, by rintro _ _ ⟨rfl, rfl⟩; exact hw, nofun, nofun, nofun⟩
  | @done value e q hl =>
    rw [history_done rfl]
    have hd := (hc.progress i hi).doneSent value hl
    exact ⟨nofun, nofun, nofun, by rintro _ rfl; exact hd, nofun, nofun⟩

theorem recvProof {m : DirectResolutionProof K D} (hm : m.target = target)
    (hq : m.sender ∈ F.members)
    (hp : (H m.sender).proof m.view m.key1View m.key1Value m.prevKey1) :
    Honest F S cfg target H accepted mayStart
      { c with
        inst := some (i.setBallot m.view
          { i.ballots m.view with
            proofs := (i.ballots m.view).proofs.insert m.sender m }) } := by
  have hb := hc.ballots i hi m.view
  refine hc.withBallot hi { hb with proofs := fun q m' hl => ?_ }
  rcases Table.lookup_insert_cases hl with ⟨rfl, rfl⟩ | hold
  · exact ⟨hm, rfl, rfl, hq, hp⟩
  · exact hb.proofs q m' hold

theorem recvStatement {m : DirectResolutionStatement K D} (hq : m.sender ∈ F.members)
    (hs : (H m.sender).statement m.view m.phase { m with }) :
    Honest F S cfg target H accepted mayStart
      { c with
        inst := some (i.setBallot m.view
          { i.ballots m.view with
            statements := Function.update (i.ballots m.view).statements m.phase
              (((i.ballots m.view).statements m.phase).insert m.sender
                { m with }) }) } := by
  have hb := hc.ballots i hi m.view
  refine hc.withBallot hi { hb with statements := fun ph q x hl => ?_ }
  dsimp only at hl
  by_cases hph : ph = m.phase
  · subst hph
    rw [Function.update_self] at hl
    rcases Table.lookup_insert_cases hl with ⟨rfl, rfl⟩ | hold
    · exact ⟨hq, hs⟩
    · exact hb.statements _ q x hold
  · rw [Function.update_of_ne hph] at hl
    exact hb.statements ph q x hl

theorem recvWitness {q : K} (hq : q ∈ F.members) (hw : (H q).witness view v) :
    Honest F S cfg target H accepted mayStart
      { c with
        inst := some (i.setBallot view
          { i.ballots view with
            backingWitnesses := (i.ballots view).backingWitnesses.insert q v }) } := by
  have hb := hc.ballots i hi view
  refine hc.withBallot hi { hb with witnesses := fun q' w hl => ?_ }
  rcases Table.lookup_insert_cases hl with ⟨rfl, rfl⟩ | hold
  · exact ⟨hq, hw⟩
  · exact hb.witnesses q' w hold

theorem recvDone {q : K} (hq : q ∈ F.members) (hd : (H q).done v) :
    Honest F S cfg target H accepted mayStart
      { c with inst := some { i with done := i.done.insert q v } } := by
  have hp := hc.progress i hi
  refine hc.withInst { hp with dones := fun q' w hl => ?_ } (hc.ballots i hi)
  rcases Table.lookup_insert_cases hl with ⟨rfl, rfl⟩ | hold
  · exact ⟨hq, hd⟩
  · exact hp.dones q' w hold

theorem propose {m : DirectResolutionProposal K D} (hn : (i.ballots m.view).proposal = none)
    (hv : m.value = valueDigest S m.entry) :
    Honest F S cfg target H accepted mayStart
      { c with
        inst := some (i.setBallot m.view { i.ballots m.view with proposal := some m }) } := by
  have hb := hc.ballots i hi m.view
  refine hc.withBallot hi { hb with proposal := ?_, request := ?_, accepted := ?_ }
  · rintro p ⟨⟩
    exact hv
  · intro v e f hr
    obtain ⟨p, hp, -⟩ := hb.request v e f hr
    rw [hn] at hp
    cases hp
  · intro hacc
    obtain ⟨p, hp, -⟩ := hb.accepted hacc
    rw [hn] at hp
    cases hp

theorem accept {origin : Option ℕ}
    (hI : ∃ v e fresh, (H cfg.name).request view v e fresh ∧ accepted e fresh origin) :
    Honest F S cfg target H accepted mayStart
      { c with
        inst := some (i.setBallot view
          { i.ballots view with voteStatus := .accepted, voteOrigin := origin }) } := by
  have hb := hc.ballots i hi view
  refine hc.withBallot hi { hb with accepted := fun _ => ?_ }
  obtain ⟨v, e, fresh, hr, hacc⟩ := hI
  obtain ⟨p', hp', rfl, rfl⟩ := hb.request v e fresh hr
  exact ⟨p', hp', hacc⟩

theorem setVote {status : VoteStatus} (hs : status ≠ .accepted) :
    Honest F S cfg target H accepted mayStart
      { c with
        inst := some (i.setBallot view { i.ballots view with voteStatus := status }) } :=
  hc.withBallot hi { hc.ballots i hi view with accepted := fun h => absurd h hs }

end

omit hi

theorem target?_of_step {I : ResolverInputs K D} (hstep : CoreStep S cfg target I c es c')
    {x : DirectResolutionEffect K D} (hx : x ∈ es) {t : ℕ} (ht : x.target? = some t) :
    t = target := by
  cases hstep with
  | quiet hq =>
    rw [DirectResolutionEffect.target?_of_isQuiet (hq x hx)] at ht
    cases ht
  | enter hi hv hm =>
    rw [List.mem_singleton.mp hx, hm] at ht
    exact (Option.some.inj ht).symm
  | decide hi he hv hq =>
    rw [List.mem_singleton.mp hx] at ht
    simp only [validEntry, Bool.and_eq_true, decide_eq_true_eq] at hv
    exact (Option.some.inj ht).symm.trans hv.1
  | replay hi hr =>
    rw [List.mem_singleton.mp hx] at ht
    cases hr with
    | proof q hl =>
      exact (Option.some.inj ht).symm.trans ((hc.ballots _ hi _).proofs _ _ hl).1
    | _ => exact (Option.some.inj ht).symm
  | request hi hp =>
    rw [List.mem_singleton.mp hx] at ht
    exact (Option.some.inj ht).symm
  | echo hi hp hs hb hl hv ho hk =>
    rw [List.mem_singleton.mp hx] at ht
    exact (Option.some.inj ht).symm
  | phase hi htr hq hs he =>
    rw [List.mem_singleton.mp hx] at ht
    exact (Option.some.inj ht).symm
  | witness hi hn he hq =>
    rw [List.mem_singleton.mp hx] at ht
    exact (Option.some.inj ht).symm
  | done hi hn he hq =>
    rw [List.mem_singleton.mp hx] at ht
    exact (Option.some.inj ht).symm
  | replayDecision q hd =>
    rw [List.mem_singleton.mp hx] at ht
    exact (Option.some.inj ht).symm
  | _ => cases hx

/-- Every step keeps a correct party honest, and adds only sayings with a reason. -/
theorem of_step (hF : cfg.toConfig.Fits F) (hname : cfg.name ∈ F.members) (hrel : Relay F S H)
    (hstep : CoreStep S cfg target
      (inputsOf cfg.committee target H cfg.name accepted mayStart) c es c')
    (hself : H' cfg.name = (H cfg.name).union (history target cfg.name es))
    (hother : ∀ q, q ≠ cfg.name → H' q = H q) :
    Extends F H H' ∧ Honest F S cfg target H' accepted mayStart c' := by
  have silent : (history target cfg.name es).Le (H cfg.name) → H' = H := by
    intro hle
    funext q
    by_cases hq : q = cfg.name
    · rw [hq, hself, History.union_eq_self hle]
    · exact hother q hq
  have hempty : ∀ h : History K D, History.Le .empty h :=
    fun _ => ⟨nofun, nofun, nofun, nofun, nofun, nofun⟩
  have hnil : history target cfg.name ([] : List (DirectResolutionEffect K D)) = .empty :=
    history_quiet nofun
  rw [inputsOf, hF.members] at hstep
  cases hstep with
  | quiet hq =>
    rw [silent (by rw [history_quiet hq]; exact hempty _)]
    exact ⟨.refl F H, hc⟩
  | create hi hd hI =>
    rw [silent (by rw [hnil]; exact hempty _)]
    exact ⟨.refl F H, hc.create hi hd hI⟩
  | enter hi hv hm =>
    rw [history_proof (by rw [hm]; rfl)] at hself
    exact hc.enter hname hi hother hv hm hself
  | recvProof hi hI hn =>
    rw [silent (by rw [hnil]; exact hempty _)]
    exact ⟨.refl F H, hc.recvProof hi hI.1 hI.2.1 hI.2.2⟩
  | propose hi hn hv he hk =>
    rw [silent (by rw [hnil]; exact hempty _)]
    exact ⟨.refl F H, hc.propose hi hn hv⟩
  | request hi hp =>
    rw [history_request] at hself
    exact hc.request hi hother hp hself
  | setVote view hi hs =>
    rw [silent (by rw [hnil]; exact hempty _)]
    exact ⟨.refl F H, hc.setVote hi hs⟩
  | accept hi hp hI =>
    rw [silent (by rw [hnil]; exact hempty _)]
    exact ⟨.refl F H, hc.accept hi ⟨_, hI⟩⟩
  | echo hi hp hs hb hl hv ho hk =>
    rw [history_statement rfl] at hself
    exact hc.echo hname hi hother hF hp hs hb hl hv hk hself
  | recvStatement hi hI hn =>
    rw [silent (by rw [hnil]; exact hempty _)]
    exact ⟨.refl F H, hc.recvStatement hi hI.2.1 hI.2.2⟩
  | phase hi ht hq hs he =>
    rw [history_statement rfl] at hself
    exact hc.phase hname hi hother hF hrel ht hq hs he hself
  | witness hi hn he hq =>
    rw [history_witness rfl] at hself
    exact hc.witness hname hi hother hF hrel hq hself
  | recvWitness hi hI hn =>
    rw [silent (by rw [hnil]; exact hempty _)]
    exact ⟨.refl F H, hc.recvWitness hi hI.1 hI.2⟩
  | done hi hn he hq =>
    rw [history_done rfl] at hself
    exact hc.done hname hi hother hF hrel hq hself
  | recvDone hi hI hn =>
    rw [silent (by rw [hnil]; exact hempty _)]
    exact ⟨.refl F H, hc.recvDone hi hI.1 hI.2⟩
  | decide hi he hv hq =>
    subst he
    simp only [validEntry, Bool.and_eq_true, decide_eq_true_eq] at hv
    rw [history_decide hv.1] at hself
    exact hc.decide hi hother hF hq hself
  | replay hi hx =>
    rw [silent (hc.replay_le hi hx)]
    exact ⟨.refl F H, hc⟩
  | replayDecision q hd =>
    -- The decided value is relayed even if the own DONE was for another one.
    rw [history_done rfl] at hself
    have hdone := hc.decided _ _ hd
    refine hc.sayQuietly hother hself (fun _ _ _ => id) (fun _ _ _ _ => id) fun hE => ?_
    refine { SayingFacts.empty with done := ?_ }
    rintro _ rfl
    refine hE.locked (hrel.done _ ?_)
    obtain ⟨A, hA, hcard, hP⟩ := hdone
    exact ⟨A, hA, FaultModel.f_lt_quorum.trans_le hcard, hP⟩

end Honest

end Vantage
