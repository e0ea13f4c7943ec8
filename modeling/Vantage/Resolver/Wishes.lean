import Mathlib.Order.Nat
import Vantage.Lib.OrderStat
import Vantage.Resolver.Calls

/-!
# View entry of one target

* `entriesOf`, `wishesOf`: the resolver views that a party has entered and wished for;
* `WishWorld`: what the other parties have wished for and how far the correct ones have come;
* `WishInv`: the views are entered one after another, each on the wishes of a quorum, and no wish
  runs ahead of the correct parties;
* `TargetStep.wishInv`, `WishInv.of_steps`: each step of a target preserves it.
-/

namespace Vantage

variable {K D : Type} [LinearOrder K] [LinearOrder D] [Inhabited D] {S : Session K D}
  {target : ℕ}

/-! ### Entries and wishes among the effects -/

namespace DirectResolutionEffect

/-- A PROOF is broadcast on the entry of its view. -/
def entered : DirectResolutionEffect K D → Option ℕ
  | .broadcastProof m => some m.view
  | _ => none

def wished : DirectResolutionEffect K D → Option ℕ
  | .broadcastWish m => some m.view
  | _ => none

/-- A wish that is repeated to one party. -/
def rewished : DirectResolutionEffect K D → Option ℕ
  | .wishTo _ m => some m.view
  | _ => none

/-- Neither an entry nor a wish. -/
def IsStill (x : DirectResolutionEffect K D) : Prop :=
  x.entered = none ∧ x.wished = none ∧ x.rewished = none

section

omit [LinearOrder K] [LinearOrder D] [Inhabited D]

theorem isStill_of_isPlain {x : DirectResolutionEffect K D} (h : x.isPlain = true) :
    x.IsStill := by
  cases x <;> first | exact ⟨rfl, rfl, rfl⟩ | cases h

theorem isStill_of_replayKey {x : DirectResolutionEffect K D} {k : K × ℕ × DirectReplayKind}
    (h : x.replayKey = some k) : x.IsStill := by
  cases x <;> first | exact ⟨rfl, rfl, rfl⟩ | cases h

end

end DirectResolutionEffect

open DirectResolutionEffect

def entriesOf (es : List (DirectResolutionEffect K D)) : List ℕ := es.filterMap entered

def wishesOf (es : List (DirectResolutionEffect K D)) : List ℕ := es.filterMap wished

section

omit [LinearOrder K] [LinearOrder D] [Inhabited D]

theorem entriesOf_append (es es' : List (DirectResolutionEffect K D)) :
    entriesOf (es ++ es') = entriesOf es ++ entriesOf es' := List.filterMap_append

theorem wishesOf_append (es es' : List (DirectResolutionEffect K D)) :
    wishesOf (es ++ es') = wishesOf es ++ wishesOf es' := List.filterMap_append

theorem entriesOf_still {es : List (DirectResolutionEffect K D)} (h : ∀ x ∈ es, x.IsStill) :
    entriesOf es = [] := List.filterMap_eq_nil_iff.mpr fun x hx => (h x hx).1

theorem wishesOf_still {es : List (DirectResolutionEffect K D)} (h : ∀ x ∈ es, x.IsStill) :
    wishesOf es = [] := List.filterMap_eq_nil_iff.mpr fun x hx => (h x hx).2.1

end

/-! ### The invariant -/

/-- What a party knows nothing of: who is Byzantine, whether the target may start, what the correct
parties have wished for, and the wishes that do not run ahead of them. -/
structure WishWorld (K : Type) where
  byzantine : Finset K
  mayStart : Prop
  wished : K → ℕ → Prop
  reached : ℕ → Prop

/-- A correct party does not wish further than one view beyond those that correct parties have
entered. -/
structure WishWorld.Sound (W : WishWorld K) (members : Finset K) : Prop where
  wished : ∀ q ∈ members, q ∉ W.byzantine → ∀ v, W.wished q v → v ≤ 1 ∨ W.reached v
  reached : ∀ v v', v ≤ v' → W.reached v' → W.reached v

section

variable (W : WishWorld K) (cfg : ResolverConfig K D)

/-- A party has wished for a view, as this party's effects or the others show. -/
def WishWorld.Wished (out : List (DirectResolutionEffect K D)) (q : K) (v : ℕ) : Prop :=
  q = cfg.name ∧ v ∈ wishesOf out ∨ W.wished q v

/-- A wish that may be counted: its sender is a member, and has wished unless it is Byzantine. -/
def WishWorld.Counts (out : List (DirectResolutionEffect K D)) (q : K) (v : ℕ) : Prop :=
  q ∈ cfg.committee.authorities ∧ (q ∉ W.byzantine → W.Wished cfg out q v)

/-- A view that is not further than one beyond those that correct parties have entered. -/
def WishWorld.Near (out : List (DirectResolutionEffect K D)) (v : ℕ) : Prop :=
  v ≤ 1 ∨ (∃ r ∈ entriesOf out, v ≤ r + 1) ∨ W.reached v

/-- Enough correct members have wished for a view or a later one. -/
def WishWorld.Supported (out : List (DirectResolutionEffect K D)) (r : ℕ) : Prop :=
  AtLeast cfg.committee.authorities
    (cfg.committee.size - 2 * (Thresholds.fromPartyCount cfg.committee.size).fParties) fun q =>
      q ∉ W.byzantine ∧ ∃ v, r ≤ v ∧ W.Wished cfg out q v

/-- View entry of a target and of everything it has emitted. -/
structure WishInv (s : TargetState S cfg.committee target)
    (out : List (DirectResolutionEffect K D)) : Prop where
  slot : ∀ i, s.inst = some i → ∀ q v, i.wishes.lookup q = some v → W.Counts cfg out q v
  passive : ∀ q v, s.passiveWishes.lookup q = some v → W.Counts cfg out q v
  own : ∀ i, s.inst = some i → i.ownWish = 0 ∨ i.ownWish ∈ wishesOf out
  current : ∀ i, s.inst = some i → i.currentView = i.enteredThrough ∧
    entriesOf out = List.range' 1 i.enteredThrough
  fresh : s.inst = none → s.decision = none → W.mayStart → entriesOf out = []
  consecutive : ∃ k, entriesOf out = List.range' 1 k
  near : ∀ v ∈ wishesOf out, W.Near out v
  supported : ∀ r ∈ entriesOf out, W.Supported cfg out r
  rewished : ∀ x ∈ out, ∀ v, x.rewished = some v → v ∈ wishesOf out

end

variable {W : WishWorld K} {cfg : ResolverConfig K D} {s s' : TargetState S cfg.committee target}
  {out es : List (DirectResolutionEffect K D)} {v : ℕ} {i : DirectInstance K D}

section

omit [LinearOrder K] [LinearOrder D] [Inhabited D]

theorem WishWorld.Wished.append {q : K} (h : W.Wished cfg out q v)
    (es : List (DirectResolutionEffect K D)) : W.Wished cfg (out ++ es) q v := by
  refine h.imp_left fun h => ⟨h.1, ?_⟩
  rw [wishesOf_append]
  exact List.mem_append_left _ h.2

theorem WishWorld.Counts.append {q : K} (h : W.Counts cfg out q v)
    (es : List (DirectResolutionEffect K D)) : W.Counts cfg (out ++ es) q v :=
  ⟨h.1, fun hq => (h.2 hq).append es⟩

theorem WishWorld.Near.append (h : W.Near out v) (es : List (DirectResolutionEffect K D)) :
    W.Near (out ++ es) v := by
  refine h.imp_right (Or.imp_left ?_)
  rintro ⟨r, hr, hv⟩
  refine ⟨r, ?_, hv⟩
  rw [entriesOf_append]
  exact List.mem_append_left _ hr

theorem WishWorld.Supported.append {r : ℕ} (h : W.Supported cfg out r)
    (es : List (DirectResolutionEffect K D)) : W.Supported cfg (out ++ es) r :=
  h.mono fun _ _ ⟨hq, v, hv, hw⟩ => ⟨hq, v, hv, hw.append es⟩

theorem WishWorld.Near.mono {members : Finset K} (hW : W.Sound members) {v v' : ℕ} (hv : v ≤ v')
    (h : W.Near out v') : W.Near out v := by
  rcases h with h | ⟨r, hr, h⟩ | h
  · exact .inl (hv.trans h)
  · exact .inr (.inl ⟨r, hr, hv.trans h⟩)
  · exact .inr (.inr (hW.reached _ _ hv h))

end

namespace WishInv

theorem near_of_wished (h : WishInv W cfg s out) (hW : W.Sound cfg.committee.authorities) {q : K}
    (hq : q ∈ cfg.committee.authorities) (hc : q ∉ W.byzantine) (hw : W.Wished cfg out q v) :
    W.Near out v := by
  rcases hw with ⟨-, hw⟩ | hw
  · exact h.near v hw
  · exact (hW.wished q hq hc v hw).imp_right .inr

theorem silent (h : WishInv W cfg s out)
    (hinst : ∀ i', s'.inst = some i' → ∃ i, s.inst = some i ∧ i'.ownWish = i.ownWish ∧
      i'.enteredThrough = i.enteredThrough ∧ i'.currentView = i.currentView ∧
      ∀ q v, i'.wishes.lookup q = some v → W.Counts cfg out q v)
    (hpassive : ∀ q v, s'.passiveWishes.lookup q = some v → W.Counts cfg out q v)
    (hfresh : s'.inst = none → s'.decision = none → s.inst = none ∧ s.decision = none) :
    WishInv W cfg s' out where
  slot i' hi' := by
    obtain ⟨i, -, -, -, -, hw⟩ := hinst i' hi'
    exact hw
  passive := hpassive
  own i' hi' := by
    obtain ⟨i, hi, ho, -⟩ := hinst i' hi'
    rw [ho]
    exact h.own i hi
  current i' hi' := by
    obtain ⟨i, hi, -, he, hc, -⟩ := hinst i' hi'
    rw [he, hc]
    exact h.current i hi
  fresh hn hd := h.fresh (hfresh hn hd).1 (hfresh hn hd).2
  consecutive := h.consecutive
  near := h.near
  supported := h.supported
  rewished := h.rewished

theorem emit (h : WishInv W cfg s out) (hes : entriesOf es = [])
    (hwish : ∀ v ∈ wishesOf es, W.Near out v)
    (hre : ∀ x ∈ es, ∀ v, x.rewished = some v → v ∈ wishesOf out) :
    WishInv W cfg s (out ++ es) := by
  have hentries : entriesOf (out ++ es) = entriesOf out := by
    rw [entriesOf_append, hes, List.append_nil]
  have hold : ∀ v ∈ wishesOf out, v ∈ wishesOf (out ++ es) := by
    intro v hv
    rw [wishesOf_append]
    exact List.mem_append_left _ hv
  refine ⟨fun i hi q v hl => (h.slot i hi q v hl).append _,
    fun q v hl => (h.passive q v hl).append _, fun i hi => (h.own i hi).imp_right (hold _),
    ?_, ?_, ?_, fun v hv => ?_, fun r hr => ?_, fun x hx v hv => hold v ?_⟩
  · rw [hentries]
    exact h.current
  · rw [hentries]
    exact h.fresh
  · rw [hentries]
    exact h.consecutive
  · rw [wishesOf_append] at hv
    exact ((List.mem_append.mp hv).elim (h.near v) (hwish v)).append es
  · rw [hentries] at hr
    exact (h.supported r hr).append es
  · exact (List.mem_append.mp hx).elim (fun hx => h.rewished x hx v hv) fun hx => hre x hx v hv

theorem emit_still (h : WishInv W cfg s out) (hes : ∀ x ∈ es, x.IsStill) :
    WishInv W cfg s (out ++ es) := by
  refine h.emit (entriesOf_still hes) (fun v hv => ?_) fun x hx v hv => ?_
  · rw [wishesOf_still hes] at hv
    cases hv
  · rw [(hes x hx).2.2] at hv
    cases hv

theorem emit_wish (h : WishInv W cfg s out) (hv : W.Near out v) :
    WishInv W cfg s (out ++ [.broadcastWish ⟨target, v, cfg.name⟩]) := by
  refine h.emit rfl (fun x hx => ?_) fun x hx y hy => ?_
  · rw [List.mem_singleton.mp hx]
    exact hv
  · rw [List.mem_singleton.mp hx] at hy
    cases hy

theorem atLeast (h : WishInv W cfg s out) (hi : s.inst = some i) {v k : ℕ} (hv : 0 < v) (hk : 0 < k)
    (hle : v ≤ TargetState.kthLargest (TargetState.wishViews i) k) :
    AtLeast cfg.committee.authorities k fun q =>
      q ∉ W.byzantine → ∃ x, v ≤ x ∧ W.Wished cfg out q x := by
  have hkeys : ∀ q ∈ i.wishes.keys, q ∈ cfg.committee.authorities := by
    intro q hq
    obtain ⟨x, hx⟩ := Option.isSome_iff_exists.mp (AList.lookup_isSome.mpr (AList.mem_keys.mpr hq))
    exact (h.slot i hi q x hx).1
  refine (OrderStat.atLeast_of_le_kthLargest i.wishes.keys_nodup hkeys i.wishes.lookup hv hk
    hle).mono ?_
  rintro q - ⟨x, hx, hvx⟩ hq
  exact ⟨x, hvx, (h.slot i hi q x hx).2 hq⟩

theorem mono {W' : WishWorld K} (h : WishInv W cfg s out) (hb : W'.byzantine = W.byzantine)
    (hw : ∀ q v, W.wished q v → W'.wished q v) (hr : ∀ v, W.reached v → W'.reached v)
    (hm : W'.mayStart → W.mayStart) : WishInv W' cfg s out := by
  have hwished : ∀ {q v}, W.Wished cfg out q v → W'.Wished cfg out q v :=
    fun h => h.imp_right (hw _ _)
  have hcounts : ∀ {q v}, W.Counts cfg out q v → W'.Counts cfg out q v :=
    fun h => ⟨h.1, fun hq => hwished (h.2 (hb ▸ hq))⟩
  refine ⟨fun i hi q v hl => hcounts (h.slot i hi q v hl), fun q v hl => hcounts (h.passive q v hl),
    h.own, h.current, fun hn hd ht => h.fresh hn hd (hm ht), h.consecutive,
    fun v hv => (h.near v hv).imp_right (Or.imp_right (hr v)), fun r hr => ?_, h.rewished⟩
  exact (h.supported r hr).mono fun q _ ⟨hq, v, hv, h⟩ => ⟨hb ▸ hq, v, hv, hwished h⟩

theorem prune (h : WishInv W cfg s out) (hm : ¬W.mayStart) :
    WishInv W cfg ({} : TargetState S cfg.committee target) out where
  slot i hi := by cases hi
  passive q v hl := by cases hl
  own i hi := by cases hi
  current i hi := by cases hi
  fresh _ _ ht := absurd ht hm
  consecutive := h.consecutive
  near := h.near
  supported := h.supported
  rewished := h.rewished

theorem start (h : WishInv W cfg s out) (hi : s.inst = none) (hd : s.decision = none)
    (hm : W.mayStart) : WishInv W cfg { s with inst := some {} } out where
  slot i hi q v hl := by
    cases hi
    cases hl
  passive := h.passive
  own i hi := by
    cases hi
    exact .inl rfl
  current i hi' := by
    cases hi'
    exact ⟨rfl, h.fresh hi hd hm⟩
  fresh hn := by cases hn
  consecutive := h.consecutive
  near := h.near
  supported := h.supported
  rewished := h.rewished

theorem setOwnWish (h : WishInv W cfg s out) (hi : s.inst = some i)
    (hself : cfg.name ∈ cfg.committee.authorities) (hv : v ∈ wishesOf out) :
    WishInv W cfg
      { s with
        inst := some { i with ownWish := v, wishes := i.wishes.insert cfg.name v } } out where
  slot j hj q x hl := by
    cases hj
    by_cases hq : q = cfg.name
    · subst hq
      rw [AList.lookup_insert] at hl
      cases hl
      exact ⟨hself, fun _ => .inl ⟨rfl, hv⟩⟩
    · rw [AList.lookup_insert_ne hq] at hl
      exact h.slot i hi q x hl
  passive := h.passive
  own j hj := by
    cases hj
    exact .inr hv
  current j hj := by
    cases hj
    exact h.current i hi
  fresh hn := by cases hn
  consecutive := h.consecutive
  near := h.near
  supported := h.supported
  rewished := h.rewished

theorem enter (h : WishInv W cfg s out) {i i' : DirectInstance K D} (hi : s.inst = some i)
    (ho : i'.ownWish = i.ownWish) (hw : i'.wishes = i.wishes)
    (he : i'.enteredThrough = i.enteredThrough + 1) (hc : i'.currentView = i.enteredThrough + 1)
    (hes : entriesOf es = [i.enteredThrough + 1]) (hnone : wishesOf es = [])
    (hre : ∀ x ∈ es, x.rewished = none)
    (hsup : W.Supported cfg out (i.enteredThrough + 1)) :
    WishInv W cfg { s with inst := some i' } (out ++ es) := by
  have hentries : entriesOf (out ++ es) = List.range' 1 i'.enteredThrough := by
    rw [entriesOf_append, hes, (h.current i hi).2, he, List.range'_1_concat, Nat.add_comm 1]
  have hwishes : wishesOf (out ++ es) = wishesOf out := by
    rw [wishesOf_append, hnone, List.append_nil]
  refine ⟨fun j hj q x hl => ?_, fun q x hl => (h.passive q x hl).append _, fun j hj => ?_,
    fun j hj => ?_, fun hn => ?_, ⟨_, hentries⟩, fun x hx => ?_, fun r hr => ?_,
    fun x hx y hy => ?_⟩
  · cases hj
    rw [hw] at hl
    exact (h.slot i hi q x hl).append _
  · cases hj
    rw [hwishes, ho]
    exact h.own i hi
  · cases hj
    exact ⟨by rw [hc, he], hentries⟩
  · cases hn
  · rw [hwishes] at hx
    exact (h.near x hx).append _
  · rw [entriesOf_append, hes] at hr
    rcases List.mem_append.mp hr with hr | hr
    · exact (h.supported r hr).append _
    · rw [List.mem_singleton.mp hr]
      exact hsup.append _
  · rw [hwishes]
    rcases List.mem_append.mp hx with hx | hx
    · exact h.rewished x hx y hy
    · rw [hre x hx] at hy
      cases hy

end WishInv

section Faults

variable {J : CallInputs K D}

theorem WishInv.near_of_raise (h : WishInv W cfg s out) (hW : W.Sound cfg.committee.authorities)
    (hf : (cfg.committee.authorities ∩ W.byzantine).card ≤
      (Thresholds.fromPartyCount cfg.committee.size).fParties) (hi : s.inst = some i) (hpos : 0 < v)
    (hv : v = 1 ∨ v = i.currentView + 1 ∨
      v = TargetState.kthLargest (TargetState.wishViews i) cfg.fPlus1Parties) : W.Near out v := by
  rcases hv with rfl | rfl | hv
  · exact .inl le_rfl
  · obtain ⟨hcur, hent⟩ := h.current i hi
    by_cases hzero : i.currentView = 0
    · exact .inl (by omega)
    · refine .inr (.inl ⟨i.currentView, ?_, le_rfl⟩)
      rw [hent, List.mem_range'_1]
      omega
  · -- one of `f + 1` wishers is correct
    obtain ⟨q, hq, hc, hw⟩ := (h.atLeast hi hpos (Nat.succ_pos _) hv.le).exists_notMem
      (Nat.lt_succ_of_le hf)
    obtain ⟨x, hvx, hx⟩ := hw hc
    exact (h.near_of_wished hW hq hc hx).mono hW hvx

theorem WishInv.supported_of_quorum (h : WishInv W cfg s out)
    (hf : (cfg.committee.authorities ∩ W.byzantine).card ≤
      (Thresholds.fromPartyCount cfg.committee.size).fParties) (hi : s.inst = some i) (hpos : 0 < v)
    (hv : v ≤ TargetState.kthLargest (TargetState.wishViews i) cfg.quorumParties) :
    W.Supported cfg out v := by
  obtain ⟨A, hA, hcard, hwish⟩ := h.atLeast hi hpos (TargetState.quorumParties_pos cfg) hv
  refine ⟨A \ W.byzantine, Finset.sdiff_subset.trans hA, ?_, fun q hq => ?_⟩
  · have hcorrect := FaultModel.card_sub_le_correct
      (F := cfg.committee.faultModel W.byzantine hf) hA
    have hquorum : cfg.quorumParties = cfg.committee.size -
      (Thresholds.fromPartyCount cfg.committee.size).fParties := rfl
    simp only [Committee.faultModel] at hcorrect
    omega
  · obtain ⟨hqA, hqc⟩ := Finset.mem_sdiff.mp hq
    exact ⟨hqc, hwish q hqA hqc⟩

/-- Each step of a correct party keeps view entry in order. -/
theorem TargetStep.wishInv (h : TargetStep cfg J s es s') (hW : W.Sound cfg.committee.authorities)
    (hf : (cfg.committee.authorities ∩ W.byzantine).card ≤
      (Thresholds.fromPartyCount cfg.committee.size).fParties)
    (hself : cfg.name ∈ cfg.committee.authorities) (hstart : J.mayStart → W.mayStart)
    (hwish : ∀ q v, J.wish q v → W.Counts cfg [] q v) (hinv : WishInv W cfg s out) :
    WishInv W cfg s' (out ++ es) := by
  have hcounts : ∀ q v, J.wish q v → W.Counts cfg out q v := by
    intro q v hq
    have := (hwish q v hq).append out
    rwa [List.nil_append] at this
  -- the wishes change at most, and all of them count
  have inst : ∀ {i i' : DirectInstance K D}, s.inst = some i → i'.ownWish = i.ownWish →
      i'.enteredThrough = i.enteredThrough → i'.currentView = i.currentView →
      (∀ q v, i'.wishes.lookup q = some v → W.Counts cfg out q v) →
      WishInv W cfg { s with inst := some i' } out := by
    intro i i' hi ho he hc hw
    refine hinv.silent (fun j hj => ?_) hinv.passive fun hn => ?_
    · cases hj
      exact ⟨i, hi, ho, he, hc, hw⟩
    · cases hn
  -- nothing that matters changes
  have outer : ∀ {t : TargetState S cfg.committee target}, t.inst = s.inst →
      t.decision = s.decision →
      (∀ q v, t.passiveWishes.lookup q = some v → W.Counts cfg out q v) →
      WishInv W cfg t out := by
    intro t hi hd hp
    refine hinv.silent (fun j hj => ?_) hp fun hn hd' => ⟨hi ▸ hn, hd ▸ hd'⟩
    rw [hi] at hj
    exact ⟨j, hj, rfl, rfl, rfl, hinv.slot j hj⟩
  cases h with
  | inner h =>
    have hstill := h.still
    refine WishInv.emit_still (hinv.silent (fun i' hi' => ?_) ?_ fun hn hd => ?_) ?_
    · obtain ⟨i, hi, hpart, -⟩ := hstill.inst i' hi'
      simp only [DirectInstance.entryPart, Prod.mk.injEq] at hpart
      refine ⟨i, hi, hpart.1.1, hpart.2.1, hpart.2.2.1, ?_⟩
      rw [hpart.1.2]
      exact hinv.slot i hi
    · rw [hstill.passiveWishes]
      exact hinv.passive
    · have hnone : s.inst = none := by
        by_contra hsome
        rcases hstill.alive (Option.isSome_iff_ne_none.mpr hsome) with h | h
        · rw [hn] at h
          cases h
        · rw [hd] at h
          cases h
      exact ⟨hnone, (hstill.idle hnone).symm.trans hd⟩
    · cases h with
      | plain h => exact fun x hx => isStill_of_isPlain (h x hx).1
      | _ => exact fun x hx => absurd hx List.not_mem_nil
  | @retain e _ _ =>
    rw [List.append_nil]
    obtain ⟨values, h⟩ := TargetState.rememberEntry_eq e s
    rw [h]
    exact outer rfl rfl hinv.passive
  | bar =>
    rw [List.append_nil]
    exact outer rfl rfl hinv.passive
  | start hi hd hJ =>
    rw [List.append_nil]
    exact hinv.start hi hd (hstart hJ)
  | @join i wishes hi hw =>
    rw [List.append_nil]
    refine hinv.silent (fun j hj => ?_) (fun q v hl => ?_) fun hn => ?_
    · cases hj
      refine ⟨i, hi, rfl, rfl, rfl, fun q v hl => ?_⟩
      exact (hw q v hl).elim (hinv.slot i hi q v) (hinv.passive q v)
    · cases hl
    · cases hn
  | @passive q v hJ =>
    rw [List.append_nil]
    exact outer rfl rfl (Table.forall_insert hinv.passive (hcounts q v hJ))
  | @wish i q v hi hJ =>
    rw [List.append_nil]
    exact inst hi rfl rfl rfl (Table.forall_insert (hinv.slot i hi) (hcounts q v hJ))
  | @raise i v hi hlt hv =>
    have hnear := hinv.near_of_raise hW hf hi (Nat.zero_lt_of_lt hlt) hv
    refine (hinv.emit_wish hnear).setOwnWish hi hself ?_
    rw [wishesOf_append]
    exact List.mem_append_right _ (List.mem_singleton_self v)
  | @rewish i hi =>
    refine hinv.emit_wish ?_
    rcases hinv.own i hi with hzero | hown
    · exact .inl (by omega)
    · exact hinv.near _ hown
  | @candidates i _ hi _ =>
    rw [List.append_nil]
    exact inst hi rfl rfl rfl (hinv.slot i hi)
  | @enter i st v suggest proof hi hv hq hst hs hp =>
    have hsup := hinv.supported_of_quorum hf hi (by omega) hq
    subst hv
    have hsuggest : ∀ x ∈ (if resolutionLeader cfg target (i.enteredThrough + 1) ≠ cfg.name then
        [suggestTo (resolutionLeader cfg target (i.enteredThrough + 1)) suggest] else [] :
          List (DirectResolutionEffect K D)), x.IsStill := by
      intro x hx
      split at hx
      · rw [List.mem_singleton.mp hx]
        exact ⟨rfl, rfl, rfl⟩
      · cases hx
    refine hinv.enter hi rfl rfl rfl rfl ?_ ?_ (fun x hx => ?_) hsup
    · have hentered : (broadcastProof proof).entered = some (i.enteredThrough + 1) :=
        congrArg some hp.2
      rw [entriesOf, List.filterMap_cons_some hentered]
      exact congrArg (List.cons _) (entriesOf_still hsuggest)
    · rw [wishesOf, List.filterMap_cons_none rfl]
      exact wishesOf_still hsuggest
    · rcases List.mem_cons.mp hx with rfl | hx
      · rfl
      · exact (hsuggest x hx).2.2
  | serve _ _ _ =>
    exact WishInv.emit_still (outer rfl rfl hinv.passive) fun x hx => by
      rw [List.mem_singleton.mp hx]
      exact ⟨rfl, rfl, rfl⟩
  | @replay i _ _ _ _ hi hl hk _ =>
    refine WishInv.emit_still (inst hi rfl rfl rfl (hinv.slot i hi)) fun x hx => ?_
    obtain ⟨y, hy, rfl⟩ := List.mem_map.mp hx
    exact isStill_of_replayKey (hk y hy).1
  | @replayWish i q hi hlt =>
    refine WishInv.emit (inst hi rfl rfl rfl (hinv.slot i hi)) rfl
      (fun x hx => absurd hx List.not_mem_nil) fun x hx v hv => ?_
    rw [List.mem_singleton.mp hx] at hv
    cases hv
    exact (hinv.own i hi).resolve_left (by omega)
  | replayDone _ _ _ _ =>
    exact WishInv.emit_still (outer rfl rfl hinv.passive) fun x hx => by
      rw [List.mem_singleton.mp hx]
      exact ⟨rfl, rfl, rfl⟩

theorem WishInv.of_steps (h : Steps (TargetStep cfg J) s es s')
    (hW : W.Sound cfg.committee.authorities)
    (hf : (cfg.committee.authorities ∩ W.byzantine).card ≤
      (Thresholds.fromPartyCount cfg.committee.size).fParties)
    (hself : cfg.name ∈ cfg.committee.authorities) (hstart : J.mayStart → W.mayStart)
    (hwish : ∀ q v, J.wish q v → W.Counts cfg [] q v) (hinv : WishInv W cfg s out) :
    WishInv W cfg s' (out ++ es) :=
  h.invariant (I := WishInv W cfg)
    (fun _ _ _ _ hI hstep => hstep.wishInv hW hf hself hstart hwish hI) hinv

end Faults

end Vantage
