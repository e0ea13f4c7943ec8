import Vantage.Sequence.Transfer

/-!
# What the verifiers accept

* `chainRecords`, `viewGet`: the records that follow a head, by view;
* `ChainVerifier.Follows`: the verifier has followed a chain of records from its base;
* `DeltaVerifier.absorb_ok`: what a verifier of items accepts;
* `SequenceTransfer.firstMissing_none`: what a scan finds.
-/

namespace Vantage

/-! ### Records that follow a head -/

section Records

variable {K D : Type} {S : SequenceSession K D} {i : ℕ}

/-- The records of the given bodies after the view `i` with the given head. -/
def chainRecords (S : SequenceSession K D) : ℕ → D → List (RecordBody D) → List (SequenceRecord D)
  | _, _, [] => []
  | i, head, b :: bs =>
    b.toRecord (i + 1) head :: chainRecords S (i + 1) ((recordChain S).link i head b) bs

@[simp] theorem length_chainRecords {head : D} {bs : List (RecordBody D)} :
    (chainRecords S i head bs).length = bs.length := by
  induction bs generalizing i head with
  | nil => rfl
  | cons b bs ih => rw [chainRecords, List.length_cons, ih, List.length_cons]

theorem chainRecords_append {head : D} {as bs : List (RecordBody D)} :
    chainRecords S i head (as ++ bs) = chainRecords S i head as ++
      chainRecords S (i + as.length) ((recordChain S).runFrom i head as) bs := by
  induction as generalizing i head with
  | nil => rfl
  | cons a as ih =>
    simp only [List.cons_append, chainRecords, ih, Chain.runFrom_cons, List.length_cons]
    rw [show i + 1 + as.length = i + (as.length + 1) by omega]

/-- The element for a view, of a list for the views after `i`. -/
def viewGet {α : Type} (i : ℕ) (l : List α) (view : ℕ) : Option α :=
  if view ≤ i then none else l[view - (i + 1)]?

variable {view : ℕ}

theorem viewGet_isSome {α : Type} {l : List α} :
    (viewGet i l view).isSome = true ↔ i < view ∧ view ≤ i + l.length := by
  unfold viewGet
  split
  · simp
    omega
  · simp
    omega

theorem viewGet_concat {α : Type} {l : List α} {a : α} :
    viewGet i (l ++ [a]) view =
      if view = i + l.length + 1 then some a else viewGet i l view := by
  unfold viewGet
  by_cases hv : view = i + l.length + 1
  · subst hv
    rw [if_pos rfl, if_neg (by omega), show i + l.length + 1 - (i + 1) = l.length by omega,
      List.getElem?_concat_length]
  · rw [if_neg hv]
    split
    · rfl
    · rcases Nat.lt_or_ge (view - (i + 1)) l.length with hlt | hge
      · rw [List.getElem?_append_left hlt]
      · rw [List.getElem?_eq_none (by simp; omega), List.getElem?_eq_none hge]

theorem viewGet_chainRecords {head : D} {bs : List (RecordBody D)} {r : SequenceRecord D}
    (h : viewGet i (chainRecords S i head bs) view = some r) :
    ∃ b, viewGet i bs view = some b ∧
      r = b.toRecord view ((recordChain S).runFrom i head (bs.take (view - (i + 1)))) := by
  induction bs using List.reverseRecOn with
  | nil =>
    unfold viewGet at h
    split at h <;> cases h
  | append_singleton bs b ih =>
    rw [chainRecords_append, chainRecords, chainRecords, viewGet_concat, length_chainRecords] at h
    rw [viewGet_concat]
    by_cases hv : view = i + bs.length + 1
    · rw [if_pos hv] at h ⊢
      refine ⟨b, rfl, ?_⟩
      rw [← Option.some.inj h, hv, show i + bs.length + 1 - (i + 1) = bs.length by omega,
        List.take_left]
    · rw [if_neg hv] at h ⊢
      obtain ⟨b', hb', hr⟩ := ih h
      refine ⟨b', hb', ?_⟩
      have := viewGet_isSome.mp (Option.isSome_of_eq_some hb')
      rw [hr, List.take_append_of_le_length (by omega)]

variable [DecidableEq D]

theorem checkRecords_ok {target i view : ℕ} {head head' : D} {records : List (SequenceRecord D)}
    (h : ChainVerifier.checkRecords S target (i + 1) head records = .ok (view, head')) :
    ∃ bs, records = chainRecords S i head bs ∧ view = i + bs.length + 1 ∧
      head' = (recordChain S).runFrom i head bs ∧ (i ≤ target → i + bs.length ≤ target) := by
  induction records generalizing i head with
  | nil =>
    cases h
    exact ⟨[], rfl, rfl, rfl, fun hi => hi⟩
  | cons r records ih =>
    rw [ChainVerifier.checkRecords] at h
    split at h
    · cases h
    · next hversion =>
      split at h
      · cases h
      · next htarget =>
        split at h
        · cases h
        · next hview =>
          split at h
          · cases h
          · next hprevious =>
            obtain ⟨bs, rfl, rfl, rfl, hle⟩ := ih h
            obtain ⟨version, v, previous, outcome, len, delta⟩ := r
            simp only [ne_eq, Decidable.not_not] at hversion hview hprevious
            subst hversion hview hprevious
            refine ⟨⟨outcome, len, delta⟩ :: bs, rfl, ?_, rfl, fun _ => ?_⟩
            · rw [List.length_cons]
              omega
            · have := hle (by omega)
              rw [List.length_cons]
              omega

omit [DecidableEq D] in
theorem lookup_foldl_insert {head : D} {as bs : List (RecordBody D)}
    {m : Table ℕ (SequenceRecord D)}
    (hm : ∀ view, m.lookup view = viewGet i (chainRecords S i head as) view) (view : ℕ) :
    ((chainRecords S (i + as.length) ((recordChain S).runFrom i head as) bs).foldl
        (fun m r => m.insert r.view r) m).lookup view =
      viewGet i (chainRecords S i head (as ++ bs)) view := by
  induction bs generalizing as m with
  | nil => rw [List.append_nil, chainRecords, List.foldl_nil, hm]
  | cons b bs ih =>
    have hstep : chainRecords S (i + as.length + 1)
          ((recordChain S).link (i + as.length) ((recordChain S).runFrom i head as) b) bs =
        chainRecords S (i + (as ++ [b]).length) ((recordChain S).runFrom i head (as ++ [b]))
          bs := by
      rw [List.length_append, List.length_singleton, Chain.runFrom_concat, Nat.add_assoc]
    rw [chainRecords, List.foldl_cons, hstep, ih, List.append_assoc, List.singleton_append]
    intro v
    rw [chainRecords_append, chainRecords, chainRecords, viewGet_concat, length_chainRecords,
      ← hm]
    by_cases hv : v = i + as.length + 1
    · subst hv
      rw [if_pos rfl]
      exact AList.lookup_insert _
    · rw [if_neg hv]
      exact AList.lookup_insert_ne hv

end Records

/-! ### The chain verifier -/

namespace ChainVerifier

variable {K D : Type} [DecidableEq K] [DecidableEq D] {S : SequenceSession K D}
  {c c' : ChainVerifier S} {base : ℕ} {baseHead : D} {bs : List (RecordBody D)}

/-- The verifier has followed the records of `bs` from the base on. -/
structure Follows (base : ℕ) (baseHead : D) (c : ChainVerifier S) (bs : List (RecordBody D)) :
    Prop where
  nextView : c.nextView = base + bs.length + 1
  head : c.head = (recordChain S).runFrom base baseHead bs
  verified : ∀ view, c.verifiedRecord view = viewGet base (chainRecords S base baseHead bs) view
  le_target : base + bs.length ≤ c.targetView
  complete : c.complete = true → base + bs.length = c.targetView ∧ c.head = c.targetHead

omit [DecidableEq K] [DecidableEq D] in
theorem follows_new {target : ℕ} {targetHead : D} (h : base ≤ target) :
    (new S base baseHead target targetHead).Follows base baseHead [] where
  nextView := rfl
  head := rfl
  verified view := by
    unfold viewGet
    split <;> rfl
  le_target := h
  complete h := by cases h

omit [DecidableEq K] [DecidableEq D] in
theorem Follows.isSome (h : c.Follows base baseHead bs) :
    (c.verifiedRecord view).isSome = true ↔ base < view ∧ view ≤ base + bs.length := by
  rw [h.verified, viewGet_isSome, length_chainRecords]

omit [DecidableEq K] in
theorem Follows.absorb (h : c.Follows base baseHead bs) {records : List (SequenceRecord D)}
    {reached : Bool} (ha : c.absorbRecords records = .ok (reached, c')) :
    (∃ bs', records = chainRecords S (base + bs.length) c.head bs' ∧
        c'.Follows base baseHead (bs ++ bs')) ∧
      c'.targetView = c.targetView ∧ c'.targetHead = c.targetHead ∧ c'.complete = reached := by
  unfold absorbRecords at ha
  split at ha
  · cases ha
  · next view head hcheck =>
    rw [h.nextView] at hcheck
    obtain ⟨bs', rfl, rfl, rfl, hle⟩ := checkRecords_ok hcheck
    simp only at ha
    split at ha
    · cases ha
    · next hreached =>
      cases ha
      refine ⟨⟨bs', rfl, ⟨?_, ?_, fun view => ?_, ?_, fun hc => ?_⟩⟩, rfl, rfl, rfl⟩
      · simp only [List.length_append]
        omega
      · rw [Chain.runFrom_append, h.head]
      · rw [h.head]
        exact lookup_foldl_insert h.verified view
      · have := hle h.le_target
        simp only [List.length_append]
        omega
      · simp only [decide_eq_true_eq] at hc
        have hle := hle h.le_target
        simp only [List.length_append]
        refine ⟨by omega, ?_⟩
        by_contra hne
        exact hreached ⟨decide_eq_true hc, hne⟩

omit [DecidableEq K] [DecidableEq D] in
theorem Follows.mono {bs' : List (RecordBody D)} (h : c.Follows base baseHead bs)
    (h' : c'.Follows base baseHead (bs ++ bs')) {r : SequenceRecord D}
    (hr : c.verifiedRecord view = some r) : c'.verifiedRecord view = some r := by
  have hv := h.isSome.mp (Option.isSome_of_eq_some hr)
  rw [h.verified, viewGet, if_neg (by omega)] at hr
  rw [h'.verified, viewGet, if_neg (by omega), chainRecords_append,
    List.getElem?_append_left (by rw [length_chainRecords]; omega), hr]

theorem checkOutcome_ok {o : SequenceOutcome K D} (h : c.checkOutcome view o = .ok ()) :
    ∃ r, c.verifiedRecord view = some r ∧ o.digest S view = r.outcomeDigest := by
  unfold checkOutcome at h
  split at h
  · cases h
  · next r hr =>
    split at h
    · cases h
    · next hd => exact ⟨r, hr, Decidable.not_not.mp hd⟩

end ChainVerifier

namespace DeltaVerifier

variable {K D : Type} [DecidableEq D] {S : SequenceSession K D} {v v' : DeltaVerifier S}

theorem absorb_ok {start : ℕ} {items : List D} {complete : Bool}
    (h : v.absorb start items = .ok (complete, v')) :
    start = v.nextIndex ∧ v.nextIndex + items.length ≤ v.expectedLen ∧ v' = v.extend items ∧
      (complete = true ↔ v.nextIndex + items.length = v.expectedLen) ∧
      (complete = true → v'.running = v.expectedHead) := by
  unfold absorb at h
  split at h
  · cases h
  · next hstart =>
    split at h
    · cases h
    · next hlen =>
      simp only at h
      split at h
      · cases h
      · next hmatch =>
        cases h
        refine ⟨Decidable.not_not.mp hstart, Nat.not_lt.mp hlen, rfl, decide_eq_true_iff,
          fun hc => ?_⟩
        by_contra hne
        exact hmatch ⟨hc, hne⟩

end DeltaVerifier

/-! ### Missing views -/

namespace SequenceTransfer

variable {K D : Type} [DecidableEq K] [DecidableEq D] {S : SequenceSession K D}

section Missing

omit [DecidableEq K] [DecidableEq D]

variable {t : SequenceTransfer S} {held : ℕ → Bool} {position : ℕ}

/-- A scan has passed only views with a record and a body. -/
def Passed (t : SequenceTransfer S) (held : ℕ → Bool) (position : ℕ) : Prop :=
  ∀ view, 1 ≤ view → view < position →
    (t.chain.verifiedRecord view).isSome = true ∧ held view = true

theorem scan_spec (t : SequenceTransfer S) (held : ℕ → Bool) (fuel view : ℕ)
    (hfuel : t.targetView + 1 - view ≤ fuel) :
    (∀ v, view ≤ v → v < (t.scan held fuel view).1 →
        (t.chain.verifiedRecord v).isSome = true ∧ held v = true) ∧
      view ≤ (t.scan held fuel view).1 ∧
      ∀ m, (t.scan held fuel view).2 = some m →
        m = (t.scan held fuel view).1 ∧ m ≤ t.targetView ∧ t.isMissing held m = true := by
  induction fuel generalizing view with
  | zero =>
    refine ⟨fun v hv hlt => ?_, le_rfl, fun m hm => ?_⟩
    · simp only [scan] at hlt
      omega
    · cases hm
  | succ fuel ih =>
    rw [scan]
    split
    · refine ⟨fun v hv hlt => ?_, le_rfl, fun m hm => by cases hm⟩
      simp only at hlt
      omega
    · next htarget =>
      split
      · refine ⟨fun v hv hlt => ?_, le_rfl, fun m hm => by cases hm⟩
        simp only at hlt
        omega
      · next hrecord =>
        rw [Bool.not_eq_true, Option.isNone_eq_false_iff] at hrecord
        split
        · next hheld =>
          refine ⟨fun v hv hlt => ?_, le_rfl, fun m hm => ?_⟩
          · simp only at hlt
            omega
          · cases hm
            refine ⟨rfl, by omega, ?_⟩
            rw [isMissing, hrecord, hheld, Bool.and_self]
        · next hheld =>
          rw [Bool.not_eq_true, Bool.not_eq_false'] at hheld
          obtain ⟨hpassed, hle, hsome⟩ := ih (view + 1) (by omega)
          refine ⟨fun v hv hlt => ?_, by omega, hsome⟩
          rcases Nat.eq_or_lt_of_le hv with rfl | hv
          · exact ⟨hrecord, hheld⟩
          · exact hpassed v hv hlt

theorem firstMissing_eq :
    t.firstMissing held position =
      ((t.viewsFrom (t.scan held (t.targetView + 1 - position) position).1).find?
        (t.isMissing held), (t.scan held (t.targetView + 1 - position) position).1) := by
  obtain ⟨-, -, hsome⟩ := scan_spec t held _ position le_rfl
  unfold firstMissing
  split
  · next view missing hscan =>
    rw [hscan] at hsome ⊢
    obtain ⟨rfl, hle, hmiss⟩ := hsome _ rfl
    have hviews : t.viewsFrom missing =
        missing :: List.range' (missing + 1) (t.targetView - missing) := by
      rw [viewsFrom, Nat.sub_add_comm hle, List.range'_succ]
    rw [hviews, List.find?_cons_of_pos hmiss]
  · next view hscan => rw [hscan]

theorem Passed.scan (h : t.Passed held position) :
    t.Passed held (t.scan held (t.targetView + 1 - position) position).1 := by
  obtain ⟨hpassed, -, -⟩ := scan_spec t held _ position le_rfl
  intro v hv hlt
  rcases Nat.lt_or_ge v position with hlow | hhigh
  · exact h v hv hlow
  · exact hpassed v hhigh hlt

theorem Passed.isMissing (h : t.Passed held position) {v : ℕ} (hv : 1 ≤ v) (hlt : v < position) :
    t.isMissing held v = false := by
  rw [SequenceTransfer.isMissing, (h v hv hlt).2, Bool.not_true, Bool.and_false]

theorem firstMissing_passed (h : t.Passed held position) :
    t.Passed held (t.firstMissing held position).2 := by
  rw [firstMissing_eq]
  exact h.scan

theorem firstMissing_none (h : t.Passed held position)
    (hm : (t.firstMissing held position).1 = none) {v : ℕ} (hv : 1 ≤ v) (hle : v ≤ t.targetView) :
    t.isMissing held v = false := by
  rw [firstMissing_eq] at hm
  rcases Nat.lt_or_ge v (t.scan held (t.targetView + 1 - position) position).1 with hlow | hhigh
  · exact h.scan.isMissing hv hlow
  · simpa using List.find?_range'_eq_none.mp hm v hhigh (by omega)

end Missing

end SequenceTransfer

end Vantage
