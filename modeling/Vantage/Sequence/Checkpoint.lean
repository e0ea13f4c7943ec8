import Vantage.Sequence.Store

/-!
# Certifying checkpoints

A head is certified for a view once enough members have announced it first-hand. The collector
keeps a bounded number of candidate views, and a member that announces two heads for one view
supports neither of them.

* `CheckpointCollector.onAnnouncement`, `retract`, `evictIfNeeded`: the collector;
* `CheckpointCollector.Inv`: what every run keeps, with the announcements so far;
* `CheckpointCollector.EvictsCertified`: an announcement that evicts a certified view;
* `CheckpointCollector.certified_supported`: certification is supported as long as no
  announcement does that, and a correct member stands behind every certified head.
-/

namespace Vantage

/-- A head that a member announces for a view. -/
structure SequenceAnnouncement (K D : Type) where
  version : ℕ
  view : ℕ
  head : D
  sender : K

/-- Why an announcement is not counted. -/
inductive IgnoreReason
  | senderMismatch
  | notAMember
  | version
  | duplicate
  | equivocation
  | tooFarAhead
  deriving DecidableEq

/-- `counted true` only for the announcement that first reaches the threshold. -/
inductive AnnouncementOutcome
  | counted (newlyCertified : Bool)
  | ignored (reason : IgnoreReason)
  deriving DecidableEq

/-- Certifies a head after enough matching announcements. -/
structure CheckpointCollector (K D : Type) where
  threshold : ℕ
  maxCandidateViews : ℕ
  futureViewSlack : ℕ
  candidates : Table ℕ (Table D (Finset K)) := ∅
  firstClaim : Table (ℕ × K) D := ∅
  equivocators : Finset K := ∅
  certified : Table ℕ D := ∅

namespace CheckpointCollector

variable {K D : Type} [DecidableEq K] [DecidableEq D]

def new (K D : Type) (threshold maxCandidateViews futureViewSlack : ℕ) :
    CheckpointCollector K D where
  threshold := max threshold 1
  maxCandidateViews := max maxCandidateViews 1
  futureViewSlack := futureViewSlack

def announcers (c : CheckpointCollector K D) (view : ℕ) (head : D) : Finset K :=
  ((c.candidates.lookup view).bind fun heads => heads.lookup head).getD ∅

def dropSupport (c : CheckpointCollector K D) (view : ℕ) (sender : K) : CheckpointCollector K D :=
  { c with
    candidates :=
      match c.candidates.lookup view with
      | none => c.candidates
      | some heads =>
        c.candidates.insert view (Table.filterMap (fun _ senders =>
          if (senders.erase sender).card = 0 then none else some (senders.erase sender)) heads) }

/-- Remove a certification whose support has fallen below the threshold. -/
def recheckCertified (c : CheckpointCollector K D) (view : ℕ) : CheckpointCollector K D :=
  { c with
    certified :=
      match c.certified.lookup view with
      | none => c.certified
      | some head =>
        if (c.announcers view head).card < c.threshold then c.certified.erase view
        else c.certified }

/-- Remove an equivocator from a view, and the certification if its support is lost. -/
def retract (c : CheckpointCollector K D) (view : ℕ) (sender : K) : CheckpointCollector K D :=
  (c.dropSupport view sender).recheckCertified view

def evict (c : CheckpointCollector K D) (view : ℕ) : CheckpointCollector K D :=
  { c with
    candidates := c.candidates.erase view
    firstClaim := Table.filterMap (fun key head => if key.1 = view then none else some head)
      c.firstClaim }

def evictLoop : ℕ → CheckpointCollector K D → CheckpointCollector K D
  | 0, c => c
  | fuel + 1, c =>
    if Table.size c.candidates ≤ c.maxCandidateViews then c
    else
      match (Table.sortedKeys c.candidates).head? with
      | none => c
      | some lowest => evictLoop fuel (c.evict lowest)

def evictIfNeeded (c : CheckpointCollector K D) : CheckpointCollector K D :=
  evictLoop (Table.size c.candidates) c

def addClaim (c : CheckpointCollector K D) (view : ℕ) (head : D) (sender : K) :
    CheckpointCollector K D :=
  { c with
    firstClaim := c.firstClaim.insert (view, sender) head
    candidates := c.candidates.insert view
      (((c.candidates.lookup view).getD ∅).insert head (insert sender (c.announcers view head))) }

/-- Count a claim of an authenticated member; a second head for a view counts for neither. -/
def onAnnouncement (c : CheckpointCollector K D) (a : SequenceAnnouncement K D)
    (authenticatedSender : K) (isMember : Bool) (localView : ℕ) :
    AnnouncementOutcome × CheckpointCollector K D :=
  if a.version ≠ sequenceVersion then (.ignored .version, c)
  else if a.sender ≠ authenticatedSender then (.ignored .senderMismatch, c)
  else if !isMember then (.ignored .notAMember, c)
  else if localView + c.futureViewSlack < a.view then (.ignored .tooFarAhead, c)
  else
    match c.firstClaim.lookup (a.view, authenticatedSender) with
    | some previous =>
      if previous = a.head then (.ignored .duplicate, c)
      else
        (.ignored .equivocation,
          retract { c with equivocators := insert authenticatedSender c.equivocators } a.view
            authenticatedSender)
    | none =>
      if authenticatedSender ∈ c.equivocators then (.ignored .equivocation, c)
      else
        let counted := c.addClaim a.view a.head authenticatedSender
        let evicted := counted.evictIfNeeded
        if counted.threshold ≤ (counted.announcers a.view a.head).card then
          (.counted (c.certified.lookup a.view).isNone,
            { evicted with certified := evicted.certified.insert a.view a.head })
        else (.counted false, evicted)

/-! ### Announcers after one change -/

section Announcers

variable {c : CheckpointCollector K D} {view view' : ℕ} {head head' : D} {sender : K}

omit [DecidableEq K] in
theorem announcers_of_notMem (h : view ∉ c.candidates) (head : D) : c.announcers view head = ∅ := by
  rw [announcers, AList.lookup_eq_none.mpr h]
  rfl

theorem announcers_addClaim :
    (c.addClaim view head sender).announcers view' head' =
      if view' = view ∧ head' = head then insert sender (c.announcers view head)
      else c.announcers view' head' := by
  simp only [announcers, addClaim]
  by_cases hv : view' = view
  · subst hv
    rw [AList.lookup_insert, Option.bind_some]
    by_cases hh : head' = head
    · subst hh
      rw [AList.lookup_insert, if_pos ⟨rfl, rfl⟩, Option.getD_some]
    · rw [AList.lookup_insert_ne hh, if_neg (fun h => hh h.2)]
      cases c.candidates.lookup view' with
      | none => rfl
      | some heads => rfl
  · rw [AList.lookup_insert_ne hv, if_neg (fun h => hv h.1)]

omit [DecidableEq K] in
theorem announcers_evict :
    (c.evict view).announcers view' head' =
      if view' = view then ∅ else c.announcers view' head' := by
  simp only [announcers, evict]
  by_cases hv : view' = view
  · subst hv
    rw [AList.lookup_erase, if_pos rfl]
    rfl
  · rw [AList.lookup_erase_ne hv, if_neg hv]

omit [DecidableEq D] in
theorem firstClaim_evict {p : K} :
    (c.evict view).firstClaim.lookup (view', p) =
      if view' = view then none else c.firstClaim.lookup (view', p) := by
  rw [evict, Table.lookup_filterMap]
  cases c.firstClaim.lookup (view', p) with
  | none => split <;> rfl
  | some h => rfl

theorem announcers_dropSupport :
    (c.dropSupport view sender).announcers view' head' =
      if view' = view then (c.announcers view' head').erase sender
      else c.announcers view' head' := by
  simp only [announcers, dropSupport]
  cases hview : c.candidates.lookup view with
  | none =>
    by_cases hv : view' = view
    · subst hv
      rw [if_pos rfl, hview]
      rfl
    · rw [if_neg hv]
  | some heads =>
    by_cases hv : view' = view
    · subst hv
      rw [AList.lookup_insert, if_pos rfl, hview, Option.bind_some, Option.bind_some,
        Table.lookup_filterMap]
      cases heads.lookup head' with
      | none => rfl
      | some senders =>
        simp only [Option.bind_some, Option.getD_some]
        split
        · next hzero => rw [Finset.card_eq_zero.mp hzero, Option.getD_none]
        · rfl
    · rw [if_neg hv, AList.lookup_insert_ne hv]

theorem announcers_retract :
    (c.retract view sender).announcers view' head' =
      if view' = view then (c.announcers view' head').erase sender
      else c.announcers view' head' :=
  announcers_dropSupport

theorem size_retract :
    Table.size (c.retract view sender).candidates = Table.size c.candidates := by
  simp only [retract, recheckCertified, dropSupport]
  cases hview : c.candidates.lookup view with
  | none => rfl
  | some heads =>
    exact Table.size_insert_of_mem _ (AList.lookup_isSome.mp (Option.isSome_of_eq_some hview))

theorem certified_retract (h : (c.retract view sender).certified.lookup view' = some head') :
    c.certified.lookup view' = some head' ∧
      (view' = view → c.threshold ≤ ((c.retract view sender).announcers view' head').card) := by
  simp only [retract, recheckCertified] at h
  cases hc : (c.dropSupport view sender).certified.lookup view with
  | none =>
    rw [hc] at h
    exact ⟨h, fun hv => by rw [hv, hc] at h; cases h⟩
  | some head =>
    rw [hc] at h
    simp only at h
    split at h
    · by_cases hv : view' = view
      · subst hv
        rw [AList.lookup_erase] at h
        cases h
      · rw [AList.lookup_erase_ne hv] at h
        exact ⟨h, fun h' => absurd h' hv⟩
    · next hlt =>
      refine ⟨h, fun hv => ?_⟩
      subst hv
      obtain rfl := Option.some.inj (hc.symm.trans h)
      exact Nat.not_lt.mp hlt

end Announcers

/-! ### Eviction -/

section Evict

variable {c : CheckpointCollector K D}

omit [DecidableEq K] [DecidableEq D] in
theorem evictLoop_of_le {fuel : ℕ} (h : Table.size c.candidates ≤ c.maxCandidateViews) :
    evictLoop fuel c = c := by
  cases fuel with
  | zero => rfl
  | succ fuel => rw [evictLoop, if_pos h]

omit [DecidableEq K] [DecidableEq D] in
theorem evictIfNeeded_of_succ (h : Table.size c.candidates = c.maxCandidateViews + 1) :
    ∃ lowest ∈ c.candidates, (∀ v ∈ c.candidates, lowest ≤ v) ∧
      c.evictIfNeeded = c.evict lowest ∧
      Table.size (c.evict lowest).candidates = c.maxCandidateViews := by
  obtain ⟨lowest, hl⟩ := Table.exists_head?_sortedKeys (m := c.candidates) (by omega)
  obtain ⟨hmem, hle⟩ := Table.head?_sortedKeys hl
  have hsize : Table.size (c.evict lowest).candidates = c.maxCandidateViews := by
    have := Table.size_erase_of_mem hmem
    simp only [evict]
    omega
  refine ⟨lowest, hmem, hle, ?_, hsize⟩
  rw [evictIfNeeded, h, evictLoop, if_neg (by omega), hl]
  exact evictLoop_of_le hsize.le

end Evict

/-! ### Runs -/

/-- An announcement as it arrives: its authenticated sender, and the local view at that time. -/
structure Heard (K D : Type) where
  announcement : SequenceAnnouncement K D
  sender : K
  localView : ℕ

def step (members : Finset K) (c : CheckpointCollector K D) (e : Heard K D) :
    CheckpointCollector K D :=
  (c.onAnnouncement e.announcement e.sender (decide (e.sender ∈ members)) e.localView).2

/-- A party has announced a head for a view itself. -/
def Announced (log : List (Heard K D)) (view : ℕ) (head : D) (p : K) : Prop :=
  ∃ e ∈ log, e.sender = p ∧ e.announcement.sender = p ∧ e.announcement.view = view ∧
    e.announcement.head = head

def Counts (members : Finset K) (c : CheckpointCollector K D) (e : Heard K D) : Prop :=
  e.announcement.version = sequenceVersion ∧ e.announcement.sender = e.sender ∧
    e.sender ∈ members ∧ e.announcement.view ≤ e.localView + c.futureViewSlack ∧
    c.firstClaim.lookup (e.announcement.view, e.sender) = none ∧ e.sender ∉ c.equivocators

/-- A counted announcement for a new view that finds the window full, where the lowest view is
certified already or by this announcement. -/
def EvictsCertified (members : Finset K) (c : CheckpointCollector K D) (e : Heard K D) : Prop :=
  Counts members c e ∧ e.announcement.view ∉ c.candidates ∧
    c.maxCandidateViews ≤ Table.size c.candidates ∧
    ∃ lowest, lowest ≤ e.announcement.view ∧ (∀ v ∈ c.candidates, lowest ≤ v) ∧
      ((lowest ∈ c.candidates ∧ lowest ∈ c.certified) ∨
        (lowest = e.announcement.view ∧ c.threshold ≤ 1))

/-- What an announcement can do: nothing, a retraction, or a counted claim. -/
theorem step_cases (members : Finset K) (c : CheckpointCollector K D) (e : Heard K D) :
    step members c e = c ∨
    step members c e =
      retract { c with equivocators := insert e.sender c.equivocators } e.announcement.view
        e.sender ∨
    (Counts members c e ∧
      step members c e =
        let counted := c.addClaim e.announcement.view e.announcement.head e.sender
        if counted.threshold ≤
            (counted.announcers e.announcement.view e.announcement.head).card then
          { counted.evictIfNeeded with
            certified := counted.evictIfNeeded.certified.insert e.announcement.view
              e.announcement.head }
        else counted.evictIfNeeded) := by
  unfold step onAnnouncement
  split
  · exact .inl rfl
  · next hversion =>
    split
    · exact .inl rfl
    · next hsender =>
      split
      · exact .inl rfl
      · next hmember =>
        split
        · exact .inl rfl
        · next hfar =>
          split
          · split
            · exact .inl rfl
            · exact .inr (.inl rfl)
          · next hclaim =>
            split
            · exact .inl rfl
            · next hequivocator =>
              refine .inr (.inr ⟨⟨Decidable.not_not.mp hversion, Decidable.not_not.mp hsender,
                by simpa using hmember, Nat.not_lt.mp hfar, hclaim, hequivocator⟩, ?_⟩)
              simp only
              split <;> rfl

/-! ### What every run keeps -/

section Invariant

variable {members : Finset K} {log : List (Heard K D)} {c : CheckpointCollector K D}

/-- Whoever supports a head is a member, retains this claim only, and has announced it. -/
def Claims (members : Finset K) (log : List (Heard K D)) (c : CheckpointCollector K D) : Prop :=
  ∀ view head p, p ∈ c.announcers view head →
    p ∈ members ∧ c.firstClaim.lookup (view, p) = some head ∧ Announced log view head p

theorem Claims.addClaim (h : Claims members log c) {e : Heard K D} (he : Counts members c e) :
    Claims members (log ++ [e])
      (c.addClaim e.announcement.view e.announcement.head e.sender) := by
  obtain ⟨-, hsender, hmember, -, hnone, -⟩ := he
  have hold : ∀ {view head p}, Announced log view head p → Announced (log ++ [e]) view head p :=
    fun ⟨x, hx, hp⟩ => ⟨x, List.mem_append_left _ hx, hp⟩
  have hnew : Announced (log ++ [e]) e.announcement.view e.announcement.head e.sender :=
    ⟨e, List.mem_append_right _ List.mem_cons_self, rfl, hsender, rfl, rfl⟩
  intro view head p hp
  -- an earlier claim for the view is of another member
  have hkeep : p ∈ c.announcers view head → p ∈ members ∧
      (c.addClaim e.announcement.view e.announcement.head e.sender).firstClaim.lookup (view, p) =
        some head ∧ Announced (log ++ [e]) view head p := by
    intro hp
    obtain ⟨hm, hclaim, ha⟩ := h view head p hp
    refine ⟨hm, ?_, hold ha⟩
    have hne : (view, p) ≠ (e.announcement.view, e.sender) := by
      intro heq
      rw [heq, hnone] at hclaim
      cases hclaim
    exact (AList.lookup_insert_ne hne).trans hclaim
  rw [announcers_addClaim] at hp
  split at hp
  · next hv =>
    obtain ⟨rfl, rfl⟩ := hv
    rcases Finset.mem_insert.mp hp with rfl | hp
    · exact ⟨hmember, AList.lookup_insert _, hnew⟩
    · exact hkeep hp
  · exact hkeep hp

theorem Claims.evict (h : Claims members log c) (view : ℕ) : Claims members log (c.evict view) := by
  intro v head p hp
  rw [announcers_evict] at hp
  split at hp
  · exact absurd hp (Finset.notMem_empty p)
  · next hv =>
    obtain ⟨hm, hclaim, ha⟩ := h v head p hp
    exact ⟨hm, by rw [firstClaim_evict, if_neg hv, hclaim], ha⟩

theorem Claims.retract (h : Claims members log c) (view : ℕ) (sender : K) :
    Claims members log (c.retract view sender) := by
  intro v head p hp
  rw [announcers_retract] at hp
  split at hp
  · exact h v head p (Finset.mem_of_mem_erase hp)
  · exact h v head p hp

/-- The window is not overfull, claims are what they should be, and behind every certified head
there have been enough announcements. -/
structure Inv (members : Finset K) (log : List (Heard K D)) (c : CheckpointCollector K D) :
    Prop where
  sized : Table.size c.candidates ≤ c.maxCandidateViews
  claims : Claims members log c
  certified : ∀ view head, c.certified.lookup view = some head →
    AtLeast members c.threshold (Announced log view head)

/-- Every certified head still has enough announcers. -/
def Supported (c : CheckpointCollector K D) : Prop :=
  ∀ view head, c.certified.lookup view = some head → c.threshold ≤ (c.announcers view head).card

theorem inv_new (members : Finset K) (threshold maxCandidateViews futureViewSlack : ℕ) :
    Inv members [] (new K D threshold maxCandidateViews futureViewSlack) where
  sized := Nat.zero_le _
  claims _ _ _ hp := absurd hp (Finset.notMem_empty _)
  certified _ _ h := by cases h

theorem Inv.evictIfNeeded (h : Inv members log c) (view : ℕ) (head : D) (sender : K) :
    ((c.addClaim view head sender).evictIfNeeded = c.addClaim view head sender ∧
      Table.size (c.addClaim view head sender).candidates ≤ c.maxCandidateViews) ∨
    (view ∉ c.candidates ∧ c.maxCandidateViews ≤ Table.size c.candidates ∧
      ∃ lowest, (lowest = view ∨ lowest ∈ c.candidates) ∧ lowest ≤ view ∧
        (∀ v ∈ c.candidates, lowest ≤ v) ∧
        (c.addClaim view head sender).evictIfNeeded = (c.addClaim view head sender).evict lowest ∧
        Table.size ((c.addClaim view head sender).evict lowest).candidates =
          c.maxCandidateViews) := by
  have hsized := h.sized
  by_cases hle : Table.size (c.addClaim view head sender).candidates ≤ c.maxCandidateViews
  · exact .inl ⟨evictLoop_of_le hle, hle⟩
  · have hnew : view ∉ c.candidates := by
      intro hmem
      exact hle ((Table.size_insert_of_mem _ hmem).trans_le hsized)
    have hsize : Table.size (c.addClaim view head sender).candidates =
        Table.size c.candidates + 1 := Table.size_insert_of_notMem _ hnew
    obtain ⟨lowest, hmem, hlow, heq, hfull⟩ :=
      evictIfNeeded_of_succ (c := c.addClaim view head sender) (by
        change _ = c.maxCandidateViews + 1
        omega)
    have hmem' : ∀ v, v ∈ (c.addClaim view head sender).candidates ↔ v = view ∨ v ∈ c.candidates :=
      fun v => AList.mem_insert _
    exact .inr ⟨hnew, by omega, lowest, (hmem' lowest).mp hmem,
      hlow view ((hmem' view).mpr (.inl rfl)), fun v hv => hlow v ((hmem' v).mpr (.inr hv)), heq,
      hfull⟩

theorem Inv.counted (h : Inv members log c) {e : Heard K D} (he : Counts members c e) :
    let counted := c.addClaim e.announcement.view e.announcement.head e.sender
    Table.size counted.evictIfNeeded.candidates ≤ c.maxCandidateViews ∧
      Claims members (log ++ [e]) counted.evictIfNeeded ∧
      counted.evictIfNeeded.maxCandidateViews = c.maxCandidateViews ∧
      counted.evictIfNeeded.threshold = c.threshold ∧
      counted.evictIfNeeded.certified = c.certified := by
  have hclaims := h.claims.addClaim he
  rcases h.evictIfNeeded e.announcement.view e.announcement.head e.sender with
    ⟨heq, hsize⟩ | ⟨-, -, lowest, -, -, -, heq, hsize⟩
  · simp only [heq]
    exact ⟨hsize, hclaims, rfl, rfl, rfl⟩
  · simp only [heq]
    exact ⟨hsize.le, hclaims.evict lowest, rfl, rfl, rfl⟩

/-- One announcement keeps the invariant. -/
theorem Inv.step (h : Inv members log c) (e : Heard K D) :
    Inv members (log ++ [e]) (step members c e) ∧ (step members c e).threshold = c.threshold := by
  have hold : ∀ {view head p}, Announced log view head p → Announced (log ++ [e]) view head p :=
    fun ⟨x, hx, hp⟩ => ⟨x, List.mem_append_left _ hx, hp⟩
  have hclaims : Claims members (log ++ [e]) c := fun view head p hp =>
    ⟨(h.claims view head p hp).1, (h.claims view head p hp).2.1, hold (h.claims view head p hp).2.2⟩
  have hcert : ∀ view head, c.certified.lookup view = some head →
      AtLeast members c.threshold (Announced (log ++ [e]) view head) :=
    fun view head hc => (h.certified view head hc).mono fun _ _ => hold
  rcases step_cases members c e with heq | heq | ⟨hcounts, heq⟩
  · rw [heq]
    exact ⟨⟨h.sized, hclaims, hcert⟩, rfl⟩
  · rw [heq]
    refine ⟨⟨?_, Claims.retract hclaims _ _, fun view head hc => ?_⟩, rfl⟩
    · rw [size_retract]
      exact h.sized
    · exact hcert view head (certified_retract hc).1
  · obtain ⟨hsize, hclaims', hmax, hthreshold, hcertified⟩ := h.counted hcounts
    rw [heq]
    simp only
    split
    · next hreached =>
      refine ⟨⟨hsize.trans hmax.ge, hclaims', fun view head hc => ?_⟩, hthreshold⟩
      simp only [hthreshold, hcertified] at hc ⊢
      rcases Table.lookup_insert_cases hc with ⟨rfl, rfl⟩ | hc
      · -- the announcers of the new claim are the quorum
        have hadd := h.claims.addClaim hcounts
        exact ⟨_, fun p hp => (hadd _ _ p hp).1, hreached, fun p hp => (hadd _ _ p hp).2.2⟩
      · exact hcert view head hc
    · refine ⟨⟨hsize.trans hmax.ge, hclaims', fun view head hc => ?_⟩, hthreshold⟩
      rw [hthreshold]
      rw [hcertified] at hc
      exact hcert view head hc

theorem Inv.supported_step (h : Inv members log c) (hs : c.Supported) {e : Heard K D}
    (he : ¬EvictsCertified members c e) : (CheckpointCollector.step members c e).Supported := by
  rcases step_cases members c e with heq | heq | ⟨hcounts, heq⟩
  · rw [heq]
    exact hs
  · rw [heq]
    intro view head hc
    obtain ⟨hc', hview⟩ := certified_retract hc
    by_cases hv : view = e.announcement.view
    · exact hview hv
    · rw [announcers_retract, if_neg hv]
      exact hs view head hc'
  · obtain ⟨-, -, -, hthreshold, hcertified⟩ := h.counted hcounts
    -- support before the eviction
    have hadd : ∀ view head, c.announcers view head ⊆
        (c.addClaim e.announcement.view e.announcement.head e.sender).announcers view head := by
      intro view head
      rw [announcers_addClaim]
      split
      · next hv =>
        obtain ⟨rfl, rfl⟩ := hv
        exact Finset.subset_insert _ _
      · exact Finset.Subset.refl _
    -- the eviction takes no certified view
    have hkeep : ∀ view head,
        (c.certified.lookup view = some head ∨ (view = e.announcement.view ∧
          c.threshold ≤ ((c.addClaim e.announcement.view e.announcement.head
            e.sender).announcers e.announcement.view e.announcement.head).card)) →
        (c.addClaim e.announcement.view e.announcement.head
          e.sender).evictIfNeeded.announcers view head =
        (c.addClaim e.announcement.view e.announcement.head e.sender).announcers view head := by
      intro view head hview
      rcases h.evictIfNeeded e.announcement.view e.announcement.head e.sender with
        ⟨hsame, -⟩ | ⟨hnew, hfull, lowest, hmem, hle, hlow, hevict, -⟩
      · rw [hsame]
      · rw [hevict, announcers_evict, if_neg]
        rintro rfl
        refine he ⟨hcounts, hnew, hfull, view, hle, hlow, ?_⟩
        have hempty : ∀ head, c.announcers e.announcement.view head = ∅ :=
          fun head => announcers_of_notMem hnew head
        rcases hview with hc | ⟨rfl, hreached⟩
        · rcases hmem with rfl | hmem
          · have := hs _ _ hc
            rw [hempty, Finset.card_empty] at this
            exact .inr ⟨rfl, by omega⟩
          · exact .inl ⟨hmem, AList.lookup_isSome.mp (Option.isSome_of_eq_some hc)⟩
        · rw [announcers_addClaim, if_pos ⟨rfl, rfl⟩, hempty, insert_empty_eq,
            Finset.card_singleton] at hreached
          exact .inr ⟨rfl, hreached⟩
    have hold : ∀ view head, c.certified.lookup view = some head → c.threshold ≤
        ((c.addClaim e.announcement.view e.announcement.head
          e.sender).evictIfNeeded.announcers view head).card := by
      intro view head hc
      rw [hkeep view head (.inl hc)]
      exact (hs view head hc).trans (Finset.card_le_card (hadd view head))
    rw [heq]
    simp only
    split
    · next hreached =>
      intro view head hc
      change (c.addClaim e.announcement.view e.announcement.head e.sender).evictIfNeeded.threshold ≤
        ((c.addClaim e.announcement.view e.announcement.head
          e.sender).evictIfNeeded.announcers view head).card
      simp only [hcertified] at hc
      rw [hthreshold]
      rcases Table.lookup_insert_cases hc with ⟨rfl, rfl⟩ | hc
      · rw [hkeep _ _ (.inr ⟨rfl, hreached⟩)]
        exact hreached
      · exact hold view head hc
    · intro view head hc
      rw [hthreshold]
      rw [hcertified] at hc
      exact hold view head hc

/-- No announcement of the sequence evicts a certified view when it arrives. -/
def KeepsCertified (members : Finset K) (c : CheckpointCollector K D) : List (Heard K D) → Prop
  | [] => True
  | e :: es => ¬EvictsCertified members c e ∧
      KeepsCertified members (CheckpointCollector.step members c e) es

theorem Inv.run (h : Inv members log c) (es : List (Heard K D)) :
    Inv members (log ++ es) (es.foldl (CheckpointCollector.step members) c) ∧
      (es.foldl (CheckpointCollector.step members) c).threshold = c.threshold := by
  induction es generalizing log c with
  | nil => exact ⟨by rw [List.append_nil]; exact h, rfl⟩
  | cons e es ih =>
    obtain ⟨hstep, hthreshold⟩ := h.step e
    obtain ⟨hrun, hthreshold'⟩ := ih hstep
    rw [List.append_assoc, List.singleton_append] at hrun
    exact ⟨hrun, hthreshold'.trans hthreshold⟩

theorem Inv.supported_run (h : Inv members log c) (hs : c.Supported) {es : List (Heard K D)}
    (hes : KeepsCertified members c es) :
    (es.foldl (CheckpointCollector.step members) c).Supported := by
  induction es generalizing log c with
  | nil => exact hs
  | cons e es ih => exact ih (h.step e).1 (h.supported_step hs hes.1) hes.2

end Invariant

/-- Checkpoint certification. As long as no announcement evicts a certified view, every
certified head has at least `k` announcers, all of them members that retain exactly this claim
for the view. In every run, evictions or not, a correct member has announced every certified
head if `k = f + 1` and at most `f` members are Byzantine. -/
theorem certified_supported (members : Finset K) (k maxCandidateViews futureViewSlack : ℕ)
    (es : List (Heard K D)) {view : ℕ} {head : D}
    (h : (es.foldl (step members)
      (new K D k maxCandidateViews futureViewSlack)).certified.lookup view = some head) :
    let c := es.foldl (step members) (new K D k maxCandidateViews futureViewSlack)
    (KeepsCertified members (new K D k maxCandidateViews futureViewSlack) es →
      k ≤ (c.announcers view head).card ∧
        ∀ p ∈ c.announcers view head, p ∈ members ∧ c.firstClaim.lookup (view, p) = some head ∧
          ∀ head', p ∈ c.announcers view head' → head' = head) ∧
    ∀ (f : ℕ) (byzantine : Finset K), k = f + 1 → (members ∩ byzantine).card ≤ f →
      ∃ p ∈ members, p ∉ byzantine ∧ Announced es view head p := by
  have hnew : Inv members [] (new K D k maxCandidateViews futureViewSlack) := inv_new _ _ _ _
  obtain ⟨hinv, hthreshold⟩ := hnew.run es
  rw [List.nil_append] at hinv
  simp only
  refine ⟨fun hes => ⟨?_, fun p hp => ?_⟩, fun f byzantine hk hb => ?_⟩
  · have hs : (new K D k maxCandidateViews futureViewSlack).Supported := fun _ _ h => by cases h
    have hsupport := hnew.supported_run hs hes view head h
    rw [hthreshold] at hsupport
    exact (Nat.le_max_left k 1).trans hsupport
  · obtain ⟨hm, hclaim, -⟩ := hinv.claims view head p hp
    refine ⟨hm, hclaim, fun head' hp' => ?_⟩
    obtain ⟨-, hclaim', -⟩ := hinv.claims view head' p hp'
    exact Option.some.inj (hclaim'.symm.trans hclaim)
  · have hatLeast := hinv.certified view head h
    rw [hthreshold] at hatLeast
    exact hatLeast.exists_notMem (by
      change _ < max k 1
      omega)

/-- Two members announce a head for view 1, and then one of them announces two later views. -/
def sampleAnnouncements : List (Heard ℕ ℕ) :=
  [⟨⟨1, 1, 9, 0⟩, 0, 1⟩, ⟨⟨1, 1, 9, 1⟩, 1, 1⟩, ⟨⟨1, 2, 8, 0⟩, 0, 1⟩, ⟨⟨1, 3, 7, 0⟩, 0, 1⟩]

/-- A window of three views keeps the support of view 1. -/
theorem certified_supported_sample :
    2 ≤ ((sampleAnnouncements.foldl (step {0, 1, 2, 3}) (new ℕ ℕ 2 3 5)).announcers 1 9).card := by
  refine ((certified_supported {0, 1, 2, 3} 2 3 5 sampleAnnouncements (by decide +kernel)).1 ?_).1
  have hroom : ∀ i < 4, Table.size ((sampleAnnouncements.take i).foldl (step {0, 1, 2, 3})
      (new ℕ ℕ 2 3 5)).candidates < 3 := by decide +kernel
  exact ⟨fun h => absurd h.2.2.1 (Nat.not_le.mpr (hroom 0 (by decide))),
    fun h => absurd h.2.2.1 (Nat.not_le.mpr (hroom 1 (by decide))),
    fun h => absurd h.2.2.1 (Nat.not_le.mpr (hroom 2 (by decide))),
    fun h => absurd h.2.2.1 (Nat.not_le.mpr (hroom 3 (by decide))), trivial⟩

/-- A window of two views evicts view 1, which stays certified without announcers. -/
theorem certified_unsupported :
    (sampleAnnouncements.foldl (step {0, 1, 2, 3}) (new ℕ ℕ 2 2 5)).certified.lookup 1 = some 9 ∧
      ((sampleAnnouncements.foldl (step {0, 1, 2, 3}) (new ℕ ℕ 2 2 5)).announcers 1 9).card =
        0 := by
  decide +kernel

end CheckpointCollector

end Vantage
