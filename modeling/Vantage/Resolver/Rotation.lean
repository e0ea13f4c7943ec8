import Mathlib.Data.Prod.Lex
import Mathlib.Data.List.Lex
import Vantage.Lib.Rotation
import Vantage.Resolver.Handlers

/-!
# The rotation of fresh candidates

A primary that is free to choose proposes the candidates of a target in turn. The list of
candidates grows and is sorted again at any time, so the cursor is remembered by value: it names
the candidate that followed the last choice. The sort is stable, so the old candidates keep their
order, and the choices are a rotation through a growing pool.

* `Turns.isChain`: the selections of a run follow one another in the sense of `Pick.Next`.
-/

namespace Vantage

namespace TargetState

variable {K D : Type} [LinearOrder K] [LinearOrder D]

/-! ### Additions -/

def mergeCandidates (old accepted : List (ResolutionEntry K D)) : List (ResolutionEntry K D) :=
  accepted.foldl (fun l e => if e ∈ l then l else l ++ [e]) old

section Additions

variable [Inhabited D] {S : Session K D} (cfg : ResolverConfig K D) {target : ℕ}

def addCandidates (candidates : List (ResolutionEntry K D))
    (s : TargetState S cfg.committee target) : TargetState S cfg.committee target :=
  let accepted := candidates.filter (validEntry cfg.committee target)
  let s := candidates.foldl (fun s e => (s.rememberEntry e).2) s
  if accepted = [] then s
  else
    let i := s.inst.getD {}
    { s with
      inst := some
        { i with
          wishes := joinWishes s.passiveWishes i.wishes
          candidates := (mergeCandidates i.candidates accepted).insertionSort fun a b =>
            canonicalEntryLe cfg a b = true }
      passiveWishes := ∅ }

end Additions

section CanonicalOrder

variable {K D : Type} (cfg : ResolverConfig K D)

def canonicalEntryKey (e : ResolutionEntry K D) : Bool ×ₗ List ℕ ×ₗ ℕ :=
  match e with
  | .full _ c t => toLex (false, toLex (cfg.serialize c t, 0))
  | .core _ c t => toLex (false, toLex (cfg.serialize c t, 1))
  | .skip _ => toLex (true, toLex ([], 2))

theorem canonicalEntryLe_iff (a b : ResolutionEntry K D) :
    canonicalEntryLe cfg a b = true ↔ canonicalEntryKey cfg a ≤ canonicalEntryKey cfg b := by
  cases a <;> cases b <;>
    simp [canonicalEntryLe, canonicalEntryKey, Prod.Lex.toLex_le_toLex]

instance canonicalEntryLe_total :
    Std.Total fun a b : ResolutionEntry K D => canonicalEntryLe cfg a b = true where
  total a b := by
    simp only [canonicalEntryLe_iff]
    exact le_total _ _

instance canonicalEntryLe_trans :
    IsTrans (ResolutionEntry K D) fun a b => canonicalEntryLe cfg a b = true where
  trans a b c := by
    simp only [canonicalEntryLe_iff]
    exact le_trans

end CanonicalOrder

theorem sublist_mergeCandidates (old accepted : List (ResolutionEntry K D)) :
    old.Sublist (mergeCandidates old accepted) := by
  induction accepted generalizing old with
  | nil => exact List.Sublist.refl _
  | cons e accepted ih =>
    rw [mergeCandidates, List.foldl_cons]
    split
    · exact ih old
    · exact (List.sublist_append_left _ _).trans (ih (old ++ [e]))

theorem mergeCandidates_nodup {old : List (ResolutionEntry K D)} (h : old.Nodup)
    (accepted : List (ResolutionEntry K D)) : (mergeCandidates old accepted).Nodup := by
  induction accepted generalizing old with
  | nil => exact h
  | cons e accepted ih =>
    rw [mergeCandidates, List.foldl_cons]
    split
    · exact ih h
    · next he => exact ih (List.nodup_append_comm.mp (List.nodup_cons.mpr ⟨he, h⟩))

end TargetState

/-- The candidates of a target, the candidate to be chosen next and the bar on full values. -/
structure Rotator (K D : Type) where
  candidates : List (ResolutionEntry K D) := []
  cursor : Option (ResolutionEntry K D) := none
  barred : Bool := false

namespace Rotator

variable {K D : Type} [DecidableEq K] [DecidableEq D]

def eligible (r : Rotator K D) : List (ResolutionEntry K D) :=
  r.candidates.filter fun e =>
    match e with
    | .full .. => !r.barred
    | _ => true

def position (r : Rotator K D) (view : ℕ) : ℕ :=
  match r.cursor with
  | some candidate =>
    if candidate ∈ r.eligible then r.eligible.idxOf candidate
    else (view - 1) % r.eligible.length
  | none => (view - 1) % r.eligible.length

def take (r : Rotator K D) (view : ℕ) : Option (ResolutionEntry K D) × Rotator K D :=
  match r.eligible[r.position view]? with
  | none => (none, r)
  | some e => (some e, { r with cursor := r.eligible[(r.position view + 1) % r.eligible.length]? })

theorem take_eq_some {r : Rotator K D} {view : ℕ} {e : ResolutionEntry K D}
    (h : (r.take view).1 = some e) :
    r.eligible[r.position view]? = some e ∧ (r.take view).2 =
      { r with cursor := r.eligible[(r.position view + 1) % r.eligible.length]? } := by
  unfold take at h ⊢
  split at h
  · cases h
  · next e' he' =>
    obtain rfl := Option.some.inj h
    rw [he']
    exact ⟨rfl, rfl⟩

theorem position_of_cursor {r : Rotator K D} {e : ResolutionEntry K D} (h : r.cursor = some e)
    (he : e ∈ r.eligible) (view : ℕ) : r.eligible[r.position view]? = some e := by
  have hlt := List.idxOf_lt_length_of_mem he
  rw [position, h]
  simp only [if_pos he, List.getElem?_eq_getElem hlt, List.getElem_idxOf hlt]

/-- What a turn does to the rotator: the old candidates keep their order and the bar stays. -/
structure Grows (r r' : Rotator K D) : Prop where
  candidates : r.candidates.Sublist r'.candidates
  barred : r'.barred = r.barred

omit [DecidableEq K] [DecidableEq D] in
theorem Grows.eligible {r r' : Rotator K D} (h : r.Grows r') :
    r.eligible.Sublist r'.eligible := by
  unfold Rotator.eligible
  rw [h.barred]
  exact h.candidates.filter _

/-- The cursor is where the pool of the last selection continues. -/
def Behind (r : Rotator K D) (last : Pick (ResolutionEntry K D)) : Prop :=
  last.pool.Sublist r.eligible ∧ ∃ p, last.pool[p]? = some last.chosen ∧
    last.pool[(p + 1) % last.pool.length]? = r.cursor

theorem behind_take {r : Rotator K D} {view : ℕ} {e : ResolutionEntry K D}
    (h : (r.take view).1 = some e) : (r.take view).2.Behind ⟨r.eligible, e⟩ := by
  obtain ⟨he, hr⟩ := take_eq_some h
  rw [hr]
  exact ⟨List.Sublist.refl _, _, he, rfl⟩

theorem Behind.next {r : Rotator K D} {last : Pick (ResolutionEntry K D)}
    (hb : r.Behind last) {view : ℕ} {e : ResolutionEntry K D} (h : (r.take view).1 = some e) :
    last.Next ⟨r.eligible, e⟩ := by
  obtain ⟨hsub, p, hp, hnext⟩ := hb
  refine ⟨hsub, p, hp, ?_⟩
  have hpos := (List.getElem?_eq_some_iff.mp hp).1
  have hlt := Nat.mod_lt (p + 1) (by omega : 0 < last.pool.length)
  rw [List.getElem?_eq_getElem hlt] at hnext ⊢
  have hmem := hsub.subset (List.getElem_mem hlt)
  exact (position_of_cursor hnext.symm hmem view).symm.trans (take_eq_some h).1

end Rotator

namespace TargetState

variable {K D : Type} [LinearOrder K] [LinearOrder D] [Inhabited D] {S : Session K D}
  {cfg : ResolverConfig K D} {target : ℕ}

def rotator (s : TargetState S cfg.committee target) : Rotator K D where
  candidates := s.inst.elim [] fun i => i.candidates
  cursor := s.inst.bind fun i => i.nextCandidate
  barred := s.fullBarred

variable {s s' : TargetState S cfg.committee target}

theorem eligible_eq (s : TargetState S cfg.committee target) :
    s.eligible cfg = s.rotator.eligible := by
  unfold eligible Rotator.eligible rotator
  cases s.inst <;> rfl

theorem takeNextCandidate_eq_match (view : ℕ) (s : TargetState S cfg.committee target) :
    s.takeNextCandidate cfg view =
      match s.rotator.eligible[s.rotator.position view]? with
      | none => (none, s)
      | some e => (some e, s.mapInst fun i =>
          { i with nextCandidate := s.rotator.eligible[
              (s.rotator.position view + 1) % s.rotator.eligible.length]? }) := by
  unfold takeNextCandidate
  rw [eligible_eq]
  rfl

theorem takeNextCandidate_eq (view : ℕ) (s : TargetState S cfg.committee target) :
    (s.takeNextCandidate cfg view).1 = (s.rotator.take view).1 ∧
      (s.takeNextCandidate cfg view).2.rotator = (s.rotator.take view).2 := by
  rw [takeNextCandidate_eq_match, Rotator.take]
  cases he : s.rotator.eligible[s.rotator.position view]? with
  | none => exact ⟨rfl, rfl⟩
  | some e =>
    refine ⟨rfl, ?_⟩
    cases hi : s.inst with
    | none =>
      have : s.rotator.eligible = [] := by simp [Rotator.eligible, rotator, hi]
      rw [this] at he
      cases he
    | some i =>
      simp only [rotator, mapInst, hi, Option.map_some, Option.elim_some, Option.bind_some]

theorem foldl_rememberEntry_rotator (es : List (ResolutionEntry K D))
    (s : TargetState S cfg.committee target) :
    (es.foldl (fun s e => (s.rememberEntry e).2) s).rotator = s.rotator := by
  induction es generalizing s with
  | nil => rfl
  | cons e es ih =>
    rw [List.foldl_cons, ih]
    unfold rememberEntry
    split
    · dsimp only
      split <;> rfl
    · rfl

theorem addCandidates_rotator (candidates : List (ResolutionEntry K D))
    (s : TargetState S cfg.committee target) :
    (addCandidates cfg candidates s).rotator = s.rotator ∨
      ∃ accepted, (addCandidates cfg candidates s).rotator =
        { s.rotator with
          candidates := (mergeCandidates s.rotator.candidates accepted).insertionSort fun a b =>
            canonicalEntryLe cfg a b = true } := by
  have hr := foldl_rememberEntry_rotator candidates s
  unfold addCandidates
  dsimp only
  split
  · exact .inl hr
  · refine .inr ⟨candidates.filter (validEntry cfg.committee target), ?_⟩
    rw [← hr]
    generalize candidates.foldl (fun s e => (s.rememberEntry e).2) s = t
    simp only [rotator]
    cases t.inst <;> rfl

end TargetState

/-! ### Runs -/

section Runs

variable {K D : Type} [LinearOrder K] [LinearOrder D] [Inhabited D] {S : Session K D}
  {cfg : ResolverConfig K D} {target : ℕ}

/-- One turn of a target during which no bar is set: candidates are added, this party selects one,
or something happens that touches neither the candidates nor the cursor. -/
inductive Turn (s s' : TargetState S cfg.committee target) :
    Option (Pick (ResolutionEntry K D)) → Prop
  | add (candidates : List (ResolutionEntry K D))
      (h : s'.rotator = (TargetState.addCandidates cfg candidates s).rotator) : Turn s s' none
  | select {view : ℕ} {e : ResolutionEntry K D} (he : (s.takeNextCandidate cfg view).1 = some e)
      (h : s'.rotator = (s.takeNextCandidate cfg view).2.rotator) :
      Turn s s' (some ⟨s.eligible cfg, e⟩)
  | other (h : s'.rotator = s.rotator) : Turn s s' none

/-- A run of turns and the selections made in it. -/
inductive Turns : TargetState S cfg.committee target → List (Pick (ResolutionEntry K D)) →
    TargetState S cfg.committee target → Prop
  | refl (s : TargetState S cfg.committee target) : Turns s [] s
  | step {s s' s'' : TargetState S cfg.committee target}
      {pick : Option (Pick (ResolutionEntry K D))} {picks : List (Pick (ResolutionEntry K D))} :
      Turn s s' pick → Turns s' picks s'' → Turns s (pick.toList ++ picks) s''

/-- The states of a target: turns, and bars between them. -/
inductive Rotates : TargetState S cfg.committee target → Prop
  | start {s : TargetState S cfg.committee target} (h : s.rotator = {}) : Rotates s
  | turn {s s' : TargetState S cfg.committee target}
      {pick : Option (Pick (ResolutionEntry K D))} : Rotates s → Turn s s' pick → Rotates s'
  | bar {s s' : TargetState S cfg.committee target} : Rotates s →
      s'.rotator = { s.rotator with barred := true } → Rotates s'

variable (cfg) in
/-- Candidates are kept sorted and without repetitions. -/
structure Rotator.Tidy (r : Rotator K D) : Prop where
  sorted : r.candidates.Pairwise fun a b => TargetState.canonicalEntryLe cfg a b = true
  nodup : r.candidates.Nodup

variable {s s' s'' : TargetState S cfg.committee target}
  {pick : Option (Pick (ResolutionEntry K D))} {picks : List (Pick (ResolutionEntry K D))}

theorem Turn.rotator_cases (h : Turn s s' pick) :
    (pick = none ∧ s'.rotator.cursor = s.rotator.cursor ∨
      ∃ view e, pick = some ⟨s.rotator.eligible, e⟩ ∧ (s.rotator.take view).1 = some e ∧
        s'.rotator = (s.rotator.take view).2) ∧
    (s.rotator.Tidy cfg → s'.rotator.Tidy cfg ∧ s.rotator.Grows s'.rotator) := by
  cases h with
  | other h =>
    rw [h]
    exact ⟨.inl ⟨rfl, rfl⟩, fun ht => ⟨ht, List.Sublist.refl _, rfl⟩⟩
  | add candidates h =>
    rw [h]
    obtain heq | ⟨accepted, heq⟩ := TargetState.addCandidates_rotator candidates s
    · rw [heq]
      exact ⟨.inl ⟨rfl, rfl⟩, fun ht => ⟨ht, List.Sublist.refl _, rfl⟩⟩
    · rw [heq]
      refine ⟨.inl ⟨rfl, rfl⟩, fun ht => ⟨⟨List.pairwise_insertionSort _ _, ?_⟩, ?_, rfl⟩⟩
      · exact (List.perm_insertionSort _ _).nodup_iff.mpr
          (TargetState.mergeCandidates_nodup ht.nodup accepted)
      · exact List.sublist_insertionSort ht.sorted (TargetState.sublist_mergeCandidates _ _)
  | @select view e he h =>
    obtain ⟨h₁, h₂⟩ := TargetState.takeNextCandidate_eq view s
    rw [h₁] at he
    rw [h, h₂]
    refine ⟨.inr ⟨view, e, by rw [TargetState.eligible_eq], he, rfl⟩, fun ht => ?_⟩
    rw [(Rotator.take_eq_some he).2]
    exact ⟨⟨ht.sorted, ht.nodup⟩, List.Sublist.refl _, rfl⟩

theorem Rotates.tidy (h : Rotates s) : s.rotator.Tidy cfg := by
  induction h with
  | start h => exact h ▸ ⟨List.Pairwise.nil, List.nodup_nil⟩
  | turn _ ht ih => exact (ht.rotator_cases.2 ih).1
  | bar _ h ih => exact h ▸ ⟨ih.sorted, ih.nodup⟩

theorem Turns.isChain (h : Turns s picks s'') (ht : s.rotator.Tidy cfg)
    {last : Option (Pick (ResolutionEntry K D))} (hl : ∀ a ∈ last, s.rotator.Behind a) :
    List.IsChain Pick.Next (last.toList ++ picks) := by
  induction h generalizing last with
  | refl s => cases last <;> simp
  | @step s s' s'' pick picks hturn _ ih =>
    obtain ⟨hcases, hgrow⟩ := hturn.rotator_cases
    obtain ⟨ht', hg⟩ := hgrow ht
    obtain ⟨rfl, hcursor⟩ | ⟨view, e, rfl, he, hr⟩ := hcases
    · refine ih ht' fun a ha => ?_
      obtain ⟨hsub, p, hp, hnext⟩ := hl a ha
      exact ⟨hsub.trans hg.eligible, p, hp, hnext.trans hcursor.symm⟩
    · have hbehind : ∀ a ∈ some (⟨s.rotator.eligible, e⟩ : Pick (ResolutionEntry K D)),
          s'.rotator.Behind a := by
        rintro a ⟨⟩
        exact hr ▸ Rotator.behind_take he
      have htail := ih ht' hbehind
      cases last with
      | none => exact htail
      | some a => exact List.isChain_cons_cons.mpr ⟨(hl a rfl).next he, htail⟩

theorem Turns.selected (h : Turns s picks s'') (ht : s.rotator.Tidy cfg) :
    ∀ a ∈ picks, a.pool.Nodup ∧ a.chosen ∈ a.pool ∧
      (s.rotator.barred = true → ∀ e ∈ a.pool, ∀ v c t, e ≠ .full v c t) := by
  induction h with
  | refl => exact fun a ha => by cases ha
  | @step s s' s'' pick picks hturn _ ih =>
    obtain ⟨hcases, hgrow⟩ := hturn.rotator_cases
    obtain ⟨ht', hg⟩ := hgrow ht
    intro a ha
    rcases List.mem_append.mp ha with ha | ha
    · obtain ⟨rfl, -⟩ | ⟨view, e, rfl, he, -⟩ := hcases
      · cases ha
      · obtain rfl := List.mem_singleton.mp ha
        refine ⟨ht.nodup.filter _, List.mem_of_getElem? (Rotator.take_eq_some he).1, ?_⟩
        rintro hb x hx v c t rfl
        have := (List.mem_filter.mp hx).2
        simp [hb] at this
    · rw [← hg.barred]
      exact ih ht' a ha

/-- The rotation of a target skips nobody. In a run without a new bar, from one selection of an
entry to the next every candidate that was eligible at the first is selected; while the eligible
candidates do not change, as many selections as there are of them select each of them once; and
no full value is selected under a bar. -/
theorem rotation_skips_nobody (hs : Rotates s) (h : Turns s picks s'') :
    (∀ before a between b after, picks = before ++ a :: (between ++ b :: after) →
      a.chosen = b.chosen → ∀ c ∈ a.pool, ∃ m ∈ a :: between, m.chosen = c) ∧
    (∀ before lap after pool, picks = before ++ (lap ++ after) →
      (∀ a ∈ lap, a.pool = pool) → lap.length = pool.length →
      (lap.map Pick.chosen).Perm pool ∧ (lap.map Pick.chosen).Nodup) ∧
    ∀ a ∈ picks, a.chosen ∈ a.pool ∧
      (s.fullBarred = true → ∀ v c t, a.chosen ≠ .full v c t) := by
  have hnone : ∀ a ∈ (none : Option (Pick (ResolutionEntry K D))), s.rotator.Behind a := by
    rintro a ⟨⟩
  have hchain : List.IsChain Pick.Next picks := h.isChain hs.tidy hnone
  have hpicks := h.selected hs.tidy
  refine ⟨?_, ?_, fun a ha => ?_⟩
  · rintro before a between b after rfl hab c hc
    have hpart : List.IsChain Pick.Next (a :: (between ++ [b])) := by
      have := hchain.right_of_append
      rw [show a :: (between ++ b :: after) = a :: (between ++ [b]) ++ after by simp] at this
      exact this.left_of_append
    exact Rotation.mem_of_return hpart (hpicks b (by simp)).1 hab hc
  · rintro before lap after pool rfl hpool hlen
    have hlap := hchain.right_of_append.left_of_append
    have hmem : ∀ a ∈ lap, a ∈ before ++ (lap ++ after) := fun a ha => by simp [ha]
    have hperm : pool.Nodup → (lap.map Pick.chosen).Perm pool := fun hn =>
      Rotation.perm_of_lap hn hlap hpool (fun a ha => (hpicks a (hmem a ha)).2.1) hlen
    have hn : pool.Nodup := by
      cases lap with
      | nil =>
        rw [List.length_eq_zero_iff.mp hlen.symm]
        exact List.nodup_nil
      | cons a lap =>
        rw [← hpool a List.mem_cons_self]
        exact (hpicks a (by simp)).1
    exact ⟨hperm hn, (hperm hn).nodup_iff.mpr hn⟩
  · obtain ⟨-, hmem, hbar⟩ := hpicks a ha
    exact ⟨hmem, fun hb => hbar hb _ hmem⟩

end Runs

/-! ### Two candidates -/

def loneResolver : ResolverConfig ℕ ℕ where
  name := 0
  committee := ⟨{0}, fun _ => 1, Finset.singleton_nonempty 0⟩
  delta := 1
  scheduleSeed _ := 0
  serialize _ _ := []

def twoCandidates : TargetState ⟨0, ⟨fun _ _ _ => 0⟩⟩ loneResolver.committee 1 :=
  TargetState.addCandidates loneResolver [.skip 1, .core 1 [] []] {}

def selectedTimes : ℕ → TargetState ⟨0, ⟨fun _ _ _ => 0⟩⟩ loneResolver.committee 1
  | 0 => twoCandidates
  | n + 1 => ((selectedTimes n).takeNextCandidate loneResolver (n + 1)).2

theorem twoCandidates_rotates : Rotates twoCandidates :=
  .turn (.start rfl : Rotates {}) (.add [.skip 1, .core 1 [] []] rfl)

theorem selectedTimes_turn (n : ℕ) (e : ResolutionEntry ℕ ℕ)
    (h : ((selectedTimes n).takeNextCandidate loneResolver (n + 1)).1 = some e) :
    Turn (selectedTimes n) (selectedTimes (n + 1))
      (some ⟨(selectedTimes n).eligible loneResolver, e⟩) := .select h rfl

theorem rotation_skips_nobody_two :
    ∃ picks, Turns twoCandidates picks (selectedTimes 3) ∧
      picks.map Pick.chosen = [.core 1 [] [], .skip 1, .core 1 [] []] ∧
      ∀ a ∈ picks, a.chosen ∈ a.pool :=
  have h : Turns twoCandidates _ (selectedTimes 3) :=
    .step (selectedTimes_turn 0 _ rfl)
      (.step (selectedTimes_turn 1 _ rfl) (.step (selectedTimes_turn 2 _ rfl) (.refl _)))
  ⟨_, h, rfl, fun a ha => ((rotation_skips_nobody twoCandidates_rotates h).2.2 a ha).1⟩

end Vantage
