import Vantage.Autobahn.Synchronizer

/-!
# The output log

The committer queues Commits until their slots are contiguous, executes each slot's lanes in the
order of their authors down to the heights executed before, and merges the suffixes round-robin.

* `inOrder`: the log after the slots `1, …, s`, each with its cut;
* `inOrder_spec`: it exists, and its cars of a lane are at heights `1, 2, 3, …`;
* `output_deterministic`: whatever the order and repetition of the Commits and the iteration order
  of the cuts, the committer's output is such a log.
-/

namespace Vantage.Autobahn

variable {K D S : Type} [LinearOrder K] [LinearOrder D] {A : Crypto K D S}

/-! ### Merging lanes -/

/-- Rounds over the lanes, each taking the next car of every lane that has one. -/
def zipRounds : ℕ → List (K × List (Header K D S)) → List (Header K D S)
  | 0, _ => []
  | n + 1, suffixes =>
    suffixes.filterMap (fun s => s.2.head?) ++ zipRounds n (suffixes.map fun s => (s.1, s.2.tail))

/-- Sorted by author, then round-robin; with as many rounds as cars nothing is left. -/
def zipLaneSuffixes (suffixes : List (K × List (Header K D S))) : List (Header K D S) :=
  zipRounds (suffixes.map fun s => s.2.length).sum (suffixes.insertionSort fun s t => s.1 ≤ t.1)

/-! ### The committer -/

/-- The executed height of every lane, the queued Commits and the last executed slot. -/
structure CommitterState (K D S : Type) where
  lastExecutedHeights : Table K ℕ
  log : Table ℕ (Cut K D S)
  lastExecutedSlot : ℕ

/-- The lanes of a cut in the order of their authors. -/
def orderedProposals (p : Cut K D S) : List (Sigma fun _ : K => Proposal K D S) :=
  p.entries.insertionSort fun e f => e.1 ≤ f.1

variable (c : Committee K) (store : Store A)

/-- The lanes of a cut in turn: the suffix above what is executed, if any.  `none` is a failed
unwrap. -/
def executeLanes : List (Sigma fun _ : K => Proposal K D S) → Table K ℕ →
    Option (Table K ℕ × List (K × List (Header K D S)))
  | [], heights => some (heights, [])
  | ⟨pk, q⟩ :: lanes, heights => do
    let stop ← heights.lookup pk
    if q.height ≤ stop then executeLanes lanes heights
    else
      let headers ← getAllHeadersForProposal c store q.height q stop
      let (heights, suffixes) ← executeLanes lanes (heights.insert pk q.height)
      some (heights, (pk, headers) :: suffixes)

/-- The cars that a slot adds to the log. -/
def executeSlot (p : Cut K D S) (heights : Table K ℕ) :
    Option (Table K ℕ × List (Header K D S)) := do
  let (heights, suffixes) ← executeLanes c store (orderedProposals p) heights
  some (heights, zipLaneSuffixes suffixes)

/-- Executes queued slots as long as they are contiguous. -/
def drain : ℕ → CommitterState K D S → Option (CommitterState K D S × List (Header K D S))
  | 0, st => some (st, [])
  | n + 1, st =>
    match st.log.lookup (st.lastExecutedSlot + 1) with
    | none => some (st, [])
    | some p => do
      let (heights, out) ← executeSlot c store p st.lastExecutedHeights
      let (st, rest) ← drain n
        ⟨heights, st.log.erase (st.lastExecutedSlot + 1), st.lastExecutedSlot + 1⟩
      some (st, out ++ rest)

/-- One Commit; the queue loses an entry in every round. -/
def processCommitMessage (slot : ℕ) (p : Cut K D S) (st : CommitterState K D S) :
    Option (CommitterState K D S × List (Header K D S)) :=
  if slot ≤ st.lastExecutedSlot then some (st, [])
  else drain c store (Table.size (st.log.insert slot p)) { st with log := st.log.insert slot p }

/-- Commits as they arrive. -/
def runCommits : List (ℕ × Cut K D S) → CommitterState K D S →
    Option (CommitterState K D S × List (Header K D S))
  | [], st => some (st, [])
  | (slot, p) :: ms, st => do
    let (st, out) ← processCommitMessage c store slot p st
    let (st, rest) ← runCommits ms st
    some (st, out ++ rest)

/-- Every lane of the committee starts at height 0. -/
def initialHeights : Table K ℕ := (c.sorted.map fun k => (⟨k, 0⟩ : Sigma fun _ : K => ℕ)).toAList

/-- Nothing is executed yet. -/
def CommitterState.new : CommitterState K D S := ⟨initialHeights c, ∅, 0⟩

/-- The log after slots `1, …, s` with the heights it leaves. -/
def inOrder (cutOf : ℕ → Cut K D S) : ℕ → Option (Table K ℕ × List (Header K D S))
  | 0 => some (initialHeights c, [])
  | s + 1 => do
    let (heights, out) ← inOrder cutOf s
    let (heights, new) ← executeSlot c store (cutOf (s + 1)) heights
    some (heights, out ++ new)

/-- The height of a lane after slots `1, …, s`. -/
def executedHeight (cutOf : ℕ → Cut K D S) : ℕ → K → ℕ
  | 0, _ => 0
  | s + 1, lane =>
    max (executedHeight cutOf s lane) ((((cutOf (s + 1)).lookup lane).map Proposal.height).getD 0)

/-- The store holds every lane suffix that the cuts name, in the lanes of the committee. -/
def SuffixesStored (cutOf : ℕ → Cut K D S) : Prop :=
  ∀ s lane q, (cutOf (s + 1)).lookup lane = some q → lane ∈ c.authorities ∧
    Present store lane (executedHeight cutOf s lane) q.height q.headerDigest

/-! ### What the merge keeps -/

omit [LinearOrder D] in
theorem heads_filter (lane : K) {l : List (K × List (Header K D S))}
    (h : ∀ s ∈ l, ∀ x ∈ s.2, x.author = s.1) :
    (l.filterMap fun s => s.2.head?).filter (fun x => x.author = lane) =
      (l.filter fun s => s.1 = lane).filterMap fun s => s.2.head? := by
  induction l with
  | nil => rfl
  | cons s l ih =>
    obtain ⟨hs, hl⟩ := List.forall_mem_cons.mp h
    rcases s with ⟨k, _ | ⟨x, xs⟩⟩
    · rw [List.filterMap_cons_none rfl, ih hl]
      by_cases hk : k = lane
      · rw [List.filter_cons_of_pos (by simpa using hk), List.filterMap_cons_none rfl]
      · rw [List.filter_cons_of_neg (by simpa using hk)]
    · have hx : x.author = k := hs x (List.mem_cons_self ..)
      by_cases hk : k = lane <;> simp [hk, hx, ih hl]

omit [LinearOrder D] in
theorem zipRounds_filter (lane : K) (n : ℕ) {l : List (K × List (Header K D S))}
    (h : ∀ s ∈ l, ∀ x ∈ s.2, x.author = s.1) :
    (zipRounds n l).filter (fun x => x.author = lane) =
      zipRounds n (l.filter fun s => s.1 = lane) := by
  induction n generalizing l with
  | zero => rfl
  | succ n ih =>
    have htails : ∀ s ∈ l.map (fun s => (s.1, s.2.tail)), ∀ x ∈ s.2, x.author = s.1 := by
      intro s hs x hx
      obtain ⟨s, hmem, rfl⟩ := List.mem_map.mp hs
      exact h s hmem x (List.mem_of_mem_tail hx)
    rw [zipRounds, zipRounds, List.filter_append, heads_filter lane h, ih htails, List.filter_map]
    rfl

/-- The entry of a lane among the suffixes: none if there is nothing to execute. -/
def laneSuffix (lane : K) (hs : List (Header K D S)) : List (K × List (Header K D S)) :=
  if hs.isEmpty then [] else [(lane, hs)]

omit [LinearOrder K] [LinearOrder D] in
theorem zipRounds_laneSuffix (lane : K) (n : ℕ) (hs : List (Header K D S)) :
    zipRounds n (laneSuffix lane hs) = hs.take n := by
  have hnil : ∀ n, zipRounds n ([] : List (K × List (Header K D S))) = [] := by
    intro n
    induction n with
    | zero => rfl
    | succ n ih => simpa [zipRounds] using ih
  have hone : ∀ n (hs : List (Header K D S)), zipRounds n [(lane, hs)] = hs.take n := by
    intro n
    induction n with
    | zero => exact fun _ => rfl
    | succ n ih => rintro (_ | ⟨x, hs⟩) <;> simp [zipRounds, ih]
  rw [laneSuffix]
  split
  next he => rw [hnil, List.isEmpty_iff.mp he, List.take_nil]
  next => exact hone n hs

omit [LinearOrder D] in
theorem zipLaneSuffixes_filter {lane : K} {hs : List (Header K D S)}
    {l : List (K × List (Header K D S))} (h : ∀ s ∈ l, ∀ x ∈ s.2, x.author = s.1)
    (hl : (l.filter fun s => s.1 = lane) = laneSuffix lane hs) :
    (zipLaneSuffixes l).filter (fun x => x.author = lane) = hs := by
  set sorted := l.insertionSort fun s t => s.1 ≤ t.1 with hsorted
  have hperm : sorted.Perm l := List.perm_insertionSort _ l
  have hone : (sorted.filter fun s => s.1 = lane) = laneSuffix lane hs := by
    have := hperm.filter fun s => s.1 = lane
    rw [hl] at this
    unfold laneSuffix at this ⊢
    split
    next he => exact List.perm_nil.mp (by simpa [he] using this)
    next he => exact List.perm_singleton.mp (by simpa [he] using this)
  have hlength : hs.length ≤ (l.map fun s => s.2.length).sum := by
    rcases hs with _ | ⟨x, hs⟩
    · exact Nat.zero_le _
    · have : (lane, x :: hs) ∈ l.filter fun s => s.1 = lane := by
        rw [hl]
        exact List.mem_singleton_self _
      exact List.le_sum_of_mem (List.mem_map.mpr ⟨_, (List.mem_filter.mp this).1, rfl⟩)
  rw [zipLaneSuffixes, zipRounds_filter lane _ fun s hs => h s (hperm.mem_iff.mp hs), hone,
    zipRounds_laneSuffix, List.take_of_length_le hlength]

/-! ### Slots in order -/

/-- The committer after the Commits of some slots: its output is the log of the slots it has
executed, and the others are queued. -/
structure Executing (cutOf : ℕ → Cut K D S) (arrived : List ℕ) (st : CommitterState K D S)
    (out : List (Header K D S)) : Prop where
  log_eq : inOrder c store cutOf st.lastExecutedSlot = some (st.lastExecutedHeights, out)
  queued : ∀ {s p}, st.log.lookup s = some p →
    st.lastExecutedSlot < s ∧ s ∈ arrived ∧ p.entries.Perm (cutOf s).entries
  seen : ∀ s ∈ arrived, s ≤ st.lastExecutedSlot ∨ s ∈ st.log
  executed : ∀ s, 1 ≤ s → s ≤ st.lastExecutedSlot → s ∈ arrived

section InOrder

variable {c store} (hA : A.CollisionFree)
include hA

theorem executeLanes_spec {l : List (Sigma fun _ : K => Proposal K D S)} (hl : l.NodupKeys)
    {heights : Table K ℕ} (h : ∀ e ∈ l, e.1 ∈ heights ∧ e.1 ∈ c.authorities ∧
      Present store e.1 ((heights.lookup e.1).getD 0) e.2.height e.2.headerDigest) :
    ∃ heights' suffixes, executeLanes c store l heights = some (heights', suffixes) ∧
      (∀ k ∈ heights, k ∈ heights') ∧ (∀ s ∈ suffixes, ∀ x ∈ s.2, x.author = s.1) ∧
        ∀ lane, (heights'.lookup lane).getD 0 =
            max ((heights.lookup lane).getD 0) (((l.dlookup lane).map Proposal.height).getD 0) ∧
          ∃ hs, (suffixes.filter fun s => s.1 = lane) = laneSuffix lane hs ∧
            hs.map Header.height = List.range' ((heights.lookup lane).getD 0 + 1)
              (((l.dlookup lane).map Proposal.height).getD 0 - (heights.lookup lane).getD 0) := by
  induction l generalizing heights with
  | nil => exact ⟨heights, [], rfl, fun _ => id, by simp, fun lane => ⟨by simp, [], rfl, by simp⟩⟩
  | cons e l ih =>
    obtain ⟨pk, q⟩ := e
    obtain ⟨⟨hmem, hpk, hpresent⟩, hrest⟩ := List.forall_mem_cons.mp h
    obtain ⟨hnotin, hl⟩ := List.nodupKeys_cons.mp hl
    have hnone : l.dlookup pk = none := List.dlookup_eq_none.mpr hnotin
    obtain ⟨stop, hstop⟩ := Option.isSome_iff_exists.mp (AList.lookup_isSome.mpr hmem)
    simp only [hstop, Option.getD_some] at hpresent
    by_cases hle : q.height ≤ stop
    · obtain ⟨heights', suffixes, hrun, hkeep, hauthors, hlanes⟩ := ih hl hrest
      refine ⟨heights', suffixes, by simp [executeLanes, hstop, hle, hrun], hkeep, hauthors, ?_⟩
      intro lane
      obtain ⟨hheight, hs, hfilter, hheights⟩ := hlanes lane
      by_cases hk : lane = pk
      · subst hk
        simp only [hnone, hstop, Option.map_none, Option.getD_none, Option.getD_some,
          Nat.zero_sub, List.dlookup_cons_eq, Option.map_some] at hheight hheights ⊢
        exact ⟨by omega, hs, hfilter, by simpa [Nat.sub_eq_zero_of_le hle] using hheights⟩
      · rw [List.dlookup_cons_ne _ _ hk]
        exact ⟨hheight, hs, hfilter, hheights⟩
    · push Not at hle
      obtain ⟨headers, hheaders, hrange, hauthor⟩ := getAll_of_present hA hpk le_rfl hle hpresent
      have hother : ∀ e ∈ l, e.1 ≠ pk := fun e he heq => hnotin (List.mem_map.mpr ⟨e, he, heq⟩)
      have hrest' : ∀ e ∈ l, e.1 ∈ heights.insert pk q.height ∧ e.1 ∈ c.authorities ∧
          Present store e.1 (((heights.insert pk q.height).lookup e.1).getD 0) e.2.height
            e.2.headerDigest := by
        intro e he
        rw [AList.lookup_insert_ne (hother e he)]
        exact ⟨(AList.mem_insert _).mpr (.inr (hrest e he).1), (hrest e he).2⟩
      obtain ⟨heights', suffixes, hrun, hkeep, hauthors, hlanes⟩ := ih hl hrest'
      refine ⟨heights', (pk, headers) :: suffixes, ?_,
        fun k hk => hkeep k ((AList.mem_insert _).mpr (.inr hk)),
        List.forall_mem_cons.mpr ⟨hauthor, hauthors⟩, fun lane => ?_⟩
      · simp [executeLanes, hstop, hrun, hheaders, Nat.not_le.mpr hle]
      obtain ⟨hheight, hs, hfilter, hheights⟩ := hlanes lane
      by_cases hk : lane = pk
      · subst hk
        simp only [hnone, AList.lookup_insert, Option.map_none, Option.getD_none, Option.getD_some,
          Nat.zero_sub, List.range'_zero, List.map_eq_nil_iff] at hheight hheights
        subst hheights
        have hne : headers.isEmpty = false := by
          rw [List.isEmpty_eq_false_iff, ← List.length_pos_iff, ← List.length_map, hrange,
            List.length_range']
          omega
        refine ⟨by simp [hheight, hstop, hle.le], headers, ?_, by simpa [hstop] using hrange⟩
        rw [List.filter_cons_of_pos (by simp), hfilter]
        simp [laneSuffix, hne]
      · rw [List.dlookup_cons_ne _ _ hk]
        rw [AList.lookup_insert_ne hk] at hheight hheights
        refine ⟨hheight, hs, ?_, hheights⟩
        rw [List.filter_cons_of_neg (by simpa using Ne.symm hk), hfilter]

variable {cutOf : ℕ → Cut K D S} (hs : SuffixesStored c store cutOf) {arrived : List ℕ}
  {st : CommitterState K D S} {out : List (Header K D S)}
include hs

theorem inOrder_spec (s : ℕ) : ∃ heights out, inOrder c store cutOf s = some (heights, out) ∧
    (∀ k ∈ c.authorities, k ∈ heights) ∧ ∀ lane,
      (heights.lookup lane).getD 0 = executedHeight cutOf s lane ∧
        (out.filter fun x => x.author = lane).map Header.height =
          List.range' 1 (executedHeight cutOf s lane) := by
  induction s with
  | zero =>
    refine ⟨initialHeights c, [], rfl, fun k hk => ?_, fun lane => ⟨?_, rfl⟩⟩
    · rw [← AList.lookup_isSome, initialHeights, AList.lookup_to_alist, List.dlookup_isSome]
      exact List.mem_map.mpr ⟨_, List.mem_map_of_mem (c.mem_sorted.mpr hk), rfl⟩
    · rw [initialHeights, AList.lookup_to_alist]
      cases h : (c.sorted.map fun k => (⟨k, 0⟩ : Sigma fun _ : K => ℕ)).dlookup lane with
      | none => rfl
      | some n =>
        obtain ⟨k, -, hk⟩ := List.mem_map.mp (List.of_mem_dlookup h)
        cases hk
        rfl
  | succ s ih =>
    obtain ⟨heights, out, hrun, hmem, hlanes⟩ := ih
    have hperm : (orderedProposals (cutOf (s + 1))).Perm (cutOf (s + 1)).entries :=
      List.perm_insertionSort _ _
    have hnodup : (orderedProposals (cutOf (s + 1))).NodupKeys :=
      (List.perm_nodupKeys hperm).mpr (cutOf (s + 1)).nodupKeys
    have hlookup : ∀ lane, (orderedProposals (cutOf (s + 1))).dlookup lane =
        (cutOf (s + 1)).lookup lane := fun lane => List.perm_dlookup lane hnodup hperm
    have hstored : ∀ e ∈ orderedProposals (cutOf (s + 1)), e.1 ∈ heights ∧ e.1 ∈ c.authorities ∧
        Present store e.1 ((heights.lookup e.1).getD 0) e.2.height e.2.headerDigest := by
      rintro ⟨lane, q⟩ he
      obtain ⟨hlane, hpresent⟩ := hs s lane q (AList.mem_lookup_iff.mpr (hperm.mem_iff.mp he))
      exact ⟨hmem lane hlane, hlane, by rwa [(hlanes lane).1]⟩
    obtain ⟨heights', suffixes, hexec, hkeep, hauthors, hspec⟩ :=
      executeLanes_spec hA hnodup hstored
    refine ⟨heights', out ++ zipLaneSuffixes suffixes, ?_, fun k hk => hkeep k (hmem k hk), ?_⟩
    · simp [inOrder, hrun, executeSlot, hexec]
    intro lane
    obtain ⟨hheight, suffix, hfilter, hrange⟩ := hspec lane
    obtain ⟨hbefore, hout⟩ := hlanes lane
    rw [hlookup, hbefore] at hheight hrange
    refine ⟨hheight, ?_⟩
    rw [List.filter_append, List.map_append, hout, zipLaneSuffixes_filter hauthors hfilter, hrange,
      Nat.add_comm _ 1, executedHeight]
    set new := (((cutOf (s + 1)).lookup lane).map Proposal.height).getD 0
    rw [List.range'_append_1]
    congr 1
    omega

omit [LinearOrder D] hs hA in
theorem orderedProposals_eq {p p' : Cut K D S} (h : p.entries.Perm p'.entries) :
    orderedProposals p = orderedProposals p' := by
  have hp : (orderedProposals p).Perm p.entries := List.perm_insertionSort _ _
  have hp' : (orderedProposals p').Perm p'.entries := List.perm_insertionSort _ _
  refine List.Perm.eq_of_pairwise (fun e f he hf hle hge => ?_)
    (List.pairwise_insertionSort _ _) (List.pairwise_insertionSort _ _)
    (hp.trans (h.trans hp'.symm))
  -- two entries of one author are the same entry
  exact p.nodupKeys.eq_of_fst_eq (hp.mem_iff.mp he) (h.mem_iff.mpr (hp'.mem_iff.mp hf))
    (le_antisymm hle hge)

theorem Executing.next (h : Executing c store cutOf arrived st out) {p : Cut K D S}
    (hp : st.log.lookup (st.lastExecutedSlot + 1) = some p) :
    ∃ heights new, executeSlot c store p st.lastExecutedHeights = some (heights, new) ∧
      Executing c store cutOf arrived ⟨heights, st.log.erase (st.lastExecutedSlot + 1),
        st.lastExecutedSlot + 1⟩ (out ++ new) := by
  obtain ⟨-, harrived, hperm⟩ := h.queued hp
  obtain ⟨heights, out', hrun, -, -⟩ := inOrder_spec hA hs (st.lastExecutedSlot + 1)
  have hexec : executeSlot c store p st.lastExecutedHeights =
      executeSlot c store (cutOf (st.lastExecutedSlot + 1)) st.lastExecutedHeights := by
    rw [executeSlot, executeSlot, orderedProposals_eq hperm]
  rw [inOrder, h.log_eq] at hrun
  cases hnew : executeSlot c store (cutOf (st.lastExecutedSlot + 1)) st.lastExecutedHeights with
  | none => simp [hnew] at hrun
  | some r =>
    refine ⟨r.1, r.2, hexec.trans hnew, ?_, fun {s q} hq => ?_, fun s hmem => ?_,
      fun s hpos hle => ?_⟩
    · simp [inOrder, h.log_eq, hnew]
    · have hne : s ≠ st.lastExecutedSlot + 1 := by
        rintro rfl
        simp at hq
      rw [AList.lookup_erase_ne hne] at hq
      obtain ⟨hlt, hrest⟩ := h.queued hq
      exact ⟨Nat.lt_of_le_of_ne hlt (Ne.symm hne), hrest⟩
    · by_cases hle : s ≤ st.lastExecutedSlot + 1
      · exact .inl hle
      · have hlog := (h.seen s hmem).resolve_left (by omega)
        exact .inr (AList.mem_erase.mpr ⟨by omega, hlog⟩)
    · rcases Nat.le_or_eq_of_le_succ hle with hle | rfl
      · exact h.executed s hpos hle
      · exact harrived

theorem drain_spec {n : ℕ} (hn : Table.size st.log ≤ n)
    (h : Executing c store cutOf arrived st out) :
    ∃ st' new, drain c store n st = some (st', new) ∧
      Executing c store cutOf arrived st' (out ++ new) ∧ st'.lastExecutedSlot + 1 ∉ st'.log := by
  induction n generalizing st out with
  | zero =>
    refine ⟨st, [], rfl, by simpa using h, fun hmem => ?_⟩
    have := Table.size_erase_of_mem hmem
    omega
  | succ n ih =>
    cases hp : st.log.lookup (st.lastExecutedSlot + 1) with
    | none =>
      exact ⟨st, [], by simp [drain, hp], by simpa using h, AList.lookup_eq_none.mp hp⟩
    | some p =>
      obtain ⟨heights, new, hexec, hnext⟩ := h.next hA hs hp
      have hmem : st.lastExecutedSlot + 1 ∈ st.log := AList.lookup_isSome.mp (by simp [hp])
      have hsize := Table.size_erase_of_mem hmem
      have hn' : Table.size (st.log.erase (st.lastExecutedSlot + 1)) ≤ n := by omega
      obtain ⟨st', rest, hrun, hok, hlast⟩ := ih hn' hnext
      exact ⟨st', new ++ rest, by simp [drain, hp, hexec, hrun], by simpa using hok, hlast⟩

theorem processCommitMessage_spec (h : Executing c store cutOf arrived st out)
    (hlast : st.lastExecutedSlot + 1 ∉ st.log) {slot : ℕ} {p : Cut K D S}
    (hp : p.entries.Perm (cutOf slot).entries) :
    ∃ st' new, processCommitMessage c store slot p st = some (st', new) ∧
      Executing c store cutOf (slot :: arrived) st' (out ++ new) ∧
        st'.lastExecutedSlot + 1 ∉ st'.log := by
  unfold processCommitMessage
  split
  next hle =>
    refine ⟨st, [], rfl, ⟨by simpa using h.log_eq, fun {s q} hq => ?_, ?_, fun s hpos hs => ?_⟩,
      hlast⟩
    · obtain ⟨hlt, hmem, hperm⟩ := h.queued hq
      exact ⟨hlt, List.mem_cons_of_mem _ hmem, hperm⟩
    · exact List.forall_mem_cons.mpr ⟨.inl hle, h.seen⟩
    · exact List.mem_cons_of_mem _ (h.executed s hpos hs)
  next hgt =>
    refine drain_spec hA hs le_rfl ⟨h.log_eq, fun {s q} hq => ?_, ?_, fun s hpos hs => ?_⟩
    · rcases Table.lookup_insert_cases hq with ⟨rfl, rfl⟩ | hq
      · exact ⟨Nat.lt_of_not_le hgt, List.mem_cons_self .., hp⟩
      · obtain ⟨hlt, hmem, hperm⟩ := h.queued hq
        exact ⟨hlt, List.mem_cons_of_mem _ hmem, hperm⟩
    · refine List.forall_mem_cons.mpr ⟨.inr ((AList.mem_insert _).mpr (.inl rfl)), fun s hs => ?_⟩
      exact (h.seen s hs).imp_right fun hlog => (AList.mem_insert _).mpr (.inr hlog)
    · exact List.mem_cons_of_mem _ (h.executed s hpos hs)

theorem runCommits_spec {ms : List (ℕ × Cut K D S)}
    (hms : ∀ m ∈ ms, m.2.entries.Perm (cutOf m.1).entries)
    (h : Executing c store cutOf arrived st out) (hlast : st.lastExecutedSlot + 1 ∉ st.log) :
    ∃ st' new, runCommits c store ms st = some (st', new) ∧
      Executing c store cutOf ((ms.map Prod.fst).reverse ++ arrived) st' (out ++ new) ∧
        st'.lastExecutedSlot + 1 ∉ st'.log := by
  induction ms generalizing arrived st out with
  | nil => exact ⟨st, [], rfl, by simpa using h, hlast⟩
  | cons m ms ih =>
    obtain ⟨hm, hms⟩ := List.forall_mem_cons.mp hms
    obtain ⟨st₁, new, hstep, h₁, hlast₁⟩ := processCommitMessage_spec hA hs h hlast hm
    obtain ⟨st₂, rest, hrun, h₂, hlast₂⟩ := ih hms h₁ hlast₁
    exact ⟨st₂, new ++ rest, by simp [runCommits, hstep, hrun], by simpa using h₂, hlast₂⟩

omit hs hA in
theorem Executing.le_iff (h : Executing c store cutOf arrived st out)
    (hlast : st.lastExecutedSlot + 1 ∉ st.log) (s : ℕ) :
    s ≤ st.lastExecutedSlot ↔ ∀ j, 1 ≤ j → j ≤ s → j ∈ arrived := by
  constructor
  · exact fun hle j hpos hj => h.executed j hpos (hj.trans hle)
  · intro hall
    by_contra hgt
    rcases h.seen _ (hall (st.lastExecutedSlot + 1) (by omega) (by omega)) with hle | hmem
    · omega
    · exact hlast hmem

omit hs hA in
theorem inOrder_mono {s s' : ℕ} (hle : s ≤ s') {r r' : Table K ℕ × List (Header K D S)}
    (h : inOrder c store cutOf s = some r) (h' : inOrder c store cutOf s' = some r') :
    r.2 <+: r'.2 := by
  induction s', hle using Nat.le_induction generalizing r' with
  | base => rw [Option.some.inj (h.symm.trans h')]
  | succ s' _ ih =>
    rw [inOrder] at h'
    obtain ⟨r₁, h₁, h'⟩ := Option.bind_eq_some_iff.mp h'
    obtain ⟨r₂, -, h'⟩ := Option.bind_eq_some_iff.mp h'
    rw [← Option.some.inj h']
    exact (ih h₁).trans (List.prefix_append _ _)

end InOrder

/-- Fix a cut for every slot, with its lane suffixes stored.  Whatever Commits arrive, in any order
and number and with any iteration order of their cuts, the output is the log of the contiguous slots
among them.  So two outputs are prefixes of one another, equal if the same slots arrived, and hold
each lane at the heights `1, 2, 3, …`. -/
theorem output_deterministic {c : Committee K} {store : Store A} (hA : A.CollisionFree)
    {cutOf : ℕ → Cut K D S} (hs : SuffixesStored c store cutOf) {ms ms' : List (ℕ × Cut K D S)}
    (hms : ∀ m ∈ ms, m.2.entries.Perm (cutOf m.1).entries)
    (hms' : ∀ m ∈ ms', m.2.entries.Perm (cutOf m.1).entries) :
    ∃ st out st' out', runCommits c store ms (.new c) = some (st, out) ∧
      runCommits c store ms' (.new c) = some (st', out') ∧
      (out <+: out' ∨ out' <+: out) ∧
      ((∀ s, s ∈ ms.map Prod.fst ↔ s ∈ ms'.map Prod.fst) → out = out') ∧
      (∀ s, s ≤ st.lastExecutedSlot ↔ ∀ j, 1 ≤ j → j ≤ s → j ∈ ms.map Prod.fst) ∧
      inOrder c store cutOf st.lastExecutedSlot = some (st.lastExecutedHeights, out) ∧
      ∀ lane, (out.filter fun x => x.author = lane).map Header.height =
        List.range' 1 (executedHeight cutOf st.lastExecutedSlot lane) := by
  have hinit : Executing c store cutOf [] (.new c) [] :=
    ⟨rfl, fun h => by simp [CommitterState.new] at h, by simp, fun s hpos hle => by
      have : s ≤ 0 := hle
      omega⟩
  have hlast : (CommitterState.new c : CommitterState K D S).lastExecutedSlot + 1 ∉
      (CommitterState.new c : CommitterState K D S).log := AList.notMem_empty _
  obtain ⟨st, out, hrun, hok, hnext⟩ := runCommits_spec hA hs hms hinit hlast
  obtain ⟨st', out', hrun', hok', hnext'⟩ := runCommits_spec hA hs hms' hinit hlast
  simp only [List.nil_append, List.append_nil] at hok hok'
  have hslots := hok.le_iff hnext
  have hslots' := hok'.le_iff hnext'
  simp only [List.mem_reverse] at hslots hslots'
  refine ⟨st, out, st', out', hrun, hrun', ?_, fun hsame => ?_, hslots, hok.log_eq, fun lane => ?_⟩
  · rcases le_total st.lastExecutedSlot st'.lastExecutedSlot with hle | hle
    · exact .inl (inOrder_mono hle hok.log_eq hok'.log_eq)
    · exact .inr (inOrder_mono hle hok'.log_eq hok.log_eq)
  · have heq : st.lastExecutedSlot = st'.lastExecutedSlot :=
      eq_of_forall_le_iff fun s => by simp only [hslots, hslots', hsame]
    have hlog := hok'.log_eq
    rw [← heq, hok.log_eq] at hlog
    exact (Prod.mk.inj (Option.some.inj hlog)).2
  · obtain ⟨heights, out₁, hlog, -, hlanes⟩ := inOrder_spec hA hs st.lastExecutedSlot
    have : out = out₁ := (Prod.mk.inj (Option.some.inj (hok.log_eq.symm.trans hlog))).2
    rw [this]
    exact (hlanes lane).2

section Example

/-- The first car of lane 2. -/
def otherCar : Header (Fin 4) ℕ (Fin 4) := laneCar 2 1 [] (genesisDigest .named 2) []

/-- Two cars of lane 1 and one of lane 2. -/
def laneStore : Store .named :=
  (((Store.empty .named).put otherCar).put (secondCar [])).put (firstCar [])

/-- The car as an optimistic tip. -/
def tipOf (h : Header (Fin 4) ℕ (Fin 4)) : Proposal (Fin 4) ℕ (Fin 4) := ⟨h.id, h.height, none⟩

/-- The first slot has the second car of lane 1, the later ones only the first. -/
def slotCut (slot : ℕ) : Cut (Fin 4) ℕ (Fin 4) :=
  (AList.singleton 1 (tipOf (if slot = 1 then secondCar [] else firstCar []))).insert 2
    (tipOf otherCar)

/-- The same cuts in the other iteration order. -/
def slotCutReversed (slot : ℕ) : Cut (Fin 4) ℕ (Fin 4) :=
  (AList.singleton 2 (tipOf otherCar)).insert 1
    (tipOf (if slot = 1 then secondCar [] else firstCar []))

theorem slotCutReversed_perm (slot : ℕ) :
    (slotCutReversed slot).entries.Perm (slotCut slot).entries :=
  List.Perm.swap _ _ _

theorem laneStore_present : ∀ h ∈ [firstCar [], secondCar [], otherCar],
    Present laneStore h.author 0 h.height h.id := by
  have hfirst : Present laneStore 1 0 1 (firstCar []).id :=
    .inr ⟨firstCar [], rfl, rfl, rfl, trivial⟩
  have hsecond : Present laneStore 1 0 2 (secondCar []).id :=
    .inr ⟨secondCar [], rfl, rfl, rfl, hfirst⟩
  have hother : Present laneStore 2 0 1 otherCar.id := .inr ⟨otherCar, rfl, rfl, rfl, trivial⟩
  simp only [List.forall_mem_cons]
  exact ⟨hfirst, hsecond, hother, by simp⟩

theorem suffixesStored_slotCut : SuffixesStored four laneStore slotCut := by
  intro s lane q hq
  refine ⟨Finset.mem_univ lane, ?_⟩
  obtain ⟨h, hh, rfl, rfl⟩ : ∃ h ∈ [firstCar [], secondCar [], otherCar],
      q = tipOf h ∧ lane = h.author := by
    have hmem : (⟨lane, q⟩ : Sigma fun _ => _) ∈ ([⟨2, tipOf otherCar⟩,
        ⟨1, tipOf (if s + 1 = 1 then secondCar [] else firstCar [])⟩] : List (Sigma fun _ => _)) :=
      AList.mem_lookup_iff.mp hq
    simp only [List.mem_cons, List.not_mem_nil, or_false, Sigma.mk.injEq, heq_eq_eq] at hmem
    rcases hmem with ⟨rfl, rfl⟩ | ⟨rfl, rfl⟩
    · exact ⟨otherCar, by simp, rfl, rfl⟩
    · split
      · exact ⟨secondCar [], by simp, rfl, rfl⟩
      · exact ⟨firstCar [], by simp, rfl, rfl⟩
  exact (laneStore_present h hh).mono Crypto.named_collisionFree (fun _ h => h) (Nat.zero_le _)

/-- The second slot first, then the first one twice, against both slots in order and with the other
iteration order. -/
theorem output_deterministic_twoLanes : ∃ st out st' out',
    runCommits four laneStore [(2, slotCut 2), (1, slotCutReversed 1), (1, slotCut 1)] (.new four) =
        some (st, out) ∧
      runCommits four laneStore [(1, slotCut 1), (2, slotCutReversed 2)] (.new four) =
        some (st', out') ∧
      out = out' ∧ out.map (fun h => (h.author, h.height)) = [(1, 1), (2, 1), (1, 2)] := by
  have hms : ∀ m ∈ [(2, slotCut 2), (1, slotCutReversed 1), (1, slotCut 1)],
      m.2.entries.Perm (slotCut m.1).entries := by
    simp [slotCutReversed_perm]
  have hms' : ∀ m ∈ [(1, slotCut 1), (2, slotCutReversed 2)],
      m.2.entries.Perm (slotCut m.1).entries := by
    simp [slotCutReversed_perm]
  obtain ⟨st, out, st', out', h, h', -, hsame, -⟩ :=
    output_deterministic Crypto.named_collisionFree suffixesStored_slotCut hms hms'
  have hout : (runCommits four laneStore [(1, slotCut 1), (2, slotCutReversed 2)] (.new four)).map
      (fun r => r.2.map fun h => (h.author, h.height)) = some [(1, 1), (2, 1), (1, 2)] := by
    decide +kernel
  have heq : out = out' := hsame (by simp [or_comm])
  rw [h', ← heq] at hout
  exact ⟨st, out, st', out', h, h', heq, Option.some.inj hout⟩

end Example

end Vantage.Autobahn
