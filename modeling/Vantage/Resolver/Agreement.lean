import Vantage.Resolver.History

/-!
# Agreement and external validity of one target

All results are about the histories of the parties, of which the correct ones satisfy
`LogFacts`.

* `key1_of_later`: every later phase goes back to a first key of a correct party.
-/

namespace Vantage

namespace Sayings

variable {K D : Type} [DecidableEq K] {F : FaultModel K} {H : K → History K D} {S : Session K D}
  {accepted : K → ResolutionEntry K D → Bool → Option ℕ → Prop}
  (hlog : ∀ p, F.Correct p → LogFacts F H S (accepted p) (H p)) {v : D} {r : ℕ}
include hlog

theorem previous {f t : DirectResolutionPhase} (ht : (f, t) ∈ TargetState.transitions)
    (hf : f ≠ .echo) (h : ∃ p, F.Correct p ∧ SaidValue H r t v p) :
    ∃ q, F.Correct q ∧ SaidValue H r f v q := by
  obtain ⟨p, hp, x, rfl, hx⟩ := h
  exact FaultModel.atLeast_correct ((hlog p hp).later f t ht hf r x hx) FaultModel.f_lt_quorum

theorem key1_of_lock (h : ∃ p, F.Correct p ∧ SaidValue H r .lock v p) :
    ∃ q, F.Correct q ∧ SaidValue H r .key1 v q := by
  have h3 := previous hlog (f := .key3) (by simp [TargetState.transitions]) (by decide) h
  have h2 := previous hlog (f := .key2) (by simp [TargetState.transitions]) (by decide) h3
  exact previous hlog (f := .key1) (by simp [TargetState.transitions]) (by decide) h2

theorem key1_unique {v w : D} {p q : K} (hp : F.Correct p) (hq : F.Correct q)
    (hv : SaidValue H r .key1 v p) (hw : SaidValue H r .key1 w q) : v = w := by
  obtain ⟨x, rfl, hx⟩ := hv
  obtain ⟨y, rfl, hy⟩ := hw
  obtain ⟨⟨key, hex, -⟩, -⟩ := (hlog p hp).key1 r x hx
  obtain ⟨⟨key', hey, -⟩, -⟩ := (hlog q hq).key1 r y hy
  obtain ⟨k, hk, ⟨o, ho⟩, o', ho'⟩ := FaultModel.atLeast_inter hex hey
  exact (StatementRecord.mk.inj ((hlog k hk).unique _ _ _ _ ho ho')).1

theorem key1_view_pos {p : K} (hp : F.Correct p) (h : SaidValue H r .key1 v p) : 0 < r := by
  obtain ⟨x, -, hx⟩ := h
  obtain ⟨⟨key, he, -⟩, -⟩ := (hlog p hp).key1 r x hx
  obtain ⟨q, hq, o, ho⟩ := FaultModel.atLeast_correct he FaultModel.f_lt_quorum
  obtain ⟨key', -, hlt, -⟩ := (hlog q hq).echo r _ ho
  omega

/-- No opening proof of a correct party exists once all first keys from `l` on agree with the
lock. -/
theorem not_opens {r l : ℕ} {lv : D} (hl : 0 < l)
    (hkeys : ∀ k, l ≤ k → k < r → ∀ p, F.Correct p → ∀ w, SaidValue H k .key1 w p → w = lv) :
    ¬Opens F H r l lv := by
  intro ho
  obtain ⟨p, hp, k, v, k', hpr, hlt, hkr, hopen⟩ :=
    FaultModel.atLeast_correct ho (Nat.lt_succ_self _)
  obtain ⟨hk, hk'⟩ := (hlog p hp).proof r k v k' hpr
  have hkey : ∀ j u, (j = 0 ∨ ∃ x, x.value = u ∧ (H p).statement j .key1 x) → l ≤ j → j < r →
      u = lv := by
    intro j u hj hlj hjr
    rcases hj with rfl | hsaid
    · omega
    · exact hkeys j hlj hjr p hp u hsaid
  rcases hopen with hle | ⟨hle, hne⟩
  · have hv := hkey k v hk (by omega) hkr
    rcases hk' with rfl | ⟨x, hx, hs⟩
    · omega
    · exact hx ((hkeys k' hle (by omega) p hp x.value ⟨x, rfl, hs⟩).trans hv.symm)
  · exact hne (hkey k v hk hle hkr)

/-- After a LOCK quorum, the correct parties' first keys of this and of every later view are
for its value. -/
theorem lock_key1 (hq : PhaseSaid F H r .lock v) :
    ∀ r', r ≤ r' → ∀ p, F.Correct p → ∀ w, SaidValue H r' .key1 w p → w = v := by
  obtain ⟨p₀, hp₀, hlock⟩ := FaultModel.atLeast_correct hq FaultModel.f_lt_quorum
  obtain ⟨q₀, hq₀, hkey₀⟩ := key1_of_lock hlog ⟨p₀, hp₀, hlock⟩
  intro r'
  induction r' using Nat.strong_induction_on with
  | _ r' ih =>
    intro hr p hp w hw
    rcases hr.eq_or_lt with rfl | hlt
    · exact key1_unique hlog hp hq₀ hw hkey₀
    obtain ⟨x, rfl, hx⟩ := hw
    -- A correct party is both among the lockers and among the echoers of the later view.
    obtain ⟨k, hk, ⟨y, hy, hlk⟩, hecho⟩ :=
      FaultModel.atLeast_inter hq ((hlog p hp).key1 r' x hx).2
    obtain ⟨z, key, l, hz, hez, hkey, hl, lv, ⟨hsaid, -, hmax⟩, hperm⟩ := hecho hk
    have hrl : r ≤ l := hmax r y hlt hlk
    have hrpos := key1_view_pos hlog hq₀ hkey₀
    have hlv : lv = v := by
      rcases hsaid with rfl | hsaid
      · omega
      obtain ⟨q₁, hq₁, hkey₁⟩ := key1_of_lock hlog ⟨k, hk, hsaid⟩
      exact ih l hl hrl q₁ hq₁ lv hkey₁
    rcases hperm with rfl | rfl | ⟨-, hopen⟩
    · omega
    · exact hlv
    · refine absurd hopen (not_opens hlog (by omega) fun j hj hjr q hq' u hu => ?_)
      exact (ih j hjr (by omega) q hq' u hu).trans hlv.symm

theorem locked_unique {v w : D} (hv : Locked F H v) (hw : Locked F H w) : v = w := by
  obtain ⟨r, hr⟩ := hv
  obtain ⟨r', hr'⟩ := hw
  have key : ∀ {r r' v w}, PhaseSaid F H r .lock v → PhaseSaid F H r' .lock w → r ≤ r' →
      w = v := by
    intro r r' v w hr hr' hle
    obtain ⟨p, hp, hs⟩ := FaultModel.atLeast_correct hr' FaultModel.f_lt_quorum
    obtain ⟨q, hq, hk⟩ := key1_of_lock hlog ⟨p, hp, hs⟩
    exact lock_key1 hlog hr r' hle q hq w hk
  rcases le_total r r' with hle | hle
  · exact (key hr hr' hle).symm
  · exact key hr' hr hle

theorem relay_done (h : AtLeast F.members (F.f + 1) fun q => (H q).done v) :
    Locked F H v := by
  obtain ⟨p, hp, hd⟩ := FaultModel.atLeast_correct h (Nat.lt_succ_self _)
  exact (hlog p hp).done v hd

theorem relay_witness (h : AtLeast F.members (F.f + 1) fun q => (H q).witness r v) :
    Fresh F H S r v := by
  obtain ⟨p, hp, hw⟩ := FaultModel.atLeast_correct h (Nat.lt_succ_self _)
  exact (hlog p hp).witness r v hw

theorem locked_of_doneSaid (h : DoneSaid F H v) : Locked F H v := by
  obtain ⟨p, hp, hd⟩ := FaultModel.atLeast_correct h FaultModel.f_lt_quorum
  exact (hlog p hp).done v hd

/-- A quorum of ECHOs of one view contains, or goes back to, one whose correct members were
locked in earlier views only. -/
theorem ground_echoed {r key : ℕ} (h : Echoed F H r v key) : Grounded F H r v := by
  by_cases hall : ∀ q, F.Correct q → (∃ o, (H q).statement r .echo ⟨v, some key, o⟩) →
      GroundedEcho F H r v q
  · exact h.mono fun q _ hq hc => hall q hc hq
  -- Some echoer has only a lock of this view, so the value already has a first key.
  push Not at hall
  obtain ⟨q, hq, ⟨o, ho⟩, hno⟩ := hall
  obtain ⟨key', hkey', hlt, -, -, l, hperm⟩ := (hlog q hq).echo r _ ho
  have hlr : l = r := by
    have ⟨lv, ⟨_, hle, _⟩, _⟩ := hperm
    by_contra hne
    exact hno ⟨_, key', l, rfl, ho, hlt, by omega, hperm⟩
  obtain ⟨lv, ⟨hsaid, -, -⟩, hc⟩ := hperm
  have hlv : lv = v := by
    rcases hc with h0 | h0 | ⟨h0, -⟩
    · omega
    · exact h0
    · omega
  subst hlr hlv
  rcases hsaid with rfl | hsaid
  · omega
  obtain ⟨p, hp, x, hxv, hx⟩ := key1_of_lock hlog ⟨q, hq, hsaid⟩
  rw [← hxv]
  exact ((hlog p hp).key1 l x hx).2

theorem backed_of_key1 {p : K} (hp : F.Correct p) (h : SaidValue H r .key1 v p) :
    BackedBy F H v := by
  obtain ⟨x, rfl, hx⟩ := h
  obtain ⟨⟨key, he, hb⟩, -⟩ := (hlog p hp).key1 r x hx
  rcases Nat.eq_zero_or_pos key with h0 | h0
  · exact hb h0
  obtain ⟨q, hq, o, ho⟩ := FaultModel.atLeast_correct he FaultModel.f_lt_quorum
  obtain ⟨key', hk, -, hb', -⟩ := (hlog q hq).echo r _ ho
  cases hk
  exact hb' h0

theorem fresh_of_backed (h : BackedBy F H v) : ∃ r, Fresh F H S r v := by
  obtain ⟨r, hq⟩ := h
  obtain ⟨p, hp, hw⟩ := FaultModel.atLeast_correct hq FaultModel.f_lt_quorum
  exact ⟨r, (hlog p hp).witness r v hw⟩

theorem decision_fresh {p : K} (hp : F.Correct p) {e : ResolutionEntry K D}
    (h : (H p).decision e) : ∃ r, Fresh F H S r (valueDigest S e) := by
  obtain ⟨r, hr⟩ := locked_of_doneSaid hlog ((hlog p hp).decision e h)
  obtain ⟨q, hq, hs⟩ := FaultModel.atLeast_correct hr FaultModel.f_lt_quorum
  obtain ⟨k, hk, hkey⟩ := key1_of_lock hlog ⟨q, hq, hs⟩
  exact fresh_of_backed hlog (backed_of_key1 hlog hk hkey)

theorem decision_unique (hS : S.hash.CollisionFree) {p q : K} (hp : F.Correct p)
    (hq : F.Correct q) {e e' : ResolutionEntry K D} (he : (H p).decision e)
    (he' : (H q).decision e') : e = e' :=
  valueDigest_injective hS (locked_unique hlog
    (locked_of_doneSaid hlog ((hlog p hp).decision e he))
    (locked_of_doneSaid hlog ((hlog q hq).decision e' he')))

end Sayings

end Vantage
