import Vantage.Resolver.HonestStep

/-!
# The resolvers of all parties

A `World` holds what every party has sent, the cores of its targets, the votes its caller has
accepted and its retention floor.

* `inv_init`, `Inv.of_coreStep`, `Inv.byzantine`, `Inv.accept`, `Inv.gc`: what establishes and
  keeps `World.Inv`.
-/

namespace Vantage

/-- The resolvers of all parties, as far as agreement rests on them. -/
structure World (K D : Type) [Inhabited D] where
  out : K → List (DirectResolutionEffect K D)
  core : K → ℕ → Core K D
  accepted : K → ResolutionEntry K D → Bool → Option ℕ → Prop
  floor : K → ℕ

namespace World

variable {K D : Type} [LinearOrder K] [LinearOrder D] [Inhabited D]

def said (w : World K D) (target : ℕ) (q : K) : History K D := history target q (w.out q)

/-- What may reach a party about a target. -/
def inputs (committee : Committee K) (w : World K D) (p : K) (target : ℕ) : ResolverInputs K D :=
  inputsOf committee target (w.said target) p (w.accepted p) (w.floor p ≤ target)

/-- Every target of every correct party is honest. -/
def Inv (F : FaultModel K) (S : Session K D) (cfg : K → ResolverConfig K D) (w : World K D) :
    Prop :=
  ∀ p, F.Correct p → ∀ target,
    Honest F S (cfg p) target (w.said target) (w.accepted p) (w.floor p ≤ target)
      (w.core p target)

/-- A party sends effects, and the core of one of its targets changes. -/
def advance (p : K) (target : ℕ) (es : List (DirectResolutionEffect K D)) (c : Core K D)
    (w : World K D) : World K D :=
  { w with
    out := Function.update w.out p (w.out p ++ es)
    core := Function.update w.core p (Function.update (w.core p) target c) }

variable {F : FaultModel K} {S : Session K D} {cfg : K → ResolverConfig K D} {w : World K D}
  {p : K} {target : ℕ} {es : List (DirectResolutionEffect K D)} {c' : Core K D}

omit [LinearOrder D] in
theorem said_advance_self (t : ℕ) :
    (w.advance p target es c').said t p = (w.said t p).union (history t p es) := by
  simp only [said, advance, Function.update_self]
  exact history_append t p (w.out p) es

omit [LinearOrder D] in
theorem said_advance_ne {q : K} (t : ℕ) (hq : q ≠ p) :
    (w.advance p target es c').said t q = w.said t q := by
  simp only [said, advance, Function.update_of_ne hq]

omit [LinearOrder D] in
theorem inputs_advance_le (committee : Committee K) (q : K) (t : ℕ) :
    (w.inputs committee q t).Le ((w.advance p target es c').inputs committee q t) := by
  refine inputsOf_le (fun k => ?_) (fun _ _ _ h => h) id
  by_cases hk : k = p
  · subst hk
    rw [said_advance_self]
    exact History.le_union _ _
  · rw [said_advance_ne t hk]
    exact .refl _

namespace Inv

variable (hw : Inv F S cfg w) (hcfg : ∀ p, (cfg p).name = p)
include hw hcfg

omit [LinearOrder D] in
theorem logFacts (target : ℕ) (p : K) (hp : F.Correct p) :
    LogFacts F (w.said target) S (w.accepted p) (w.said target p) := by
  have hlog := (hw p hp target).log
  rwa [hcfg p] at hlog

theorem of_coreStep (hF : ∀ p, (cfg p).toConfig.Fits F) (hp : F.Correct p)
    (hstep : CoreStep S (cfg p) target (w.inputs (cfg p).committee p target) (w.core p target)
      es c') :
    Inv F S cfg (w.advance p target es c') := by
  have hother : ∀ t q, q ≠ (cfg p).name → (w.advance p target es c').said t q = w.said t q := by
    intro t q hq
    rw [hcfg p] at hq
    exact said_advance_ne t hq
  have hself : ∀ t, (w.advance p target es c').said t (cfg p).name =
      (w.said t (cfg p).name).union (history t (cfg p).name es) := by
    intro t
    rw [hcfg p]
    exact said_advance_self t
  obtain ⟨hE, hhonest⟩ : Extends F (w.said target) ((w.advance p target es c').said target) ∧
      Honest F S (cfg p) target ((w.advance p target es c').said target) (w.accepted p)
        (w.floor p ≤ target) c' := by
    refine (hw p hp target).of_step (hF p) ?_ (Sayings.relay (hw.logFacts hcfg target)) ?_
      (hself target) (hother target)
    · rw [hcfg p]
      exact hp.1
    · unfold inputs at hstep
      rwa [hcfg p]
  -- Nothing is said about the other targets.
  have hsame : ∀ t, t ≠ target → (w.advance p target es c').said t = w.said t := by
    intro t ht
    funext q
    by_cases hq : q = (cfg p).name
    · have hempty : history t (cfg p).name es = .empty :=
        history_eq_empty fun x hx htx => ht ((hw p hp target).target?_of_step hstep hx htx)
      rw [hq, hself t, hempty]
      exact History.union_eq_self ⟨nofun, nofun, nofun, nofun, nofun, nofun⟩
    · exact hother t q hq
  intro q hq t
  by_cases ht : t = target
  · subst ht
    by_cases hqp : q = p
    · subst hqp
      simpa only [advance, Function.update_self] using hhonest
    · have hcore : (w.advance p t es c').core q = w.core q := Function.update_of_ne hqp _ _
      rw [hcore]
      refine (hw q hq t).of_extends hE (hother t _ ?_) (fun _ _ _ h => h) id
      rwa [hcfg q, hcfg p]
  · have hcore : (w.advance p target es c').core q t = w.core q t := by
      by_cases hqp : q = p
      · subst hqp
        simp only [advance, Function.update_self, Function.update_of_ne ht]
      · simp only [advance, Function.update_of_ne hqp]
    rw [hsame t ht, hcore]
    exact hw q hq t

omit hw in
theorem of_steps {J : ℕ → ResolverInputs K D} {r r' : DirectResolver S (cfg p)}
    (hF : ∀ p, (cfg p).toConfig.Fits F) (hp : F.Correct p)
    (hs : Steps (DirectResolver.Step (cfg p) J) r es r') {w : World K D} (hw : Inv F S cfg w)
    (hcore : w.core p = fun t => (r.state t).core)
    (hJ : ∀ t, (J t).Le (w.inputs (cfg p).committee p t)) :
    Inv F S cfg { w with
      out := Function.update w.out p (w.out p ++ es)
      core := Function.update w.core p fun t => (r'.state t).core } := by
  induction hs generalizing w with
  | refl r =>
    rw [List.append_nil, Function.update_eq_self, ← hcore, Function.update_eq_self]
    exact hw
  | @step r r₁ r₂ es es' hstep _ ih =>
    obtain ⟨target, hstep, hne, -⟩ := hstep
    have hstep' : CoreStep S (cfg p) target (w.inputs (cfg p).committee p target)
        (w.core p target) es (r₁.state target).core := by
      rw [hcore]
      exact hstep.mono (hJ target)
    have hcore' : Function.update (w.core p) target (r₁.state target).core =
        fun t => (r₁.state t).core := by
      funext t
      by_cases ht : t = target
      · subst ht
        rw [Function.update_self]
      · rw [Function.update_of_ne ht, hcore, hne t ht]
    have h₁ := hw.of_coreStep hcfg hF hp hstep'
    have h₂ := ih h₁ ((Function.update_self _ _ _).trans hcore')
      fun t => (hJ t).trans (inputs_advance_le _ _ _)
    simpa only [advance, Function.update_self, Function.update_idem, List.append_assoc] using h₂

section

omit [LinearOrder D] hcfg

theorem byzantine {q : K} (hq : ¬F.Correct q) (hcfg : ∀ p, (cfg p).name = p)
    (es : List (DirectResolutionEffect K D)) :
    Inv F S cfg { w with out := Function.update w.out q (w.out q ++ es) } := by
  intro p hp t
  have hne : p ≠ q := fun h => hq (h ▸ hp)
  have hother : ∀ k, k ≠ q →
      said { w with out := Function.update w.out q (w.out q ++ es) } t k = w.said t k := by
    intro k hk
    simp only [said, Function.update_of_ne hk]
  refine (hw p hp t).of_extends ⟨fun k => ?_, fun k hk => ?_⟩ ?_ (fun _ _ _ h => h) id
  · by_cases hk : k = q
    · subst hk
      simp only [said, Function.update_self, history_append]
      exact History.le_union _ _
    · rw [hother k hk]
      exact .refl _
  · rw [hother k fun h => hq (h ▸ hk)]
    exact ⟨.refl _, fun _ _ => .inl⟩
  · rw [hcfg p]
    exact hother p hne

theorem accept (acc : K → ResolutionEntry K D → Bool → Option ℕ → Prop)
    (ha : ∀ p e f o, w.accepted p e f o → acc p e f o) :
    Inv F S cfg { w with accepted := acc } := fun p hp t =>
  (hw p hp t).of_extends (.refl F _) rfl (ha p) id

theorem gc (p : K) (floor : ℕ) (cores : ℕ → Core K D) (hf : w.floor p ≤ floor)
    (hkeep : ∀ t, floor ≤ t → cores t = w.core p t)
    (hdrop : ∀ t, t < floor → cores t = w.core p t ∨ cores t = {}) :
    Inv F S cfg { w with
      core := Function.update w.core p cores
      floor := Function.update w.floor p floor } := by
  intro q hq t
  by_cases hqp : q = p
  · subst hqp
    have h := hw q hq t
    have h' : Honest F S (cfg q) t (w.said t) (w.accepted q) (floor ≤ t) (w.core q t) :=
      h.of_extends (.refl F _) rfl (fun _ _ _ h => h) hf.trans
    simp only [Function.update_self]
    by_cases ht : floor ≤ t
    · rw [hkeep t ht]
      exact h'
    · rcases hdrop t (not_le.mp ht) with hc | hc
      · rw [hc]
        exact h'
      · rw [hc]
        exact ⟨h'.log, nofun, nofun, fun _ _ hm => absurd hm ht, nofun⟩
  · simp only [Function.update_of_ne hqp]
    exact hw q hq t

end

end Inv

omit [LinearOrder D] in
theorem inv_init : Inv F S cfg
    { out := fun _ => [], core := fun _ _ => {}, accepted := fun _ _ _ _ => False,
      floor := fun _ => 1 } := by
  intro p _ t
  have hempty : said ⟨fun _ : K => [], fun _ _ => ({} : Core K D), fun _ _ _ _ => False,
      fun _ => 1⟩ t (cfg p).name = .empty := history_quiet nofun
  refine ⟨?_, nofun, nofun, fun _ _ _ => ?_, nofun⟩
  · rw [hempty]
    exact ⟨.empty, nofun⟩
  · rw [hempty]
    exact ⟨fun _ _ _ => id, fun _ _ _ _ => id⟩

end World

end Vantage
