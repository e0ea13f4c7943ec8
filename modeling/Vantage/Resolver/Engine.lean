import Vantage.Resolver.Handlers

/-!
# The resolver

Independent agreement instances keyed by their target view, with the admission window of
passive wishes and the retention floor.
-/

namespace Vantage

/-- The targets of a resolver and its window. -/
structure DirectResolver {K D : Type} [LinearOrder K] [LinearOrder D] [Inhabited D]
    (S : Session K D) (cfg : ResolverConfig K D) where
  targets : AList (fun target => TargetState S cfg.committee target) := ∅
  admittedThrough : ℕ := 0
  retainedFloor : ℕ := 1

namespace DirectResolver

variable {K D : Type} [LinearOrder K] [LinearOrder D] [Inhabited D] {S : Session K D}
  {cfg : ResolverConfig K D}

def state (r : DirectResolver S cfg) (target : ℕ) : TargetState S cfg.committee target :=
  (r.targets.lookup target).getD {}

def setState (target : ℕ) (s : TargetState S cfg.committee target) (r : DirectResolver S cfg) :
    DirectResolver S cfg := { r with targets := r.targets.insert target s }

def onTarget (target : ℕ) (h : TargetHandler S cfg target) :
    Handler (DirectResolver S cfg) (DirectResolutionEffect K D) := fun r =>
  (r.setState target (h (r.state target)).1, (h (r.state target)).2)

def isClosed (target : ℕ) (r : DirectResolver S cfg) : Bool :=
  decide (target = 0) || decide (target < r.retainedFloor) || (r.state target).decision.isSome

def updateCandidates (fuel target : ℕ) (candidates : List (ResolutionEntry K D)) :
    Handler (DirectResolver S cfg) (DirectResolutionEffect K D) := fun r =>
  if r.isClosed target then (r, [])
  else
    onTarget target (TargetState.updateCandidates cfg fuel candidates)
      { r with admittedThrough := max r.admittedThrough target }

/-- Full values of the target are no longer proposed fresh. -/
def barFullSelection (target : ℕ) :
    Handler (DirectResolver S cfg) (DirectResolutionEffect K D) := fun r =>
  if r.isClosed target then (r, [])
  else (r.setState target { r.state target with fullBarred := true }, [])

def activateWithLocalTerminal (fuel target : ℕ) :
    Handler (DirectResolver S cfg) (DirectResolutionEffect K D) := fun r =>
  if r.isClosed target || (r.state target).inst.isSome then (r, [])
  else
    onTarget target (TargetState.activateWithLocalTerminal cfg fuel)
      { r with admittedThrough := max r.admittedThrough target }

/-- A wish for a target without instance or decision has to lie in the admission window. -/
def onWish (fuel : ℕ) (m : DirectResolutionWish K) :
    Handler (DirectResolver S cfg) (DirectResolutionEffect K D) := fun r =>
  if !cfg.isMember m.sender || decide (m.target = 0) || decide (m.view = 0) then (r, [])
  else
    let s := r.state m.target
    if s.decision.isNone && s.inst.isNone &&
        (decide (m.target < r.retainedFloor) || decide (r.admittedThrough < m.target)) then (r, [])
    else onTarget m.target (TargetState.onWish cfg fuel m) r

def onTimer (fuel target view : ℕ) (kind : DirectResolutionTimerKind) :
    Handler (DirectResolver S cfg) (DirectResolutionEffect K D) :=
  onTarget target (TargetState.onTimer cfg fuel view kind)

def onSuggest (m : DirectResolutionSuggest K D) :
    Handler (DirectResolver S cfg) (DirectResolutionEffect K D) :=
  onTarget m.target (TargetState.onSuggest cfg m)

def onProof (m : DirectResolutionProof K D) :
    Handler (DirectResolver S cfg) (DirectResolutionEffect K D) :=
  onTarget m.target (TargetState.onProof cfg m)

def onWitness (fuel : ℕ) (m : DirectResolutionWitness K D) :
    Handler (DirectResolver S cfg) (DirectResolutionEffect K D) :=
  onTarget m.target (TargetState.onWitness cfg fuel m)

def onProposal (m : DirectResolutionProposal K D) :
    Handler (DirectResolver S cfg) (DirectResolutionEffect K D) :=
  onTarget m.target (TargetState.onProposal cfg m)

def onVote (fuel target view : ℕ) (value : D) (vote : DirectResolutionVote) :
    Handler (DirectResolver S cfg) (DirectResolutionEffect K D) :=
  onTarget target (TargetState.onVote cfg fuel view value vote)

def onStatement (fuel : ℕ) (m : DirectResolutionStatement K D) :
    Handler (DirectResolver S cfg) (DirectResolutionEffect K D) :=
  onTarget m.target (TargetState.onStatement cfg fuel m)

def onDone (m : DirectResolutionDone K D) :
    Handler (DirectResolver S cfg) (DirectResolutionEffect K D) :=
  onTarget m.target (TargetState.onDone cfg m)

def onValueFetch (m : DirectResolutionValueFetch K D) :
    Handler (DirectResolver S cfg) (DirectResolutionEffect K D) :=
  onTarget m.target (TargetState.onValueFetch cfg m)

def onValueServe (fuel : ℕ) (m : DirectResolutionValueServe K D) :
    Handler (DirectResolver S cfg) (DirectResolutionEffect K D) :=
  onTarget m.target (TargetState.onValueServe cfg fuel m)

def retryExternalValidity : Handler (DirectResolver S cfg) (DirectResolutionEffect K D) := fun r =>
  Handler.forEach (r.targets.keys.insertionSort (· ≤ ·))
    (fun target => onTarget target (TargetState.retryExternalValidity cfg)) r

/-- Admit passive wishes for targets of the observed proposal horizon. -/
def admitTargetsThrough (through : ℕ) (r : DirectResolver S cfg) : DirectResolver S cfg :=
  { r with admittedThrough := max r.admittedThrough through }

def gcBelow (floor : ℕ) (r : DirectResolver S cfg) : DirectResolver S cfg :=
  if floor = 0 then r
  else
    { r with
      retainedFloor := max r.retainedFloor floor
      targets := (r.targets.keys.filter (· < floor)).foldl (fun m t => m.erase t) r.targets }

end DirectResolver

end Vantage
