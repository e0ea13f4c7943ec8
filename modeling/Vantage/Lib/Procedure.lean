import Mathlib.Logic.Basic

/-!
# Procedures

A procedure reads and changes a state and may fail.  Unlike in a transaction, what it has changed
before it fails stays changed.

* `Proc.get`, `Proc.modify`, `Proc.fail`, `Proc.forEach`: composition.
-/

/-- A state transformer that may fail; the state survives a failure. -/
structure Proc (σ ε α : Type) where
  run : σ → Except ε α × σ

namespace Proc

variable {σ ε α β : Type} {f : α → Proc σ ε β}

instance : Monad (Proc σ ε) where
  pure a := ⟨fun s => (.ok a, s)⟩
  bind m f := ⟨fun s =>
    match m.run s with
    | (.ok a, s) => (f a).run s
    | (.error e, s) => (.error e, s)⟩

def get : Proc σ ε σ := ⟨fun s => (.ok s, s)⟩

def modify (f : σ → σ) : Proc σ ε Unit := ⟨fun s => (.ok (), f s)⟩

def fail (e : ε) : Proc σ ε α := ⟨fun s => (.error e, s)⟩

/-- A call for every element of a list, up to the first error. -/
def forEach (xs : List β) (f : β → Proc σ ε Unit) : Proc σ ε Unit :=
  match xs with
  | [] => pure ()
  | x :: xs => f x >>= fun _ => forEach xs f

theorem get_bind (f : σ → Proc σ ε β) (s : σ) : (get >>= f).run s = (f s).run s := rfl

theorem modify_bind (g : σ → σ) (f : Unit → Proc σ ε β) (s : σ) :
    (modify g >>= f).run s = (f ()).run (g s) := rfl

theorem bind_ok {m : Proc σ ε α} {s s' : σ} {a : α} (h : m.run s = (.ok a, s')) :
    (m >>= f).run s = (f a).run s' := by
  change (match m.run s with
    | (.ok a, s) => (f a).run s
    | (.error e, s) => (.error e, s)) = _
  rw [h]

/-! ### Invariants -/

section Rules

variable {m : Proc σ ε α}

theorem bind_snd {I : σ → Prop} {s : σ} (hm : I (m.run s).2)
    (hf : ∀ a, (m.run s).1 = .ok a → I ((f a).run (m.run s).2).2) : I ((m >>= f).run s).2 := by
  change I (match m.run s with
    | (.ok a, s) => (f a).run s
    | (.error e, s) => (.error e, s)).2
  split
  next a s' h => simpa [h] using hf a (by rw [h])
  next e s' h => simpa [h] using hm

end Rules

end Proc
