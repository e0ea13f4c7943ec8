import Mathlib.Data.Set.Basic
import Vantage.Lib.Codec

/-!
# Delimited encodings

A string that concatenates fields binds each of them if every field says where it ends, by a fixed
length, by a count before it or by a byte that says whether it is there.

* `Delimits f s`: on `s` the bytes of a value end in one place, whatever follows them;
* `Delimits.of_length`, `Delimits.digits`: fixed lengths.
-/

namespace Vantage

/-- Two strings that start with values of `s` are equal only if the values and the rests are. -/
def Delimits {α : Type} (f : α → List UInt8) (s : Set α) : Prop :=
  ∀ ⦃a⦄, a ∈ s → ∀ ⦃b⦄, b ∈ s → ∀ ⦃x y⦄, f a ++ x = f b ++ y → a = b ∧ x = y

namespace Delimits

variable {α β : Type} {f : α → List UInt8} {s : Set α}

theorem of_length {n : ℕ} (hlen : ∀ a, (f a).length = n) (hinj : Function.Injective f) :
    Delimits f Set.univ := by
  intro a _ b _ x y h
  obtain ⟨hhead, hrest⟩ := List.append_inj h ((hlen a).trans (hlen b).symm)
  exact ⟨hinj hhead, hrest⟩

theorem digits (width : ℕ) : Delimits (Codec.digits width) {n | n < 256 ^ width} := by
  intro a ha b hb x y h
  have hread := Codec.readDigits_digits width a ha x
  rw [h, Codec.readDigits_digits width b hb y, Option.some.injEq, Prod.mk.injEq] at hread
  exact ⟨hread.1.symm, hread.2.symm⟩

theorem append {g : β → List UInt8} {t : Set β} (hf : Delimits f s) (hg : Delimits g t) :
    Delimits (fun p : α × β => f p.1 ++ g p.2) {p | p.1 ∈ s ∧ p.2 ∈ t} := by
  intro a ha b hb x y h
  rw [List.append_assoc, List.append_assoc] at h
  obtain ⟨hfirst, h⟩ := hf ha.1 hb.1 h
  obtain ⟨hsecond, h⟩ := hg ha.2 hb.2 h
  exact ⟨Prod.ext hfirst hsecond, h⟩

theorem flatMap (hf : Delimits f s) {l l' : List α} (hl : ∀ a ∈ l, a ∈ s) (hl' : ∀ a ∈ l', a ∈ s)
    (hlen : l.length = l'.length) {x y : List UInt8} (h : l.flatMap f ++ x = l'.flatMap f ++ y) :
    l = l' ∧ x = y := by
  induction l generalizing l' with
  | nil =>
    obtain rfl : l' = [] := List.length_eq_zero_iff.mp hlen.symm
    exact ⟨rfl, h⟩
  | cons a l ih =>
    cases l' with
    | nil => cases hlen
    | cons b l' =>
      rw [List.forall_mem_cons] at hl hl'
      rw [List.flatMap_cons, List.flatMap_cons, List.append_assoc, List.append_assoc] at h
      obtain ⟨rfl, hrest⟩ := hf hl.1 hl'.1 h
      obtain ⟨rfl, hxy⟩ := ih hl.2 hl'.2 (Nat.succ.inj hlen) hrest
      exact ⟨rfl, hxy⟩

theorem option (hf : Delimits f s) :
    Delimits (fun o : Option α => o.elim [0] fun a => 1 :: f a) {o | ∀ a ∈ o, a ∈ s} := by
  rintro (_ | a) ha (_ | b) hb x y h
  · exact ⟨rfl, List.tail_eq_of_cons_eq h⟩
  · exact absurd (List.head_eq_of_cons_eq h) (by decide)
  · exact absurd (List.head_eq_of_cons_eq h) (by decide)
  · obtain ⟨rfl, hxy⟩ := hf (ha a rfl) (hb b rfl) (List.tail_eq_of_cons_eq h)
    exact ⟨rfl, hxy⟩

end Delimits

end Vantage
