import Mathlib.Data.Nat.Bitwise
import Mathlib.Data.List.Nodup
import Mathlib.Tactic.Common

/-!
# Scanning the set bits of a word

The loop that takes the lowest set bit of a word and clears it with `x & (x - 1)` visits every
set bit once, from the lowest to the highest.
-/

namespace Bits

variable {w : ℕ}

theorem toNat_eq_of_ne_zero {x : BitVec w} (hx : x ≠ 0#w) :
    x.toNat = 2 ^ (x.ctz.toNat + 1) * (x.toNat / 2 ^ (x.ctz.toNat + 1)) + 2 ^ x.ctz.toNat := by
  have hmod : x.toNat % 2 ^ (x.ctz.toNat + 1) = 2 ^ x.ctz.toNat := by
    refine Nat.eq_of_testBit_eq fun j => ?_
    rw [Nat.testBit_mod_two_pow, Nat.testBit_two_pow, BitVec.testBit_toNat]
    obtain hj | rfl | hj := Nat.lt_trichotomy j x.ctz.toNat
    · rw [BitVec.getLsbD_false_of_lt_ctz hj, Bool.and_false, decide_eq_false (by omega)]
    · rw [BitVec.getLsbD_true_ctz_of_ne_zero hx, Bool.and_true, decide_eq_true (by omega),
        decide_eq_true rfl]
    · rw [decide_eq_false (by omega : ¬ j < x.ctz.toNat + 1), Bool.false_and,
        decide_eq_false (by omega)]
  have := Nat.div_add_mod x.toNat (2 ^ (x.ctz.toNat + 1))
  omega

theorem toNat_sub_one {x : BitVec w} (hx : x ≠ 0#w) : (x - 1#w).toNat = x.toNat - 1 := by
  have hpos : 0 < x.toNat := Nat.pos_of_ne_zero fun h => hx (BitVec.eq_of_toNat_eq (by simp [h]))
  have hw : 1 < 2 ^ w ∨ x.toNat = 0 := by
    have := x.isLt
    omega
  have h1 : (1#w).toNat = 1 := by
    rw [BitVec.toNat_ofNat, Nat.mod_eq_of_lt (by omega)]
  rw [BitVec.toNat_sub_of_le (by rw [BitVec.le_def, h1]; omega), h1]

theorem toNat_and_sub_one {x : BitVec w} (hx : x ≠ 0#w) :
    (x &&& (x - 1#w)).toNat = 2 ^ (x.ctz.toNat + 1) * (x.toNat / 2 ^ (x.ctz.toNat + 1)) := by
  have hn := toNat_eq_of_ne_zero hx
  rw [BitVec.toNat_and, toNat_sub_one hx]
  generalize x.ctz.toNat = k at hn ⊢
  generalize x.toNat / 2 ^ (k + 1) = m at hn ⊢
  have hk : 0 < 2 ^ k := Nat.two_pow_pos k
  have hlt : 2 ^ k < 2 ^ (k + 1) := Nat.pow_lt_pow_right (by omega) (Nat.lt_succ_self k)
  have hpred : x.toNat - 1 = 2 ^ (k + 1) * m + (2 ^ k - 1) := by omega
  have hzero : 2 ^ (k + 1) * m = 2 ^ (k + 1) * m + 0 := rfl
  rw [hpred, hn]
  refine Nat.eq_of_testBit_eq fun j => ?_
  rw [Nat.testBit_and, Nat.testBit_two_pow_mul_add _ hlt,
    Nat.testBit_two_pow_mul_add _ (by omega : 2 ^ k - 1 < 2 ^ (k + 1)), hzero,
    Nat.testBit_two_pow_mul_add _ (Nat.two_pow_pos _)]
  by_cases hj : j < k + 1
  · simp only [if_pos hj, Nat.testBit_two_pow, Nat.testBit_two_pow_sub_one, Nat.zero_testBit]
    by_cases hkj : k = j
    · simp [hkj]
    · simp [hkj]
  · simp only [if_neg hj, Bool.and_self]

theorem getLsbD_and_sub_one {x : BitVec w} (hx : x ≠ 0#w) (i : ℕ) :
    (x &&& (x - 1#w)).getLsbD i = (x.getLsbD i && decide (i ≠ x.ctz.toNat)) := by
  rw [← BitVec.testBit_toNat, ← BitVec.testBit_toNat, toNat_and_sub_one hx]
  have hn := toNat_eq_of_ne_zero hx
  generalize x.ctz.toNat = k at hn ⊢
  generalize x.toNat / 2 ^ (k + 1) = m at hn ⊢
  have hlt : 2 ^ k < 2 ^ (k + 1) := Nat.pow_lt_pow_right (by omega) (Nat.lt_succ_self k)
  have hzero : 2 ^ (k + 1) * m = 2 ^ (k + 1) * m + 0 := rfl
  rw [hzero, hn, Nat.testBit_two_pow_mul_add _ (Nat.two_pow_pos _),
    Nat.testBit_two_pow_mul_add _ hlt]
  by_cases hi : i < k + 1
  · simp only [if_pos hi, Nat.zero_testBit, Nat.testBit_two_pow]
    by_cases hki : k = i
    · simp [hki]
    · simp [hki]
  · have hne : i ≠ k := by omega
    simp [hi, hne]

theorem toNat_and_sub_one_lt {x : BitVec w} (hx : x ≠ 0#w) :
    (x &&& (x - 1#w)).toNat < x.toNat := by
  have hn := toNat_eq_of_ne_zero hx
  have hk : 0 < 2 ^ x.ctz.toNat := Nat.two_pow_pos _
  rw [toNat_and_sub_one hx]
  omega

/-- Take the lowest set bit and clear it, until no bit is left. -/
def scan (x : BitVec w) : List ℕ :=
  if x = 0#w then [] else x.ctz.toNat :: scan (x &&& (x - 1#w))
termination_by x.toNat
decreasing_by exact toNat_and_sub_one_lt (by assumption)

theorem mem_scan (x : BitVec w) (i : ℕ) : i ∈ scan x ↔ x.getLsbD i = true := by
  fun_induction scan x with
  | case1 => simp
  | case2 x hx ih =>
    rw [List.mem_cons, ih, getLsbD_and_sub_one hx]
    by_cases hi : i = x.ctz.toNat
    · simp [hi, BitVec.getLsbD_true_ctz_of_ne_zero hx]
    · simp [hi]

theorem scan_sorted (x : BitVec w) : (scan x).Pairwise (· < ·) := by
  fun_induction scan x with
  | case1 => exact List.Pairwise.nil
  | case2 x hx ih =>
    refine List.pairwise_cons.mpr ⟨fun i hi => ?_, ih⟩
    rw [mem_scan, getLsbD_and_sub_one hx, Bool.and_eq_true, decide_eq_true_eq] at hi
    -- the other set bits are above the lowest one
    by_contra hle
    have hlt : i < x.ctz.toNat := by omega
    rw [BitVec.getLsbD_false_of_lt_ctz hlt] at hi
    exact Bool.false_ne_true hi.1

theorem lt_of_mem_scan {x : BitVec w} {i : ℕ} (h : i ∈ scan x) : i < w :=
  BitVec.lt_of_getLsbD ((mem_scan x i).mp h)

end Bits
