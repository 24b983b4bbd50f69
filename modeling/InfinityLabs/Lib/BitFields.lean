import Mathlib.Algebra.Group.Nat.Defs
import Mathlib.Tactic.Common

/-!
# Sums of bit fields

A number is cut into fields of `k` bits.  Adding the neighbours pairwise under a mask makes
fields of `2 * k` bits and keeps their sum; fields of one bit count the bits that are set.
-/

namespace InfinityLabs
namespace Lib

/-- The sum of the lowest `n` fields of `k` bits. -/
def fieldSum (k : Nat) : Nat → Nat → Nat
  | 0, _ => 0
  | n + 1, w => w % 2 ^ k + fieldSum k n (w / 2 ^ k)

/-- The lower halves of the lowest `n` fields of `2 * k` bits. -/
def fieldMask (k : Nat) : Nat → Nat
  | 0 => 0
  | n + 1 => 2 ^ (2 * k) * fieldMask k n + (2 ^ k - 1)

/-- The lower halves of the fields of `2 * k` bits plus their upper halves. -/
def pairSum (k n w : Nat) : Nat := (w &&& fieldMask k n) + ((w >>> k) &&& fieldMask k n)

/-- A mask and a number meet below a place and above it. -/
theorem and_two_pow_mul_add {i : Nat} (w a : Nat) {b : Nat} (hb : b < 2 ^ i) :
    w &&& (2 ^ i * a + b) = 2 ^ i * (w / 2 ^ i &&& a) + (w &&& b) := by
  apply Nat.eq_of_testBit_eq
  intro j
  rw [Nat.testBit_and, Nat.testBit_two_pow_mul_add _ hb,
    Nat.testBit_two_pow_mul_add _ (Nat.and_lt_two_pow w hb)]
  split
  case isTrue hj => rw [Nat.testBit_and]
  case isFalse hj =>
    rw [Nat.testBit_and, Nat.testBit_div_two_pow, Nat.sub_add_cancel (Nat.not_lt.mp hj)]

/-- A mask of one field more. -/
theorem and_fieldMask_succ (k n w : Nat) :
    w &&& fieldMask k (n + 1) = 2 ^ (2 * k) * (w / 2 ^ (2 * k) &&& fieldMask k n) + w % 2 ^ k := by
  have hpos : 0 < 2 ^ k := Nat.two_pow_pos k
  have hle : 2 ^ k ≤ 2 ^ (2 * k) := Nat.pow_le_pow_right Nat.two_pos (by omega)
  rw [fieldMask, and_two_pow_mul_add w _ (by omega), Nat.and_two_pow_sub_one_eq_mod]

/-- The lowest pair, and the others. -/
theorem pairSum_succ (k n w : Nat) :
    pairSum k (n + 1) w =
      2 ^ (2 * k) * pairSum k n (w / 2 ^ (2 * k)) + (w % 2 ^ k + w / 2 ^ k % 2 ^ k) := by
  have hshift : (w >>> k) / 2 ^ (2 * k) = (w / 2 ^ (2 * k)) >>> k := by
    rw [Nat.shiftRight_eq_div_pow, Nat.shiftRight_eq_div_pow, Nat.div_div_eq_div_mul,
      Nat.div_div_eq_div_mul, Nat.mul_comm]
  rw [pairSum, and_fieldMask_succ, and_fieldMask_succ, hshift, pairSum, Nat.mul_add,
    Nat.shiftRight_eq_div_pow w]
  omega

/-- The sum of two fields fits into one of twice the width. -/
theorem pair_lt {k : Nat} (hk : 0 < k) (w : Nat) :
    w % 2 ^ k + w / 2 ^ k % 2 ^ k < 2 ^ (2 * k) := by
  have hpos : 0 < 2 ^ k := Nat.two_pow_pos k
  have hlow : w % 2 ^ k < 2 ^ k := Nat.mod_lt _ hpos
  have hhigh : w / 2 ^ k % 2 ^ k < 2 ^ k := Nat.mod_lt _ hpos
  have htwo : 2 ^ 1 ≤ 2 ^ k := Nat.pow_le_pow_right Nat.two_pos hk
  have hsquare : 2 * 2 ^ k ≤ 2 ^ (2 * k) := by
    rw [Nat.two_mul k, Nat.pow_add]
    exact Nat.mul_le_mul_right _ htwo
  omega

/-- The pairs do not carry into each other. -/
theorem pairSum_lt {k : Nat} (hk : 0 < k) (n w : Nat) : pairSum k n w < 2 ^ (2 * k * n) := by
  induction n generalizing w with
  | zero =>
      rw [pairSum, fieldMask, Nat.and_zero, Nat.and_zero]
      exact Nat.one_pos
  | succ n ih =>
      have hpair := pair_lt hk w
      have hrest : 2 ^ (2 * k) * (pairSum k n (w / 2 ^ (2 * k)) + 1) ≤
          2 ^ (2 * k) * 2 ^ (2 * k * n) := Nat.mul_le_mul_left _ (ih _)
      rw [Nat.mul_add, Nat.mul_one] at hrest
      calc
        pairSum k (n + 1) w < 2 ^ (2 * k) * pairSum k n (w / 2 ^ (2 * k)) + 2 ^ (2 * k) := by
          rw [pairSum_succ]
          exact Nat.add_lt_add_left hpair _
        _ ≤ 2 ^ (2 * k) * 2 ^ (2 * k * n) := hrest
        _ = 2 ^ (2 * k * (n + 1)) := by
          rw [← Nat.pow_add, Nat.mul_add, Nat.mul_one, Nat.add_comm]

/-- Adding the neighbours keeps the sum of the fields. -/
theorem fieldSum_pairSum {k : Nat} (hk : 0 < k) (n w : Nat) :
    fieldSum (2 * k) n (pairSum k n w) = fieldSum k (2 * n) w := by
  induction n generalizing w with
  | zero => rfl
  | succ n ih =>
      have hpair := pair_lt hk w
      have hdiv : w / 2 ^ k / 2 ^ k = w / 2 ^ (2 * k) := by
        rw [Nat.div_div_eq_div_mul, ← Nat.pow_add, Nat.two_mul]
      rw [fieldSum, pairSum_succ, Nat.mul_add_mod, Nat.mod_eq_of_lt hpair,
        Nat.mul_add_div (Nat.two_pow_pos _), Nat.div_eq_of_lt hpair, Nat.add_zero, ih,
        Nat.mul_add 2, fieldSum, fieldSum, hdiv, Nat.add_assoc]

/-- The lowest fields, and the ones above them. -/
theorem fieldSum_add (k m n w : Nat) :
    fieldSum k (m + n) w = fieldSum k m w + fieldSum k n (w / 2 ^ (k * m)) := by
  induction m generalizing w with
  | zero => simp [fieldSum]
  | succ m ih =>
      have hdiv : w / 2 ^ k / 2 ^ (k * m) = w / 2 ^ (k * (m + 1)) := by
        rw [Nat.div_div_eq_div_mul, ← Nat.pow_add, Nat.mul_add, Nat.mul_one, Nat.add_comm k]
      rw [Nat.add_right_comm, fieldSum, ih, hdiv, fieldSum, Nat.add_assoc]

/-- What stands above the fields does not count. -/
theorem fieldSum_mod (k n w : Nat) : fieldSum k n (w % 2 ^ (k * n)) = fieldSum k n w := by
  induction n generalizing w with
  | zero => rfl
  | succ n ih =>
      have hpow : 2 ^ (k * (n + 1)) = 2 ^ k * 2 ^ (k * n) := by
        rw [← Nat.pow_add, Nat.mul_add, Nat.mul_one, Nat.add_comm]
      rw [fieldSum, fieldSum, hpow, Nat.mod_mul_right_mod, Nat.mod_mul_right_div_self, ih]

/-- Taking one away under a number clears its lowest bit. -/
theorem fieldSum_and_pred {n w : Nat} (hpos : 0 < w) (hlt : w < 2 ^ n) :
    fieldSum 1 n (w &&& (w - 1)) + 1 = fieldSum 1 n w := by
  induction n generalizing w with
  | zero => simp at hlt; omega
  | succ n ih =>
      have hhalf : (w &&& (w - 1)) / 2 = w / 2 &&& (w - 1) / 2 := by simp [Nat.and_div_two]
      -- one of the two numbers is even
      have hlow : (w &&& (w - 1)) % 2 = 0 := by
        rw [Nat.mod_two_eq_zero_iff_testBit_zero, Nat.testBit_and, Nat.testBit_zero,
          Nat.testBit_zero]
        rcases Nat.mod_two_eq_zero_or_one w with hbit | hbit
        · simp [hbit]
        · have hpred : (w - 1) % 2 = 0 := by omega
          simp [hpred]
      rw [fieldSum, fieldSum, Nat.pow_one, hhalf, hlow]
      rw [Nat.pow_succ] at hlt
      rcases Nat.mod_two_eq_zero_or_one w with hbit | hbit
      · have hpred : (w - 1) / 2 = w / 2 - 1 := by omega
        have hrest := ih (w := w / 2) (by omega) (by omega)
        rw [hpred, hbit]
        omega
      · have hpred : (w - 1) / 2 = w / 2 := by omega
        rw [hpred, hbit, Nat.and_self]
        omega

/-- The fields of one bit count the bits that are set. -/
theorem fieldSum_one (n w : Nat) : fieldSum 1 n w = (List.range n).countP w.testBit := by
  induction n generalizing w with
  | zero => rfl
  | succ n ih =>
      rw [fieldSum, ih, List.range_succ_eq_map, List.countP_cons, List.countP_map, Nat.add_comm,
        Nat.pow_one]
      have hbits : w.testBit ∘ Nat.succ = (w / 2).testBit := by
        funext i
        exact Nat.testBit_succ w i
      have hlow : w % 2 = if w.testBit 0 then 1 else 0 := by
        rw [Nat.testBit_zero]
        rcases Nat.mod_two_eq_zero_or_one w with h | h
        · simp [h]
        · simp [h]
      rw [hbits, hlow]

end Lib
end InfinityLabs
