import Mathlib.Algebra.Group.Nat.Defs
import Mathlib.Tactic.Common

/-!
# Words

What the two allocators share: the words of a 64-bit machine, `size_t` sums modulo
`2 ^ 64`, and sizes rounded to whole words.
-/

namespace InfinityLabs
namespace Alloc

/-- `WORD_SIZE`. -/
def WORD_SIZE : Nat := 8

/-- `ALIGN_DOWN`, which clears the last three bits. -/
def alignDown (x : Nat) : Nat := x / WORD_SIZE * WORD_SIZE

/-- `ALIGN_UP`. -/
def alignUp (x : Nat) : Nat := alignDown ((x + (WORD_SIZE - 1)) % 2 ^ 64)

/-- Rounding down gives whole words. -/
theorem dvd_alignDown (x : Nat) : WORD_SIZE ∣ alignDown x := Nat.dvd_mul_left _ _

/-- Rounding down takes off less than a word. -/
theorem alignDown_bounds (x : Nat) : alignDown x ≤ x ∧ x < alignDown x + WORD_SIZE := by
  rw [alignDown, WORD_SIZE]
  omega

/-- Rounding up gives whole words. -/
theorem dvd_alignUp (x : Nat) : WORD_SIZE ∣ alignUp x := dvd_alignDown _

/-- Rounding up adds less than a word, where it does not wrap. -/
theorem alignUp_bounds {x : Nat} (hx : x + WORD_SIZE ≤ 2 ^ 64) :
    x ≤ alignUp x ∧ alignUp x < x + WORD_SIZE := by
  simp only [alignUp, alignDown, WORD_SIZE] at *
  omega

/-- Rounding up a `size_t` adds less than a word; it takes off the whole of what wraps. -/
theorem alignUp_le (x : Nat) : alignUp x < x + WORD_SIZE := by
  simp only [alignUp, alignDown, WORD_SIZE]
  omega

/-- What is not rounded to nothing is rounded up. -/
theorem le_alignUp {x : Nat} (hx : x < 2 ^ 64) (hpos : 0 < alignUp x) : x ≤ alignUp x := by
  simp only [alignUp, alignDown, WORD_SIZE] at *
  omega

/-- Whole words are not rounded. -/
theorem alignUp_eq_self {x : Nat} (hx : WORD_SIZE ∣ x) (hlt : x < 2 ^ 64) : alignUp x = x := by
  simp only [alignUp, alignDown, WORD_SIZE] at *
  omega

end Alloc
end InfinityLabs
