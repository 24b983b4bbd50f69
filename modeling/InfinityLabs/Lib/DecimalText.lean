import InfinityLabs.Lib.JsonText
import Mathlib.Data.Nat.Digits.Defs

/-!
# Decimal texts

A natural number is written with its decimal digits, the highest first, and read back
from them.
-/

namespace InfinityLabs
namespace Lib

/-- The unit of a digit. -/
def digitUnit (d : Nat) : UInt16 := UInt16.ofNat (0x30 + d)

/-- The decimal text of a number. -/
def decimalText (n : Nat) : Units :=
  if n = 0 then [0x30] else ((Nat.digits 10 n).map digitUnit).reverse

/-- The number of a text of digits; no other text has one. -/
def readDecimal (s : Units) : Option Nat :=
  if s.all isDecimal then
    some (Nat.ofDigits 10 (s.reverse.map fun c => c.toNat - 0x30))
  else none

/-- The unit of a digit is told apart. -/
theorem toNat_digitUnit {d : Nat} (hd : d < 10) : (digitUnit d).toNat = 0x30 + d := by
  rw [digitUnit, UInt16.toNat_ofNat']
  omega

/-- The unit of a digit is decimal. -/
theorem isDecimal_digitUnit {d : Nat} (hd : d < 10) : isDecimal (digitUnit d) = true := by
  have hnat := toNat_digitUnit hd
  simp only [isDecimal, Bool.and_eq_true, decide_eq_true_eq, UInt16.le_iff_toNat_le, hnat]
  exact ⟨Nat.le_add_right _ _, by simp; omega⟩

/-- A decimal text has decimal units only. -/
theorem isDecimal_of_mem_decimalText {n : Nat} {c : UInt16} (hc : c ∈ decimalText n) :
    isDecimal c = true := by
  rw [decimalText] at hc
  split at hc
  · rw [List.mem_singleton.mp hc]
    decide
  · obtain ⟨d, hd, rfl⟩ := List.mem_map.mp (List.mem_reverse.mp hc)
    exact isDecimal_digitUnit (Nat.digits_lt_base (by decide) hd)

/-- **A number is read back from its decimal text.** -/
theorem readDecimal_decimalText (n : Nat) : readDecimal (decimalText n) = some n := by
  have hall : (decimalText n).all isDecimal = true :=
    List.all_eq_true.mpr fun _ hc => isDecimal_of_mem_decimalText hc
  rw [readDecimal, if_pos hall, decimalText]
  split
  · rename_i hzero
    subst hzero
    rfl
  · rw [List.reverse_reverse, List.map_map]
    have hdigits : (Nat.digits 10 n).map ((fun c : UInt16 => c.toNat - 0x30) ∘ digitUnit) =
        Nat.digits 10 n := by
      conv_rhs => rw [← List.map_id (Nat.digits 10 n)]
      refine List.map_congr_left fun d hd => ?_
      have hnat := toNat_digitUnit (Nat.digits_lt_base (by decide) hd)
      simp only [Function.comp_apply, hnat, id_eq]
      omega
    rw [hdigits, Nat.ofDigits_digits]

end Lib
end InfinityLabs
