import Mathlib.Tactic.Common

/-!
# Bit arrays

`ds/src/bit_arr.c`: a word as an array of bits.  Its functions assert that an index is below
`BITARR_BITS`.
-/

namespace InfinityLabs
namespace Ds

/-- `bit_arr_t`. -/
abbrev BitArr :=
  BitVec 64

/-- The number of bits of a `bit_arr_t`. -/
def BITARR_BITS : Nat := 64

namespace BitArr

/-- `BitArrGetBit`. -/
def getBit (bitArr : BitArr) (index : Nat) : Bool :=
  bitArr &&& (1#64 <<< index) != 0#64

/-- `BitArrSetOn`. -/
def setOn (bitArr : BitArr) (index : Nat) : BitArr :=
  bitArr ||| (1#64 <<< index)

/-- `BitArrSetOff`. -/
def setOff (bitArr : BitArr) (index : Nat) : BitArr :=
  bitArr &&& ~~~(1#64 <<< index)

variable {bitArr : BitArr} {i j : Nat}

/-- A mask has one bit. -/
theorem getLsbD_mask (hj : j < BITARR_BITS) : (1#64 <<< i).getLsbD j = decide (j = i) := by
  unfold BITARR_BITS at hj
  by_cases hji : j < i
  case pos => simp [hj, hji]; omega
  case neg =>
    by_cases hij : j = i
    case pos => simp [hij]; omega
    case neg => simp [hj, hji, hij]; omega

/-- The bit that is read. -/
theorem getBit_eq (hi : i < BITARR_BITS) : bitArr.getBit i = bitArr.getLsbD i := by
  unfold getBit
  cases hbit : bitArr.getLsbD i with
  | false =>
      have hzero : bitArr &&& (1#64 <<< i) = 0#64 := by
        apply BitVec.eq_of_getLsbD_eq
        intro j hj
        rw [BitVec.getLsbD_and, getLsbD_mask hj]
        by_cases hji : j = i
        case pos => simp [hji, hbit]
        case neg => simp [hji]
      simp [hzero]
  | true =>
      rw [bne_iff_ne]
      intro hzero
      have hmasked := congrArg (fun v => v.getLsbD i) hzero
      rw [BitVec.getLsbD_and, getLsbD_mask hi, hbit] at hmasked
      simp at hmasked

/-- A bit is set. -/
theorem getBit_setOn (hj : j < BITARR_BITS) :
    (bitArr.setOn i).getBit j = (decide (j = i) || bitArr.getBit j) := by
  rw [getBit_eq hj, getBit_eq hj]
  unfold setOn
  rw [BitVec.getLsbD_or, getLsbD_mask hj, Bool.or_comm]

/-- A bit is cleared. -/
theorem getBit_setOff (hj : j < BITARR_BITS) :
    (bitArr.setOff i).getBit j = (decide (j ≠ i) && bitArr.getBit j) := by
  rw [getBit_eq hj, getBit_eq hj]
  unfold setOff
  rw [BitVec.getLsbD_and, BitVec.getLsbD_not, getLsbD_mask hj, Bool.and_comm]
  unfold BITARR_BITS at hj
  simp [hj]

/-- Arrays with the same bits are the same. -/
theorem ext_getBit {v w : BitArr} (h : ∀ i, i < BITARR_BITS → v.getBit i = w.getBit i) : v = w := by
  apply BitVec.eq_of_getLsbD_eq
  intro i hi
  rw [← getBit_eq hi, ← getBit_eq hi, h i hi]

/-- Setting and clearing a bit that was clear changes nothing. -/
theorem setOff_setOn (hclear : bitArr.getBit i = false) :
    (bitArr.setOn i).setOff i = bitArr := by
  apply ext_getBit
  intro j hj
  rw [getBit_setOff hj, getBit_setOn hj]
  by_cases hji : j = i
  case pos => simp [hji, hclear]
  case neg => simp [hji]

end BitArr

end Ds
end InfinityLabs
