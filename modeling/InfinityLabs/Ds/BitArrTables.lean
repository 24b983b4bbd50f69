import InfinityLabs.Ds.BitArr
import InfinityLabs.Lib.BitFields

/-!
# Counting and mirroring bits by tables

`ds/src/bit_arr.c` counts and mirrors the bits of a word twice: bit by bit, and byte by byte
with two tables that the first call fills.  The tables are static data: they are all zero until
then, and every later call finds them filled.

Mirroring is told by the bits of the result, counting by the sum of the fields of one bit.
-/

namespace InfinityLabs

/-- A static array; in `Ds` a vector is that of `vector.c`. -/
abbrev StaticArray (α : Type) (n : Nat) : Type :=
  Vector α n

namespace Ds
namespace BitArr

open Lib

/-! ## Bit by bit -/

/-- The loop of `BitArrCountOn`. -/
def countOnLoop (bitArr : BitArr) (count : Nat) : Nat :=
  if 0#64 < bitArr then countOnLoop (bitArr &&& (bitArr - 1#64)) (count + 1) else count
termination_by bitArr.toNat
decreasing_by
  have hpos : 0 < bitArr.toNat := by assumption
  have hpred : (bitArr - 1#64).toNat = bitArr.toNat - 1 := by
    rw [BitVec.toNat_sub_of_le (by exact hpos)]
    rfl
  have hle : bitArr.toNat &&& (bitArr.toNat - 1) ≤ bitArr.toNat - 1 := Nat.and_le_right
  rw [BitVec.toNat_and, hpred]
  omega

/-- `BitArrCountOn`. -/
def countOn (bitArr : BitArr) : Nat :=
  countOnLoop bitArr 0

/-- The loop of `BitArrMirror`, after its first `n` rounds. -/
def mirrorLoop (bitArr : BitArr) (n : Nat) : BitArr :=
  (List.range n).foldl
    (fun mirrored i => if bitArr.getBit i then mirrored.setOn (BITARR_BITS - 1 - i) else mirrored)
    0#64

/-- `BitArrMirror`. -/
def mirror (bitArr : BitArr) : BitArr :=
  bitArr.mirrorLoop BITARR_BITS

/-! ## The tables -/

/-- `BITS_IN_BYTE`, and `CHAR_BIT`. -/
def BITS_IN_BYTE : Nat := 8

/-- `BYTE_VALUES_LUT_SIZE`. -/
def BYTE_VALUES_LUT_SIZE : Nat := 256

/-- The static data of the file. -/
structure Luts where
  is_Init : Bool
  mirror_lut : StaticArray (BitVec 8) BYTE_VALUES_LUT_SIZE
  counton_lut : StaticArray (BitVec 8) BYTE_VALUES_LUT_SIZE

/-- The static data before the first call. -/
def Luts.zero : Luts :=
  ⟨false, Vector.replicate BYTE_VALUES_LUT_SIZE 0#8, Vector.replicate BYTE_VALUES_LUT_SIZE 0#8⟩

/-- The bytes of the inner loop of `InitLuts`. -/
structure ByteBits where
  original_byte : BitVec 8
  reversed_byte : BitVec 8
  ones_in_byte : BitVec 8

/-- One round of the inner loop. -/
def ByteBits.round (b : ByteBits) : ByteBits where
  reversed_byte := b.reversed_byte <<< 1 ||| (b.original_byte &&& 1#8)
  ones_in_byte := b.ones_in_byte + (b.original_byte &&& 1#8)
  original_byte := b.original_byte >>> 1

/-- The inner loop for the byte of an index, after its first `n` rounds. -/
def byteLoop (byte_index n : Nat) : ByteBits :=
  (List.range n).foldl (fun b _ => b.round) ⟨BitVec.ofNat 8 byte_index, 0#8, 0#8⟩

/-- The outer loop of `InitLuts`, from an index on. -/
def fillLuts (luts : Luts) (byte_index : Nat) : Luts :=
  if h : byte_index < BYTE_VALUES_LUT_SIZE then
    let bits := byteLoop byte_index BITS_IN_BYTE
    fillLuts
      { luts with
        mirror_lut := luts.mirror_lut.set byte_index bits.reversed_byte h
        counton_lut := luts.counton_lut.set byte_index bits.ones_in_byte h }
      (byte_index + 1)
  else luts
termination_by BYTE_VALUES_LUT_SIZE - byte_index

/-- `InitLuts`. -/
def initLuts (luts : Luts) : Luts :=
  if luts.is_Init then luts else { fillLuts luts 0 with is_Init := true }

/-- `sizeof(bit_arr_t)`. -/
def total_bytes : Nat := 8

/-- `(unsigned char)(bit_arr >> (CHAR_BIT * byte_index))`. -/
def currByte (bitArr : BitArr) (byte_index : Nat) : BitVec 8 :=
  (bitArr >>> (BITS_IN_BYTE * byte_index)).setWidth 8

theorem toNat_lt_lutSize (byte : BitVec 8) : byte.toNat < BYTE_VALUES_LUT_SIZE :=
  byte.isLt

/-- The entry of a table for a byte. -/
def entry (lut : StaticArray (BitVec 8) BYTE_VALUES_LUT_SIZE) (byte : BitVec 8) : BitVec 8 :=
  lut.get ⟨byte.toNat, toNat_lt_lutSize byte⟩

/-- The loop of `BitArrMirrorLUT`, after its first `n` rounds. -/
def mirrorLUTLoop (luts : Luts) (bitArr : BitArr) (n : Nat) : BitArr :=
  (List.range n).foldl
    (fun mirrored byte_index =>
      mirrored ||| (entry luts.mirror_lut (bitArr.currByte byte_index)).setWidth 64 <<<
        (BITS_IN_BYTE * (total_bytes - 1 - byte_index)))
    0#64

/-- `BitArrMirrorLUT`, with the static data that it leaves. -/
def mirrorLUT (luts : Luts) (bitArr : BitArr) : BitArr × Luts :=
  (mirrorLUTLoop (initLuts luts) bitArr total_bytes, initLuts luts)

/-- The loop of `BitArrCountOnLUT`, after its first `n` rounds. -/
def countOnLUTLoop (luts : Luts) (bitArr : BitArr) (n : Nat) : Nat :=
  (List.range n).foldl
    (fun ones_total byte_index =>
      ones_total + (entry luts.counton_lut (bitArr.currByte byte_index)).toNat)
    0

/-- `BitArrCountOnLUT`, with the static data that it leaves. -/
def countOnLUT (luts : Luts) (bitArr : BitArr) : Nat × Luts :=
  (countOnLUTLoop (initLuts luts) bitArr total_bytes, initLuts luts)

/-- The static data in a program: at its start, and after calls in any order. -/
inductive Luts.Reached : Luts → Prop
  | start : Luts.Reached Luts.zero
  | mirrorLUT {luts : Luts} (h : luts.Reached) (bitArr : BitArr) :
      Luts.Reached (BitArr.mirrorLUT luts bitArr).2
  | countOnLUT {luts : Luts} (h : luts.Reached) (bitArr : BitArr) :
      Luts.Reached (BitArr.countOnLUT luts bitArr).2

/-! ## The loops -/

/-- The loop that clears the lowest bit counts every bit once. -/
theorem countOnLoop_eq (bitArr : BitArr) (count : Nat) :
    bitArr.countOnLoop count = count + fieldSum 1 64 bitArr.toNat := by
  fun_induction countOnLoop bitArr count with
  | case1 bitArr count hpos ih =>
      have hpos : 0 < bitArr.toNat := hpos
      have hpred : (bitArr - 1#64).toNat = bitArr.toNat - 1 := by
        rw [BitVec.toNat_sub_of_le (by exact hpos)]
        rfl
      have hclear := fieldSum_and_pred hpos bitArr.isLt
      rw [ih, BitVec.toNat_and, hpred]
      omega
  | case2 bitArr count hzero =>
      have hzero : bitArr.toNat = 0 := by
        have hle : ¬ 0 < bitArr.toNat := hzero
        omega
      rw [hzero]
      rfl

theorem mirrorLoop_succ (bitArr : BitArr) (n : Nat) :
    bitArr.mirrorLoop (n + 1) =
      if bitArr.getBit n then (bitArr.mirrorLoop n).setOn (BITARR_BITS - 1 - n)
      else bitArr.mirrorLoop n := by
  simp [mirrorLoop, List.range_succ]

/-- The bits that the first rounds have set. -/
theorem getBit_mirrorLoop (bitArr : BitArr) {n j : Nat} (hn : n ≤ BITARR_BITS)
    (hj : j < BITARR_BITS) :
    (bitArr.mirrorLoop n).getBit j =
      (decide (BITARR_BITS - 1 - j < n) && bitArr.getBit (BITARR_BITS - 1 - j)) := by
  induction n with
  | zero => simp [mirrorLoop, getBit]
  | succ n ih =>
      have hrest := ih (by omega)
      rw [mirrorLoop_succ]
      by_cases hlast : j = BITARR_BITS - 1 - n
      case pos =>
        have hmirrored : BITARR_BITS - 1 - j = n := by omega
        rw [hmirrored] at hrest ⊢
        cases hbit : bitArr.getBit n with
        | false => simp [hrest, hbit]
        | true => rw [if_pos rfl, getBit_setOn hj, decide_eq_true hlast]; simp
      case neg =>
        have hsame : (BITARR_BITS - 1 - j < n + 1) ↔ BITARR_BITS - 1 - j < n := by omega
        have hset : ((bitArr.mirrorLoop n).setOn (BITARR_BITS - 1 - n)).getBit j =
            (bitArr.mirrorLoop n).getBit j := by simp [getBit_setOn hj, hlast]
        cases hbit : bitArr.getBit n <;> simp [hset, hrest, hsame]

/-- **Mirroring** moves every bit to the place as far from the other end. -/
theorem getBit_mirror (bitArr : BitArr) {j : Nat} (hj : j < BITARR_BITS) :
    bitArr.mirror.getBit j = bitArr.getBit (BITARR_BITS - 1 - j) := by
  have hdone : BITARR_BITS - 1 - j < BITARR_BITS := by omega
  simp [mirror, getBit_mirrorLoop bitArr (Nat.le_refl _) hj, hdone]

theorem mirror_mirror (bitArr : BitArr) : bitArr.mirror.mirror = bitArr := by
  apply ext_getBit
  intro j hj
  have hback : BITARR_BITS - 1 - (BITARR_BITS - 1 - j) = j := by omega
  rw [getBit_mirror _ hj, getBit_mirror _ (by omega), hback]

/-! ## A byte -/

theorem byteLoop_succ (byte_index n : Nat) :
    byteLoop byte_index (n + 1) = (byteLoop byte_index n).round := by
  simp [byteLoop, List.range_succ]

theorem original_byteLoop (byte_index n : Nat) :
    (byteLoop byte_index n).original_byte = BitVec.ofNat 8 byte_index >>> n := by
  induction n with
  | zero => simp [byteLoop]
  | succ n ih => simp [byteLoop_succ, ByteBits.round, ih, BitVec.shiftRight_add]

/-- The reversed byte has the bits that were shifted out, the last one first. -/
theorem getLsbD_reversed (byte_index : Nat) {n j : Nat} (hn : n ≤ BITS_IN_BYTE)
    (hj : j < BITS_IN_BYTE) :
    (byteLoop byte_index n).reversed_byte.getLsbD j =
      (decide (j < n) && (BitVec.ofNat 8 byte_index).getLsbD (n - 1 - j)) := by
  induction n generalizing j with
  | zero => simp [byteLoop]
  | succ n ih =>
      unfold BITS_IN_BYTE at hj hn
      rw [byteLoop_succ]
      simp only [ByteBits.round, original_byteLoop, BitVec.getLsbD_or, BitVec.getLsbD_shiftLeft]
      cases j with
      | zero => simp
      | succ j =>
          have hrest := ih (j := j) (by unfold BITS_IN_BYTE; omega) (by unfold BITS_IN_BYTE; omega)
          have hplace : n - (j + 1) = n - 1 - j := by omega
          simp [hrest, hj, hplace]

/-- The lowest bits are few. -/
theorem fieldSum_one_le (n w : Nat) : fieldSum 1 n w ≤ n := by
  rw [fieldSum_one]
  have hle := List.countP_le_length (p := w.testBit) (l := List.range n)
  simpa using hle

/-- The ones of the byte that were shifted out. -/
theorem toNat_ones (byte_index : Nat) {n : Nat} (hn : n ≤ BITS_IN_BYTE) :
    (byteLoop byte_index n).ones_in_byte.toNat =
      fieldSum 1 n (BitVec.ofNat 8 byte_index).toNat := by
  induction n with
  | zero => simp [byteLoop, fieldSum]
  | succ n ih =>
      unfold BITS_IN_BYTE at hn ih
      have hle := fieldSum_one_le (n + 1) (BitVec.ofNat 8 byte_index).toNat
      rw [fieldSum_add] at hle ⊢
      rw [byteLoop_succ]
      simp only [ByteBits.round, original_byteLoop, BitVec.toNat_add, ih (by omega),
        BitVec.toNat_and, BitVec.toNat_ushiftRight, Nat.shiftRight_eq_div_pow]
      simp only [fieldSum, Nat.one_mul, Nat.pow_one, Nat.add_zero, BitVec.toNat_ofNat] at hle ⊢
      rw [Nat.mod_eq_of_lt (a := 1) (by decide), Nat.and_one_is_mod]
      omega

/-! ## The tables -/

/-- What the filled tables hold. -/
structure Luts.Filled (luts : Luts) : Prop where
  mirror : ∀ i (h : i < BYTE_VALUES_LUT_SIZE),
    luts.mirror_lut[i] = (byteLoop i BITS_IN_BYTE).reversed_byte
  counton : ∀ i (h : i < BYTE_VALUES_LUT_SIZE),
    luts.counton_lut[i] = (byteLoop i BITS_IN_BYTE).ones_in_byte

/-- The outer loop fills the entries from its index on. -/
theorem fillLuts_filled (luts : Luts) (byte_index : Nat)
    (hmirror : ∀ i (h : i < BYTE_VALUES_LUT_SIZE), i < byte_index →
      luts.mirror_lut[i] = (byteLoop i BITS_IN_BYTE).reversed_byte)
    (hcounton : ∀ i (h : i < BYTE_VALUES_LUT_SIZE), i < byte_index →
      luts.counton_lut[i] = (byteLoop i BITS_IN_BYTE).ones_in_byte) :
    (fillLuts luts byte_index).Filled := by
  fun_induction fillLuts luts byte_index with
  | case1 luts byte_index h bits ih =>
      apply ih
      · intro i hi hlt
        by_cases heq : byte_index = i
        case pos => simp [heq, bits]
        case neg => simp [heq, hmirror i hi (by omega)]
      · intro i hi hlt
        by_cases heq : byte_index = i
        case pos => simp [heq, bits]
        case neg => simp [heq, hcounton i hi (by omega)]
  | case2 luts byte_index h =>
      exact ⟨fun i hi => hmirror i hi (by omega), fun i hi => hcounton i hi (by omega)⟩

/-- The static data: not yet initialised, or filled. -/
theorem Luts.Reached.filled {luts : Luts} (h : luts.Reached) : (initLuts luts).Filled := by
  have hfill : ∀ luts : Luts, ({ fillLuts luts 0 with is_Init := true } : Luts).Filled := by
    intro luts
    have hfilled := fillLuts_filled luts 0 (by simp) (by simp)
    exact ⟨hfilled.mirror, hfilled.counton⟩
  have hinit : ∀ luts : Luts, (initLuts luts).Filled → (initLuts (initLuts luts)).Filled := by
    intro luts hfilled
    have hset : (initLuts luts).is_Init = true := by
      unfold initLuts
      split
      · assumption
      · rfl
    rw [initLuts, if_pos hset]
    exact hfilled
  induction h with
  | start => exact hfill Luts.zero
  | mirrorLUT _ bitArr ih => exact hinit _ ih
  | countOnLUT _ bitArr ih => exact hinit _ ih

/-! ## Byte by byte -/

variable {luts : Luts}

/-- A bit of a word is a bit of one of its bytes. -/
theorem getLsbD_currByte (bitArr : BitArr) (n : Nat) {j : Nat} (hj : j < BITS_IN_BYTE) :
    (bitArr.currByte n).getLsbD j = bitArr.getLsbD (BITS_IN_BYTE * n + j) := by
  unfold BITS_IN_BYTE at hj
  simp [currByte, hj]

theorem mirror_entry (h : luts.Filled) (byte : BitVec 8) :
    entry luts.mirror_lut byte = (byteLoop byte.toNat BITS_IN_BYTE).reversed_byte :=
  h.mirror byte.toNat (toNat_lt_lutSize byte)

theorem counton_entry (h : luts.Filled) (byte : BitVec 8) :
    entry luts.counton_lut byte = (byteLoop byte.toNat BITS_IN_BYTE).ones_in_byte :=
  h.counton byte.toNat (toNat_lt_lutSize byte)

/-- The mirrored byte. -/
theorem getLsbD_mirror_entry (h : luts.Filled) (byte : BitVec 8) {j : Nat}
    (hj : j < BITS_IN_BYTE) :
    (entry luts.mirror_lut byte).getLsbD j = byte.getLsbD (BITS_IN_BYTE - 1 - j) := by
  rw [mirror_entry h, getLsbD_reversed _ (Nat.le_refl _) hj]
  simp [hj]

theorem mirrorLUTLoop_succ (luts : Luts) (bitArr : BitArr) (n : Nat) :
    mirrorLUTLoop luts bitArr (n + 1) =
      mirrorLUTLoop luts bitArr n ||| (entry luts.mirror_lut (bitArr.currByte n)).setWidth 64 <<<
        (BITS_IN_BYTE * (total_bytes - 1 - n)) := by
  simp [mirrorLUTLoop, List.range_succ]

/-- The bits that come from the first bytes. -/
theorem getLsbD_mirrorLUTLoop (h : luts.Filled) (bitArr : BitArr) {n j : Nat}
    (hn : n ≤ total_bytes) (hj : j < BITARR_BITS) :
    (mirrorLUTLoop luts bitArr n).getLsbD j =
      (decide (BITARR_BITS - 1 - j < BITS_IN_BYTE * n) &&
        bitArr.getLsbD (BITARR_BITS - 1 - j)) := by
  induction n with
  | zero => simp [mirrorLUTLoop]
  | succ n ih =>
      unfold total_bytes BITARR_BITS at *
      have hshift : BITS_IN_BYTE * (8 - 1 - n) = 56 - 8 * n := by
        unfold BITS_IN_BYTE
        omega
      rw [mirrorLUTLoop_succ, BitVec.getLsbD_or, ih (by omega), BitVec.getLsbD_shiftLeft,
        BitVec.getLsbD_setWidth, total_bytes, hshift]
      unfold BITS_IN_BYTE
      by_cases hbelow : j < 56 - 8 * n
      -- the bytes that are still to come
      case pos =>
        have hnow : ¬ 64 - 1 - j < 8 * n := by omega
        have hlater : ¬ 64 - 1 - j < 8 * (n + 1) := by omega
        simp [hbelow, hnow, hlater]
      case neg =>
        have hlater : 64 - 1 - j < 8 * (n + 1) := by omega
        by_cases habove : 64 - 1 - j < 8 * n
        -- the bytes that have come before
        case pos =>
          have houtside : 8 ≤ j - (56 - 8 * n) := by omega
          simp [habove, hlater, BitVec.getLsbD_of_ge _ _ houtside]
        case neg =>
          have hinside : j - (56 - 8 * n) < BITS_IN_BYTE := by
            unfold BITS_IN_BYTE
            omega
          have hplace : BITS_IN_BYTE * n + (BITS_IN_BYTE - 1 - (j - (56 - 8 * n))) =
              64 - 1 - j := by
            unfold BITS_IN_BYTE
            omega
          rw [getLsbD_mirror_entry h _ hinside, getLsbD_currByte _ _ (by omega), hplace]
          have hwidth : j - (56 - 8 * n) < 64 := by omega
          simp [hj, hbelow, habove, hlater, hwidth]

/-- **The table mirrors** as the loop does. -/
theorem mirrorLUTLoop_eq (h : luts.Filled) (bitArr : BitArr) :
    mirrorLUTLoop luts bitArr total_bytes = bitArr.mirror := by
  apply ext_getBit
  intro j hj
  rw [getBit_eq hj, getLsbD_mirrorLUTLoop h bitArr (Nat.le_refl _) hj, getBit_mirror _ hj,
    getBit_eq (by omega)]
  have hdone : BITARR_BITS - 1 - j < BITS_IN_BYTE * total_bytes := by
    unfold BITARR_BITS BITS_IN_BYTE total_bytes at *
    omega
  simp [hdone]

theorem countOnLUTLoop_succ (luts : Luts) (bitArr : BitArr) (n : Nat) :
    countOnLUTLoop luts bitArr (n + 1) =
      countOnLUTLoop luts bitArr n +
        (entry luts.counton_lut (bitArr.currByte n)).toNat := by
  simp [countOnLUTLoop, List.range_succ]

/-- The ones of the first bytes. -/
theorem countOnLUTLoop_eq (h : luts.Filled) (bitArr : BitArr) (n : Nat) :
    countOnLUTLoop luts bitArr n = fieldSum 1 (BITS_IN_BYTE * n) bitArr.toNat := by
  induction n with
  | zero => rfl
  | succ n ih =>
      have hbyte : (bitArr.currByte n).toNat =
          bitArr.toNat / 2 ^ (1 * (BITS_IN_BYTE * n)) % 2 ^ (1 * BITS_IN_BYTE) := by
        simp [currByte, BITS_IN_BYTE, Nat.shiftRight_eq_div_pow]
      rw [countOnLUTLoop_succ, ih, counton_entry h, toNat_ones _ (Nat.le_refl _),
        BitVec.ofNat_toNat, BitVec.setWidth_eq, hbyte, fieldSum_mod, ← fieldSum_add,
        Nat.mul_succ]

/-- **The table variants agree with the loops**, on every word and after any calls before, and
mirroring twice gives the word back. -/
theorem lut_variants_agree (h : luts.Reached) (bitArr : BitArr) :
    (mirrorLUT luts bitArr).1 = bitArr.mirror ∧ (countOnLUT luts bitArr).1 = bitArr.countOn ∧
      bitArr.mirror.mirror = bitArr := by
  refine ⟨mirrorLUTLoop_eq h.filled bitArr, ?_, mirror_mirror bitArr⟩
  have hloop := countOnLUTLoop_eq h.filled bitArr total_bytes
  rw [countOn, countOnLoop_eq, Nat.zero_add]
  exact hloop

/-- The second call of a program. -/
theorem lut_variants_agree_second :
    (mirrorLUT (countOnLUT Luts.zero 6#64).2 6#64).1 = mirror 6#64 ∧
      (countOnLUT (countOnLUT Luts.zero 6#64).2 6#64).1 = countOn 6#64 ∧
      mirror (mirror 6#64) = 6#64 :=
  lut_variants_agree (Luts.Reached.countOnLUT Luts.Reached.start 6#64) 6#64

end BitArr

end Ds
end InfinityLabs
