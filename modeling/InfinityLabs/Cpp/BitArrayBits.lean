import InfinityLabs.Cpp.BitArray
import InfinityLabs.Lib.BitFields

/-!
# The bits of a bit array

The bit at an index is one of the word that holds it.  A call is described by the bits that the
array has after it; `ClearExtraBits` clears those beyond `SIZE`.
-/

namespace InfinityLabs
namespace Cpp

open Lib

variable {SIZE : Nat}

/-! ## Indices -/

/-- The words that there are hold the bits, and the last of them holds one. -/
theorem numWords_bounds (hSIZE : SIZE < 2 ^ 64) (hwords : 0 < NUM_WORDS SIZE) :
    SIZE ≤ BITS_PER_WORD * NUM_WORDS SIZE ∧ BITS_PER_WORD * (NUM_WORDS SIZE - 1) < SIZE := by
  unfold NUM_WORDS BITS_PER_WORD at *
  omega

/-- The word of an index is there. -/
theorem getWordIndex_lt (hSIZE : SIZE < 2 ^ 64) (hwords : 0 < NUM_WORDS SIZE) {idx : Nat}
    (hidx : idx < SIZE) : getWordIndex idx < NUM_WORDS SIZE := by
  have hbounds := (numWords_bounds hSIZE hwords).1
  rw [getWordIndex, Nat.div_lt_iff_lt_mul (by decide), Nat.mul_comm]
  omega

theorem getBitOffset_lt (idx : Nat) : getBitOffset idx < BITS_PER_WORD :=
  Nat.mod_lt _ (by decide)

/-- An index is given by its word and its offset. -/
theorem idx_eq_of_offset {idx idx' : Nat} (hword : getWordIndex idx = getWordIndex idx')
    (hoffset : getBitOffset idx = getBitOffset idx') : idx = idx' := by
  unfold getWordIndex getBitOffset at *
  rw [← Nat.div_add_mod idx BITS_PER_WORD, hword, hoffset, Nat.div_add_mod]

/-! ## Words -/

/-- The mask of an index has the bit at its offset. -/
theorem createMask_eq (idx : Nat) : createMask idx = BitVec.twoPow _ (getBitOffset idx) :=
  (BitVec.twoPow_eq _ _).symm

theorem getLsbD_createMask (idx j : Nat) :
    (createMask idx).getLsbD j = decide (getBitOffset idx = j) := by
  rw [createMask_eq, BitVec.getLsbD_twoPow, decide_eq_true (getBitOffset_lt idx), Bool.true_and]

/-- A test of a word under a mask reads the bit. -/
theorem and_createMask_ne (word : Word) (idx : Nat) :
    ((word &&& createMask idx) != 0) = word.getLsbD (getBitOffset idx) := by
  have hne : createMask idx ≠ 0 := by
    intro hzero
    have hbit := getLsbD_createMask idx (getBitOffset idx)
    rw [hzero, decide_eq_true rfl] at hbit
    simp at hbit
  rw [createMask_eq] at hne ⊢
  rw [BitVec.and_twoPow]
  cases word.getLsbD (getBitOffset idx) with
  | false => rfl
  | true => simpa using hne

/-- The mask of the last word has the bits below `SIZE`. -/
theorem getLsbD_lastWordMask {j : Nat} (hj : j < BITS_PER_WORD) :
    (LAST_WORD_MASK SIZE).getLsbD j =
      decide (SIZE % BITS_PER_WORD ≠ 0 → j < SIZE % BITS_PER_WORD) := by
  unfold LAST_WORD_MASK
  split
  case isTrue hne =>
    have hlt : SIZE % BITS_PER_WORD < BITS_PER_WORD := Nat.mod_lt _ (by decide)
    have hpos : 0 < 2 ^ (SIZE % BITS_PER_WORD) := Nat.two_pow_pos _
    have hmask : (((1 : Word) <<< (SIZE % BITS_PER_WORD)) - 1).toNat =
        2 ^ (SIZE % BITS_PER_WORD) - 1 := by
      have hshift : (1 : Word) <<< (SIZE % BITS_PER_WORD) = BitVec.twoPow _ _ :=
        (BitVec.twoPow_eq _ _).symm
      rw [hshift, BitVec.toNat_sub_of_le, BitVec.toNat_twoPow_of_lt hlt]
      · rfl
      · rw [BitVec.le_def, BitVec.toNat_twoPow_of_lt hlt]
        exact hpos
    rw [BitVec.getLsbD, hmask, Nat.testBit_two_pow_sub_one]
    simp [hne]
  case isFalse heq => simp [hj, not_not.mp heq]

/-! ## `CountBitsInWord` -/

/-- A step adds the fields pairwise. -/
theorem toNat_addPairs {k n : Nat} (hk : 0 < k) (hn : 2 * k * n = BITS_PER_WORD) {mask : Word}
    (hmask : mask.toNat = fieldMask k n) (word : Word) :
    (addPairs k mask word).toNat = pairSum k n word.toNat := by
  have hlt := pairSum_lt hk n word.toNat
  rw [hn] at hlt
  rw [addPairs, BitVec.toNat_add, BitVec.toNat_and, BitVec.toNat_and, BitVec.toNat_ushiftRight,
    hmask, ← pairSum, Nat.mod_eq_of_lt hlt]

/-- `CountBitsInWord` counts the bits that are set. -/
theorem toNat_countBitsInWord (word : Word) :
    (countBitsInWord word).toNat = (List.range BITS_PER_WORD).countP word.getLsbD := by
  have hlt : (countBitsInWord word).toNat < 2 ^ 64 := (countBitsInWord word).isLt
  have hlast : (countBitsInWord word).toNat = fieldSum 64 1 (countBitsInWord word).toNat := by
    rw [fieldSum, fieldSum, Nat.add_zero, Nat.mod_eq_of_lt hlt]
  rw [hlast, countBitsInWord]
  rw [toNat_addPairs (k := 32) (n := 1) (by decide) rfl rfl, fieldSum_pairSum (k := 32) (by decide),
    toNat_addPairs (k := 16) (n := 2) (by decide) rfl rfl, fieldSum_pairSum (k := 16) (by decide),
    toNat_addPairs (k := 8) (n := 4) (by decide) rfl rfl, fieldSum_pairSum (k := 8) (by decide),
    toNat_addPairs (k := 4) (n := 8) (by decide) rfl rfl, fieldSum_pairSum (k := 4) (by decide),
    toNat_addPairs (k := 2) (n := 16) (by decide) rfl rfl, fieldSum_pairSum (k := 2) (by decide),
    toNat_addPairs (k := 1) (n := 32) (by decide) rfl rfl, fieldSum_pairSum (k := 1) (by decide),
    fieldSum_one]
  rfl

/-! ## The bits of an array -/

namespace BitArray

/-- The bit at an index, also at one beyond `SIZE`. -/
def bit (a : BitArray SIZE) (idx : Nat) : Bool :=
  (a.bits[getWordIndex idx]?.getD 0).getLsbD (getBitOffset idx)

variable {a b : BitArray SIZE} {idx : Nat}

theorem bit_of_lt (h : getWordIndex idx < NUM_WORDS SIZE) :
    a.bit idx = a.bits[getWordIndex idx].getLsbD (getBitOffset idx) := by
  rw [bit, Vector.getElem?_eq_getElem h, Option.getD_some]

theorem bit_of_not_lt (h : ¬ getWordIndex idx < NUM_WORDS SIZE) : a.bit idx = false := by
  rw [bit, Vector.getElem?_eq_none (Nat.not_lt.mp h), Option.getD_none]
  exact BitVec.getLsbD_zero

/-- `GetBitUnchecked` reads the bit. -/
theorem getBitUnchecked_eq (h : getWordIndex idx < NUM_WORDS SIZE) :
    a.getBitUnchecked idx = some (a.bit idx) := by
  rw [getBitUnchecked, Vector.getElem?_eq_getElem h, Option.map_some, and_createMask_ne,
    bit_of_lt h]

/-- Arrays with the same bits are the same. -/
theorem ext_bit (h : ∀ idx, a.bit idx = b.bit idx) : a = b := by
  rcases a with ⟨as⟩
  rcases b with ⟨bs⟩
  congr
  ext wordIdx hword j hj
  have hindex : getWordIndex (BITS_PER_WORD * wordIdx + j) = wordIdx := by
    rw [getWordIndex, Nat.mul_add_div (by decide), Nat.div_eq_of_lt hj, Nat.add_zero]
  have hoffset : getBitOffset (BITS_PER_WORD * wordIdx + j) = j := by
    rw [getBitOffset, Nat.mul_add_mod, Nat.mod_eq_of_lt hj]
  have hbit := h (BITS_PER_WORD * wordIdx + j)
  have hlt : getWordIndex (BITS_PER_WORD * wordIdx + j) < NUM_WORDS SIZE := by rwa [hindex]
  rw [bit_of_lt hlt, bit_of_lt hlt] at hbit
  simpa only [hindex, hoffset, BitVec.getLsbD_eq_getElem hj] using hbit

/-- A change of the word of an index that concerns the bit at its offset only. -/
theorem exists_modifyWord {f : Word → Word} {g : Bool → Bool}
    (h : getWordIndex idx < NUM_WORDS SIZE)
    (hf : ∀ word j, j < BITS_PER_WORD → (f word).getLsbD j =
      if getBitOffset idx = j then g (word.getLsbD j) else word.getLsbD j) :
    ∃ a', a.modifyWord (getWordIndex idx) f = some a' ∧
      ∀ i, a'.bit i = if i = idx then g (a.bit i) else a.bit i := by
  refine ⟨_, dif_pos h, ?_⟩
  intro i
  by_cases hi : getWordIndex i < NUM_WORDS SIZE
  case pos =>
    rw [bit_of_lt hi, bit_of_lt hi]
    dsimp only
    by_cases hword : getWordIndex idx = getWordIndex i
    case pos =>
      simp only [← hword, Vector.getElem_set_self, hf _ _ (getBitOffset_lt i)]
      by_cases hoffset : getBitOffset idx = getBitOffset i
      case pos => rw [if_pos hoffset, if_pos (idx_eq_of_offset hword hoffset).symm]
      case neg =>
        have hne : i ≠ idx := fun heq => hoffset (congrArg getBitOffset heq.symm)
        rw [if_neg hoffset, if_neg hne]
    case neg =>
      have hne : i ≠ idx := fun heq => hword (congrArg getWordIndex heq.symm)
      rw [Vector.getElem_set_ne _ _ hword, if_neg hne]
  case neg =>
    have hne : i ≠ idx := fun heq => hi (heq ▸ h)
    rw [bit_of_not_lt hi, bit_of_not_lt hi, if_neg hne]

/-- `SetBitUnchecked` writes the bit. -/
theorem exists_setBitUnchecked (a : BitArray SIZE) (h : getWordIndex idx < NUM_WORDS SIZE)
    (val : Bool) :
    ∃ a', a.setBitUnchecked idx val = some a' ∧
      ∀ i, a'.bit i = if i = idx then val else a.bit i := by
  refine exists_modifyWord (g := fun _ => val) h ?_
  intro word j hj
  cases val with
  | false =>
      simp only [Bool.false_eq_true, if_false, BitVec.getLsbD_and, BitVec.getLsbD_not,
        getLsbD_createMask, decide_eq_true hj]
      by_cases hoffset : getBitOffset idx = j
      case pos => simp [hoffset]
      case neg => simp [hoffset]
  | true =>
      simp only [if_true, BitVec.getLsbD_or, getLsbD_createMask]
      by_cases hoffset : getBitOffset idx = j
      case pos => simp [hoffset]
      case neg => simp [hoffset]

/-- A flip under the mask of an index inverts the bit. -/
theorem exists_flipWord (a : BitArray SIZE) (h : getWordIndex idx < NUM_WORDS SIZE) :
    ∃ a', a.modifyWord (getWordIndex idx) (· ^^^ createMask idx) = some a' ∧
      ∀ i, a'.bit i = if i = idx then !a.bit i else a.bit i := by
  refine exists_modifyWord (g := not) h ?_
  intro word j _
  rw [BitVec.getLsbD_xor, getLsbD_createMask]
  by_cases hoffset : getBitOffset idx = j
  case pos => simp [hoffset]
  case neg => simp [hoffset]

/-- `ClearExtraBits` clears the bits beyond `SIZE`. -/
theorem bit_clearExtraBits (hSIZE : SIZE < 2 ^ 64) (hwords : 0 < NUM_WORDS SIZE) (a : BitArray SIZE)
    (i : Nat) : a.clearExtraBits.bit i = (a.bit i && decide (i < SIZE)) := by
  have hbounds := numWords_bounds hSIZE hwords
  have hlast : NUM_WORDS SIZE - 1 < NUM_WORDS SIZE := Nat.sub_one_lt_of_lt hwords
  rw [clearExtraBits, dif_pos hwords]
  by_cases hi : getWordIndex i < NUM_WORDS SIZE
  case pos =>
    rw [bit_of_lt hi, bit_of_lt hi]
    dsimp only
    by_cases hword : NUM_WORDS SIZE - 1 = getWordIndex i
    case pos =>
      have hmask : (SIZE % BITS_PER_WORD ≠ 0 → getBitOffset i < SIZE % BITS_PER_WORD) ↔
          i < SIZE := by
        unfold getWordIndex getBitOffset BITS_PER_WORD at *
        omega
      simp only [← hword, Vector.getElem_set_self, BitVec.getLsbD_and,
        getLsbD_lastWordMask (getBitOffset_lt i), hmask]
    case neg =>
      have hlt : i < SIZE := by
        unfold getWordIndex BITS_PER_WORD at *
        omega
      rw [Vector.getElem_set_ne _ _ hword, decide_eq_true hlt, Bool.and_true]
  case neg => rw [bit_of_not_lt hi, bit_of_not_lt hi, Bool.false_and]

/-- A bit below `SIZE` is in a word, and beyond it is cleared. -/
theorem bit_clearExtraBits_of_word (hSIZE : SIZE < 2 ^ 64) (hwords : 0 < NUM_WORDS SIZE)
    {a : BitArray SIZE} {i : Nat} {v : Bool}
    (hv : ∀ h : getWordIndex i < NUM_WORDS SIZE,
      a.bits[getWordIndex i].getLsbD (getBitOffset i) = v) :
    a.clearExtraBits.bit i = (v && decide (i < SIZE)) := by
  rw [bit_clearExtraBits hSIZE hwords]
  by_cases hi : i < SIZE
  case pos =>
    have hword := getWordIndex_lt hSIZE hwords hi
    rw [bit_of_lt hword, hv hword]
  case neg => rw [decide_eq_false hi, Bool.and_false, Bool.and_false]

theorem bit_construct (SIZE i : Nat) : (construct SIZE).bit i = false := by
  by_cases hi : getWordIndex i < NUM_WORDS SIZE
  case pos =>
    rw [bit_of_lt hi]
    simp [construct]
  case neg => exact bit_of_not_lt hi

theorem bit_setAll (hSIZE : SIZE < 2 ^ 64) (hwords : 0 < NUM_WORDS SIZE) (val : Bool) (i : Nat) :
    (setAll SIZE val).bit i = (val && decide (i < SIZE)) := by
  refine bit_clearExtraBits_of_word hSIZE hwords ?_
  intro h
  cases val with
  | false => simp
  | true => simp [getBitOffset_lt]

theorem bit_flipAll (hSIZE : SIZE < 2 ^ 64) (hwords : 0 < NUM_WORDS SIZE) (a : BitArray SIZE)
    (i : Nat) : a.flipAll.bit i = (!a.bit i && decide (i < SIZE)) := by
  refine bit_clearExtraBits_of_word hSIZE hwords ?_
  intro h
  simp [bit_of_lt h, getBitOffset_lt]

theorem bit_assignWith (hSIZE : SIZE < 2 ^ 64) (hwords : 0 < NUM_WORDS SIZE)
    {op : Word → Word → Word} {g : Bool → Bool → Bool}
    (hop : ∀ x y j, (op x y).getLsbD j = g (x.getLsbD j) (y.getLsbD j)) (a b : BitArray SIZE)
    (i : Nat) : (a.assignWith op b).bit i = (g (a.bit i) (b.bit i) && decide (i < SIZE)) := by
  refine bit_clearExtraBits_of_word hSIZE hwords ?_
  intro h
  rw [Vector.getElem_zipWith, hop, bit_of_lt h, bit_of_lt h]

end BitArray

end Cpp
end InfinityLabs
