import InfinityLabs.Lib.ByteMemory

/-!
# Filling, copying and moving memory

`c/ws9/mem_utils.c`.  `MemSet` and `MemCpy` go byte by byte up to an aligned address, then word by
word, and byte by byte over the rest.  `MemMove` goes byte by byte, from the begin on or from the
end on, whichever reads every byte before it is overwritten.

A pointer is an address, and a word has eight bytes.  An access through a pointer to words is
faulty where it is not aligned.
-/

namespace InfinityLabs
namespace Exercises
namespace MemUtils

open Lib

/-! ## The code -/

/-- `sizeof(size_t)`. -/
def wordSize : Nat := 8

/-- The loop of `BuildPattern`. -/
def patternLoop (byte : UInt8) : Nat → Nat → Nat
  | 0, pattern => pattern
  | n + 1, pattern => patternLoop byte n ((pattern <<< 8) % 2 ^ 64 ||| byte.toNat)

/-- `BuildPattern`. -/
def buildPattern (c : Int) : Nat :=
  patternLoop (UInt8.ofInt c) wordSize 0

/-- `(size_t)byte_ptr & (word_size - 1)`. -/
def misalignment (p : Nat) : Nat := p &&& (wordSize - 1)

/-- `MemSet` up to an aligned address: the memory, the pointer and what is left. -/
def setHead (byte : UInt8) : Nat → ByteMemory → Nat → Except AccessFault (ByteMemory × Nat × Nat)
  | 0, m, p => .ok (m, p, 0)
  | n + 1, m, p =>
      if misalignment p ≠ 0 then do
        let m ← writeByte m p byte
        setHead byte n m (p + 1)
      else .ok (m, p, n + 1)

/-- `MemSet` word by word. -/
def setWords (pat : Nat) : Nat → ByteMemory → Nat → Except AccessFault ByteMemory
  | 0, m, _ => .ok m
  | k + 1, m, p => do
      let m ← writeWord m p pat
      setWords pat k m (p + wordSize)

/-- `MemSet` byte by byte. -/
def setTail (byte : UInt8) : Nat → ByteMemory → Nat → Except AccessFault ByteMemory
  | 0, m, _ => .ok m
  | n + 1, m, p => do
      let m ← writeByte m p byte
      setTail byte n m (p + 1)

/-- `MemSet`: the pointer it returns and the memory. -/
def memSet (m : ByteMemory) (s : Nat) (c : Int) (n : Nat) :
    Except AccessFault (Nat × ByteMemory) := do
  let (m, p, n) ← setHead (UInt8.ofInt c) n m s
  if n > wordSize then
    let numWords := n / wordSize
    let m ← setWords (buildPattern c) numWords m p
    let m ← setTail (UInt8.ofInt c) (n % wordSize) m (p + wordSize * numWords)
    pure (s, m)
  else
    let m ← setTail (UInt8.ofInt c) n m p
    pure (s, m)

/-- `MemCpy` up to two aligned addresses: the memory, the pointers and what is left. -/
def copyHead : Nat → ByteMemory → Nat → Nat → Except AccessFault (ByteMemory × Nat × Nat × Nat)
  | 0, m, d, s => .ok (m, d, s, 0)
  | n + 1, m, d, s =>
      if d % wordSize ≠ 0 ∨ s % wordSize ≠ 0 then do
        let m ← copyByte m d s
        copyHead n m (d + 1) (s + 1)
      else .ok (m, d, s, n + 1)

/-- `MemCpy` word by word. -/
def copyWords : Nat → ByteMemory → Nat → Nat → Except AccessFault ByteMemory
  | 0, m, _, _ => .ok m
  | k + 1, m, d, s => do
      let m ← copyWord m d s
      copyWords k m (d + wordSize) (s + wordSize)

/-- The loop from the begin on, of `MemCpy` and of `MemMove`. -/
def copyForward : Nat → ByteMemory → Nat → Nat → Except AccessFault ByteMemory
  | 0, m, _, _ => .ok m
  | n + 1, m, d, s => do
      let m ← copyByte m d s
      copyForward n m (d + 1) (s + 1)

/-- `MemCpy`. -/
def memCpy (m : ByteMemory) (dest src byteCount : Nat) : Except AccessFault (Nat × ByteMemory) := do
  if ¬ (dest ≠ 0 ∧ src ≠ 0) then .error .assertion
  else if byteCount = 0 ∨ src = dest then pure (dest, m)
  else
    let (m, d, s, n) ← copyHead byteCount m dest src
    let wordToCopy := n / wordSize
    let m ← copyWords wordToCopy m d s
    let m ← copyForward (n % wordSize) m (d + wordSize * wordToCopy) (s + wordSize * wordToCopy)
    pure (dest, m)

/-- The loop of `MemMove` from the end on; the pointers are one behind the next byte. -/
def copyBackward : Nat → ByteMemory → Nat → Nat → Except AccessFault ByteMemory
  | 0, m, _, _ => .ok m
  | n + 1, m, d, s => do
      let m ← copyByte m (d - 1) (s - 1)
      copyBackward n m (d - 1) (s - 1)

/-- `MemMove`. -/
def memMove (m : ByteMemory) (dest src byteCount : Nat) :
    Except AccessFault (Nat × ByteMemory) := do
  if ¬ (dest ≠ 0 ∧ src ≠ 0) then .error .assertion
  else if dest = src ∨ 0 = byteCount then pure (dest, m)
  else if dest < src ∨ dest ≥ src + byteCount then
    let m ← copyForward byteCount m dest src
    pure (dest, m)
  else
    let m ← copyBackward byteCount m (dest + byteCount) (src + byteCount)
    pure (dest, m)

/-! ## The pattern -/

variable {m : ByteMemory} {byte : UInt8} {p d s n k : Nat}

/-- A byte goes below the ones there are. -/
theorem shift_or (byte : UInt8) {pattern : Nat} (h : pattern < 2 ^ 56) :
    (pattern <<< 8) % 2 ^ 64 ||| byte.toNat = pattern * 2 ^ 8 + byte.toNat := by
  have hshift : pattern <<< 8 = pattern * 2 ^ 8 := Nat.shiftLeft_eq pattern 8
  have hlt : (pattern <<< 8) % 2 ^ 64 = pattern <<< 8 := by omega
  rw [hlt, ← Nat.shiftLeft_add_eq_or_of_lt (UInt8.toNat_lt byte), hshift]

/-- The pattern of some bytes and the bytes that come. -/
theorem patternLoop_eq (byte : UInt8) {k n : Nat} (h : k + n ≤ 8) :
    patternLoop byte n (wordOf (List.replicate k byte)) = wordOf (List.replicate (k + n) byte) := by
  induction n generalizing k with
  | zero => rfl
  | succ n ih =>
      have hlt : wordOf (List.replicate k byte) < 2 ^ 56 := by
        have hbytes : ∀ x ∈ (List.replicate k byte).map UInt8.toNat, x < 256 := by
          intro x hx
          obtain ⟨c, -, rfl⟩ := List.mem_map.mp hx
          exact UInt8.toNat_lt c
        have hpow := Nat.ofDigits_lt_base_pow_length (by decide) hbytes
        rw [List.length_map, List.length_replicate] at hpow
        exact Nat.lt_of_lt_of_le hpow (Nat.pow_le_pow_right (by decide) (by omega : k ≤ 7))
      have hcons : wordOf (List.replicate (k + 1) byte) =
          byte.toNat + 256 * wordOf (List.replicate k byte) := Nat.ofDigits_cons
      have hnext : wordOf (List.replicate k byte) * 2 ^ 8 + byte.toNat =
          wordOf (List.replicate (k + 1) byte) := by
        omega
      rw [patternLoop, shift_or byte hlt, hnext, ih (by omega), Nat.add_right_comm,
        Nat.add_assoc]

/-- Every byte of the pattern is the given one. -/
theorem bytesOf_buildPattern (c : Int) :
    bytesOf 8 (buildPattern c) = List.replicate 8 (UInt8.ofInt c) := by
  have hpattern : buildPattern c = wordOf (List.replicate 8 (UInt8.ofInt c)) :=
    @patternLoop_eq (UInt8.ofInt c) 0 8 (Nat.le_refl 8)
  have hbytes := bytesOf_wordOf (List.replicate 8 (UInt8.ofInt c))
  rwa [List.length_replicate, ← hpattern] at hbytes

theorem misalignment_eq (p : Nat) : misalignment p = p % 8 :=
  Nat.and_two_pow_sub_one_eq_mod p 3

/-! ## Filling -/

/-- The head ends where nothing is left or the address is aligned. -/
theorem setHead_eq (h : Accessible m p n) :
    ∃ k ≤ n, setHead byte n m p = .ok (filled m p k byte, p + k, n - k) ∧
      (k = n ∨ (p + k) % 8 = 0) := by
  induction n generalizing m p with
  | zero => exact ⟨0, Nat.le_refl 0, by rw [filled_zero]; rfl, Or.inl rfl⟩
  | succ n ih =>
      by_cases halign : misalignment p ≠ 0
      case pos =>
        obtain ⟨k, hk, hrest, hend⟩ := @ih (filled m p 1 byte) (p + 1)
          (Accessible.filled (h.part (by omega)))
        refine ⟨1 + k, by omega, ?_, by omega⟩
        rw [setHead, if_pos halign, writeByte_eq_filled h.first, access_ok_bind, hrest,
          filled_filled, Nat.add_assoc, show n + 1 - (1 + k) = n - k by omega]
      case neg =>
        refine ⟨0, Nat.zero_le _, ?_, Or.inr ?_⟩
        · rw [setHead, if_neg halign, filled_zero]
          rfl
        · rwa [ne_eq, not_not, misalignment_eq] at halign

theorem setWords_eq {pat : Nat} (hpat : bytesOf 8 pat = List.replicate 8 byte)
    (halign : p % 8 = 0) (h : Accessible m p (8 * k)) :
    setWords pat k m p = .ok (filled m p (8 * k) byte) := by
  induction k generalizing m p with
  | zero => rw [Nat.mul_zero, filled_zero, setWords]
  | succ k ih =>
      have hfirst : Accessible m p 8 := fun i hi => h i (by omega)
      have hrest := @ih (filled m p 8 byte) (p + 8) (by omega)
        (Accessible.filled (h.part (by omega)))
      rw [setWords, writeWord_eq halign hfirst, hpat, written_replicate, access_ok_bind, wordSize,
        hrest, filled_filled, Nat.mul_succ, Nat.add_comm]

theorem setTail_eq (h : Accessible m p n) : setTail byte n m p = .ok (filled m p n byte) := by
  induction n generalizing m p with
  | zero => rw [filled_zero, setTail]
  | succ n ih =>
      have hrest := @ih (filled m p 1 byte) (p + 1) (Accessible.filled (h.part (by omega)))
      rw [setTail, writeByte_eq_filled h.first, access_ok_bind, hrest, filled_filled,
        Nat.add_comm]

/-- **`MemSet`** fills the bytes it is given. -/
theorem memSet_eq (c : Int) (h : Accessible m s n) :
    memSet m s c n = .ok (s, filled m s n (UInt8.ofInt c)) := by
  obtain ⟨k, hk, hhead, hend⟩ := @setHead_eq m (UInt8.ofInt c) s n h
  have hleft : ∀ {j l : Nat}, k + j + l ≤ n →
      Accessible (filled m s (k + j) (UInt8.ofInt c)) (s + (k + j)) l :=
    fun hle => Accessible.filled (h.part hle)
  rw [memSet, hhead, access_ok_bind]
  by_cases hwords : n - k > wordSize
  case pos =>
    have hlarge : n - k > 8 := hwords
    have hset := setWords_eq (bytesOf_buildPattern c) (hend.resolve_left (by omega))
      (@hleft 0 (8 * ((n - k) / 8)) (by omega))
    have htail := @setTail_eq _ (UInt8.ofInt c) _ ((n - k) % 8)
      (@hleft (8 * ((n - k) / 8)) ((n - k) % 8) (by omega))
    rw [Nat.add_zero] at hset
    simp only [if_pos hwords]
    rw [wordSize, hset, access_ok_bind, filled_filled, Nat.add_assoc, htail, access_ok_bind,
      filled_filled, show k + 8 * ((n - k) / 8) + (n - k) % 8 = n by omega]
    rfl
  case neg =>
    have htail := @setTail_eq _ (UInt8.ofInt c) _ (n - k) (@hleft 0 (n - k) (by omega))
    rw [Nat.add_zero] at htail
    simp only [if_neg hwords]
    rw [htail, access_ok_bind, filled_filled, Nat.add_sub_cancel' hk]
    rfl

/-! ## Copying from the begin on -/

/-- The first byte is copied, and the rest is still as it was. -/
theorem copyByte_first (hd : Accessible m d (n + 1)) (hs : Accessible m s (n + 1)) :
    copyByte m d s = .ok (moved m d s 1) ∧ Accessible (moved m d s 1) (d + 1) n ∧
      Accessible (moved m d s 1) (s + 1) n :=
  have hone : Accessible m s 1 := fun i hi => hs i (by omega)
  ⟨copyByte_eq hd.first hs.first, Accessible.moved hone (hd.part (by omega)),
    Accessible.moved hone (hs.part (by omega))⟩

/-- The bytes may be taken one after the other: none is overwritten before. -/
def Forward (d s n : Nat) : Prop := d ≤ s ∨ s + n ≤ d

theorem copyForward_eq (horder : Forward d s n) (hd : Accessible m d n) (hs : Accessible m s n) :
    copyForward n m d s = .ok (moved m d s n) := by
  unfold Forward at horder
  induction n generalizing m d s with
  | zero => rw [moved_zero, copyForward]
  | succ n ih =>
      obtain ⟨hcopy, hdnext, hsnext⟩ := copyByte_first hd hs
      rw [copyForward, hcopy, access_ok_bind, ih (by omega) hdnext hsnext,
        moved_moved_back (by omega), Nat.add_comm]

/-- The head ends where nothing is left or both addresses are aligned. -/
theorem copyHead_eq (horder : Forward d s n) (hd : Accessible m d n) (hs : Accessible m s n) :
    ∃ k ≤ n, copyHead n m d s = .ok (moved m d s k, d + k, s + k, n - k) ∧
      (k = n ∨ (d + k) % 8 = 0 ∧ (s + k) % 8 = 0) := by
  unfold Forward at horder
  induction n generalizing m d s with
  | zero => exact ⟨0, Nat.le_refl 0, by rw [moved_zero]; rfl, Or.inl rfl⟩
  | succ n ih =>
      by_cases halign : d % wordSize ≠ 0 ∨ s % wordSize ≠ 0
      case pos =>
        obtain ⟨hcopy, hdnext, hsnext⟩ := copyByte_first hd hs
        obtain ⟨k, hk, hrest, hend⟩ := ih (by omega) hdnext hsnext
        refine ⟨1 + k, by omega, ?_, by omega⟩
        rw [copyHead, if_pos halign, hcopy, access_ok_bind, hrest, moved_moved_back (by omega),
          Nat.add_assoc, Nat.add_assoc, show n + 1 - (1 + k) = n - k by omega]
      case neg =>
        refine ⟨0, Nat.zero_le _, ?_, Or.inr ?_⟩
        · rw [copyHead, if_neg halign, moved_zero]
          rfl
        · unfold wordSize at halign
          omega

theorem copyWords_eq (horder : Forward d s (8 * k)) (hdalign : d % 8 = 0) (hsalign : s % 8 = 0)
    (hd : Accessible m d (8 * k)) (hs : Accessible m s (8 * k)) :
    copyWords k m d s = .ok (moved m d s (8 * k)) := by
  unfold Forward at horder
  induction k generalizing m d s with
  | zero => rw [Nat.mul_zero, moved_zero, copyWords]
  | succ k ih =>
      have hdword : Accessible m d 8 := fun i hi => hd i (by omega)
      have hsword : Accessible m s 8 := fun i hi => hs i (by omega)
      have hdnext : Accessible (moved m d s 8) (d + 8) (8 * k) :=
        Accessible.moved hsword (hd.part (by omega))
      have hsnext : Accessible (moved m d s 8) (s + 8) (8 * k) :=
        Accessible.moved hsword (hs.part (by omega))
      have hrest := ih (by omega) (by omega) (by omega) hdnext hsnext
      rw [copyWords, copyWord_eq hdalign hsalign hdword hsword, access_ok_bind, wordSize, hrest,
        moved_moved_back (by omega), Nat.mul_succ, Nat.add_comm]

/-- **`MemCpy`** copies between sections that do not overlap. -/
theorem memCpy_eq (hd0 : d ≠ 0) (hs0 : s ≠ 0) (happart : d + n ≤ s ∨ s + n ≤ d)
    (hd : Accessible m d n) (hs : Accessible m s n) :
    memCpy m d s n = .ok (d, moved m d s n) := by
  rw [memCpy, if_neg (not_not.mpr ⟨hd0, hs0⟩)]
  by_cases hnone : n = 0 ∨ s = d
  case pos =>
    obtain rfl : n = 0 := by omega
    rw [if_pos hnone, moved_zero]
    rfl
  case neg =>
    obtain ⟨k, hk, hhead, hend⟩ := copyHead_eq (show Forward d s n by unfold Forward; omega) hd hs
    -- what is left after the first `k + j` bytes
    have hleft : ∀ {j l : Nat}, k + j + l ≤ n →
        Accessible (moved m d s (k + j)) (d + (k + j)) l ∧
          Accessible (moved m d s (k + j)) (s + (k + j)) l := by
      intro j l hle
      have hsource : Accessible m s (k + j) := fun i hi => hs i (by omega)
      exact ⟨Accessible.moved hsource (hd.part hle), Accessible.moved hsource (hs.part hle)⟩
    have hwords : copyWords ((n - k) / 8) (moved m d s k) (d + k) (s + k) =
        .ok (moved m d s (k + 8 * ((n - k) / 8))) := by
      by_cases hall : k = n
      case pos =>
        have hzero : (n - k) / 8 = 0 := by omega
        rw [hzero]
        rfl
      case neg =>
        obtain ⟨hdalign, hsalign⟩ := hend.resolve_left hall
        obtain ⟨hdleft, hsleft⟩ := @hleft 0 (8 * ((n - k) / 8)) (by omega)
        rw [← moved_moved_back (by omega)]
        exact copyWords_eq (by unfold Forward; omega) hdalign hsalign hdleft hsleft
    obtain ⟨hdleft, hsleft⟩ := @hleft (8 * ((n - k) / 8)) ((n - k) % 8) (by omega)
    have htail := copyForward_eq (by unfold Forward; omega) hdleft hsleft
    rw [if_neg hnone, hhead, access_ok_bind, wordSize]
    simp only [hwords, access_ok_bind]
    rw [Nat.add_assoc, Nat.add_assoc, htail, access_ok_bind, moved_moved_back (by omega),
      show k + 8 * ((n - k) / 8) + (n - k) % 8 = n by omega]
    rfl

/-! ## Moving -/

/-- The loop from the end on moves to a place behind. -/
theorem copyBackward_eq (horder : s ≤ d) (hd : Accessible m d n) (hs : Accessible m s n) :
    copyBackward n m (d + n) (s + n) = .ok (moved m d s n) := by
  induction n generalizing m with
  | zero => rw [moved_zero, copyBackward]
  | succ n ih =>
      have hlast : Accessible m (s + n) 1 := hs.part (Nat.le_refl _)
      have hfront : ∀ {b : Nat}, Accessible m b (n + 1) →
          Accessible (moved m (d + n) (s + n) 1) b n := fun h =>
        Accessible.moved hlast fun i hi => h i (by omega)
      rw [copyBackward, ← Nat.add_assoc, ← Nat.add_assoc, Nat.add_sub_cancel, Nat.add_sub_cancel,
        copyByte_eq (hd n (by omega)) (hs n (by omega)), access_ok_bind, ih (hfront hd) (hfront hs),
        moved_moved_front horder]

/-- **`MemMove`** moves however the sections overlap. -/
theorem memMove_eq (hd0 : d ≠ 0) (hs0 : s ≠ 0) (hd : Accessible m d n) (hs : Accessible m s n) :
    memMove m d s n = .ok (d, moved m d s n) := by
  rw [memMove, if_neg (not_not.mpr ⟨hd0, hs0⟩)]
  by_cases hnone : d = s ∨ 0 = n
  case pos =>
    have hsame : moved m d s n = m := by
      funext x
      unfold moved
      split
      · congr 1
        omega
      · rfl
    rw [if_pos hnone, hsame]
    rfl
  case neg =>
    rw [if_neg hnone]
    by_cases hforward : d < s ∨ d ≥ s + n
    case pos =>
      rw [if_pos hforward, copyForward_eq (by unfold Forward; omega) hd hs]
      rfl
    case neg =>
      rw [if_neg hforward, copyBackward_eq (by omega) hd hs]
      rfl

/-- **Filling, copying and moving** are what they are byte for byte, at every alignment, and
nothing else changes. -/
theorem mem_utils_eq (m : ByteMemory) :
    (∀ s c n, Accessible m s n → memSet m s c n = .ok (s, filled m s n (UInt8.ofInt c))) ∧
    (∀ dest src n, dest ≠ 0 → src ≠ 0 → Accessible m dest n → Accessible m src n →
      memMove m dest src n = .ok (dest, moved m dest src n)) ∧
    (∀ dest src n, dest ≠ 0 → src ≠ 0 → dest + n ≤ src ∨ src + n ≤ dest → Accessible m dest n →
      Accessible m src n → memCpy m dest src n = .ok (dest, moved m dest src n)) :=
  ⟨fun _ c _ h => memSet_eq c h, fun _ _ _ => memMove_eq, fun _ _ _ => memCpy_eq⟩

/-- A memory of sixty-four bytes, moved by three within itself. -/
theorem mem_utils_eq_overlapping :
    let m : ByteMemory := fun a => if 0 < a ∧ a < 65 then some (UInt8.ofNat a) else none
    memSet m 3 0x15A 40 = .ok (3, filled m 3 40 0x5A) ∧
    memMove m 8 5 30 = .ok (8, moved m 8 5 30) ∧
    memCpy m 8 40 24 = .ok (8, moved m 8 40 24) := by
  intro m
  have haccess : ∀ a n, 0 < a → a + n < 65 → Accessible m a n := by
    intro a n ha hn i hi
    have hcell : m (a + i) = some (UInt8.ofNat (a + i)) := if_pos (by omega)
    rw [hcell]
    rfl
  obtain ⟨hset, hmove, hcpy⟩ := mem_utils_eq m
  exact ⟨hset 3 0x15A 40 (haccess 3 40 (by decide) (by decide)),
    hmove 8 5 30 (by decide) (by decide) (haccess 8 30 (by decide) (by decide))
      (haccess 5 30 (by decide) (by decide)),
    hcpy 8 40 24 (by decide) (by decide) (by decide) (haccess 8 24 (by decide) (by decide))
      (haccess 40 24 (by decide) (by decide))⟩

end MemUtils
end Exercises
end InfinityLabs
