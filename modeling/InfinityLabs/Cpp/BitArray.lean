import InfinityLabs.Lib.Runs
import Mathlib.Algebra.Group.Nat.Defs

/-!
# The bit array

`cpp/inc/bitarray.hpp`: an array of `SIZE` bits in words of 64.  A function that validates its
index throws or goes on; an access beyond the words is undefined.  A constant array that is
declared with no element is no type, so `SIZE` is such that there is a word.
-/

namespace InfinityLabs
namespace Cpp

open Lib

/-! ## The words -/

/-- `CHAR_BIT * sizeof(std::size_t)`. -/
def BITS_PER_WORD : Nat := 64

/-- A `std::size_t`. -/
abbrev Word := BitVec BITS_PER_WORD

/-- The number of words, whose sum is one of `std::size_t`. -/
def NUM_WORDS (SIZE : Nat) : Nat := (SIZE + BITS_PER_WORD - 1) % 2 ^ 64 / BITS_PER_WORD

/-- The bits of the last word that are in use. -/
def LAST_WORD_MASK (SIZE : Nat) : Word :=
  if SIZE % BITS_PER_WORD ≠ 0 then ((1 : Word) <<< (SIZE % BITS_PER_WORD)) - 1 else ~~~0

/-- A `BitArray<SIZE>`. -/
structure BitArray (SIZE : Nat) where
  bits : Vector Word (NUM_WORDS SIZE)
  deriving DecidableEq, Repr

/-- `GetWordIndex`. -/
def getWordIndex (bitIdx : Nat) : Nat := bitIdx / BITS_PER_WORD

/-- `GetBitOffset`. -/
def getBitOffset (bitIdx : Nat) : Nat := bitIdx % BITS_PER_WORD

/-- `CreateMask`. -/
def createMask (bitIdx : Nat) : Word := (1 : Word) <<< getBitOffset bitIdx

/-- A step of `CountBitsInWord`. -/
def addPairs (k : Nat) (mask word : Word) : Word := (word &&& mask) + ((word >>> k) &&& mask)

/-- `CountBitsInWord`. -/
def countBitsInWord (word : Word) : Word :=
  let word := addPairs 1 0x5555555555555555 word
  let word := addPairs 2 0x3333333333333333 word
  let word := addPairs 4 0x0f0f0f0f0f0f0f0f word
  let word := addPairs 8 0x00ff00ff00ff00ff word
  let word := addPairs 16 0x0000ffff0000ffff word
  addPairs 32 0x00000000ffffffff word

/-- `ValidateIndex`. -/
def validateIndex (SIZE idx : Nat) : Except String Unit :=
  if SIZE ≤ idx then .error "BitArray index out of range" else .ok ()

namespace BitArray

variable {SIZE : Nat}

/-! ## Single bits -/

/-- The constructor. -/
def construct (SIZE : Nat) : BitArray SIZE := ⟨Vector.replicate _ 0⟩

/-- An assignment to a word. -/
def modifyWord (a : BitArray SIZE) (wordIdx : Nat) (f : Word → Word) : Option (BitArray SIZE) :=
  if h : wordIdx < NUM_WORDS SIZE then some ⟨a.bits.set wordIdx (f a.bits[wordIdx])⟩ else none

/-- `GetBitUnchecked`. -/
def getBitUnchecked (a : BitArray SIZE) (idx : Nat) : Option Bool :=
  a.bits[getWordIndex idx]?.map fun word => (word &&& createMask idx) != 0

/-- `SetBitUnchecked`. -/
def setBitUnchecked (a : BitArray SIZE) (idx : Nat) (val : Bool) : Option (BitArray SIZE) :=
  a.modifyWord (getWordIndex idx) fun word =>
    if val then word ||| createMask idx else word &&& ~~~createMask idx

/-- `Get`, and `operator[]` of a constant array. -/
def get (a : BitArray SIZE) (idx : Nat) : Except String (Option Bool) := do
  validateIndex SIZE idx
  return a.getBitUnchecked idx

/-- `Set` of one bit. -/
def set (a : BitArray SIZE) (idx : Nat) (val : Bool) : Except String (Option (BitArray SIZE)) := do
  validateIndex SIZE idx
  return a.setBitUnchecked idx val

/-- `Flip` of one bit. -/
def flip (a : BitArray SIZE) (idx : Nat) : Except String (Option (BitArray SIZE)) := do
  validateIndex SIZE idx
  return a.modifyWord (getWordIndex idx) (· ^^^ createMask idx)

/-! ## Whole words -/

/-- `ClearExtraBits`. -/
def clearExtraBits (a : BitArray SIZE) : BitArray SIZE :=
  if h : 0 < NUM_WORDS SIZE then
    have hlast : NUM_WORDS SIZE - 1 < NUM_WORDS SIZE := Nat.sub_one_lt_of_lt h
    ⟨a.bits.set (NUM_WORDS SIZE - 1) (a.bits[NUM_WORDS SIZE - 1] &&& LAST_WORD_MASK SIZE)⟩
  else a

/-- `Set` of all bits; the words are overwritten. -/
def setAll (SIZE : Nat) (val : Bool) : BitArray SIZE :=
  clearExtraBits ⟨Vector.replicate _ (if val then ~~~0 else 0)⟩

/-- `Flip` of all bits. -/
def flipAll (a : BitArray SIZE) : BitArray SIZE := clearExtraBits ⟨a.bits.map (~~~·)⟩

/-- `operator|=`, `operator&=` and `operator^=`, with the operator on words. -/
def assignWith (op : Word → Word → Word) (a other : BitArray SIZE) : BitArray SIZE :=
  clearExtraBits ⟨Vector.zipWith op a.bits other.bits⟩

/-- `operator|=`. -/
def orAssign (a other : BitArray SIZE) : BitArray SIZE := a.assignWith (· ||| ·) other

/-- `operator&=`. -/
def andAssign (a other : BitArray SIZE) : BitArray SIZE := a.assignWith (· &&& ·) other

/-- `operator^=`. -/
def xorAssign (a other : BitArray SIZE) : BitArray SIZE := a.assignWith (· ^^^ ·) other

/-! ## Observations -/

/-- `Count`. -/
def count (a : BitArray SIZE) : Word :=
  a.bits.toList.foldl (fun total word => total + countBitsInWord word) 0

/-- `operator==`. -/
def equals (a other : BitArray SIZE) : Bool := a.bits == other.bits

/-- The loop of `ToString`, from `i` down. -/
def showFrom (a : BitArray SIZE) : Nat → List Char → Option (List Char)
  | 0, result => some result
  | i + 1, result =>
      (a.getBitUnchecked i).bind fun bit => a.showFrom i (result ++ [if bit then '1' else '0'])

/-- `ToString`. -/
def toString (a : BitArray SIZE) : Option (List Char) := a.showFrom SIZE []

end BitArray

/-! ## The arrays of a program -/

/-- A `BitProxy`: the array that it refers to, and its index. -/
structure BitProxy where
  arr : Nat
  idx : Nat
  deriving DecidableEq, Repr

/-- Arrays, and the proxies that `operator[]` returned for them. -/
structure ArrayState (α : Type) where
  arrays : List α
  proxies : List BitProxy

/-- The calls.  A binary operator takes another array, or the same. -/
inductive BitArrayAction where
  | construct
  | set (arr idx : Nat) (val : Bool)
  | setAll (arr : Nat) (val : Bool)
  | flip (arr idx : Nat)
  | flipAll (arr : Nat)
  | orAssign (arr other : Nat)
  | andAssign (arr other : Nat)
  | xorAssign (arr other : Nat)
  | index (arr idx : Nat)
  | assign (proxy : Nat) (val : Bool)
  | copy (proxy other : Nat)
  | flipProxy (proxy : Nat)
  deriving DecidableEq, Repr

namespace ArrayState

variable {α : Type} (s : ArrayState α)

/-- A call on an array that may throw, and then leaves everything as it is. -/
def call (arr : Nat) (f : α → Except String (Option α)) : Option (ArrayState α) :=
  (s.arrays[arr]?).bind fun a =>
    match f a with
    | .error _ => some s
    | .ok a => a.map fun a => { s with arrays := s.arrays.set arr a }

/-- A call on an array and another. -/
def callWith (arr other : Nat) (f : α → α → α) : Option (ArrayState α) := do
  let b ← s.arrays[other]?
  s.call arr fun a => .ok (some (f a b))

end ArrayState

variable {SIZE : Nat}

/-- A call. -/
def BitArray.step (s : ArrayState (BitArray SIZE)) :
    BitArrayAction → Option (ArrayState (BitArray SIZE))
  | .construct => some { s with arrays := s.arrays ++ [.construct SIZE] }
  | .set arr idx val => s.call arr (·.set idx val)
  | .setAll arr val => s.call arr fun _ => .ok (some (.setAll SIZE val))
  | .flip arr idx => s.call arr (·.flip idx)
  | .flipAll arr => s.call arr fun a => .ok (some a.flipAll)
  | .orAssign arr other => s.callWith arr other BitArray.orAssign
  | .andAssign arr other => s.callWith arr other BitArray.andAssign
  | .xorAssign arr other => s.callWith arr other BitArray.xorAssign
  | .index arr idx =>
      (s.arrays[arr]?).map fun _ =>
        match validateIndex SIZE idx with
        | .error _ => s
        | .ok _ => { s with proxies := s.proxies ++ [⟨arr, idx⟩] }
  | .assign proxy val =>
      (s.proxies[proxy]?).bind fun p => s.call p.arr fun a => .ok (a.setBitUnchecked p.idx val)
  | .copy proxy other => do
      let q ← s.proxies[other]?
      let b ← s.arrays[q.arr]?
      let otherVal ← b.getBitUnchecked q.idx
      let p ← s.proxies[proxy]?
      s.call p.arr fun a => .ok (a.setBitUnchecked p.idx otherVal)
  | .flipProxy proxy => (s.proxies[proxy]?).bind fun p => s.call p.arr (·.flip p.idx)

/-- The runs of a program on its arrays. -/
def bitArrayMachine (SIZE : Nat) : Machine (ArrayState (BitArray SIZE)) BitArrayAction where
  start s := s = ⟨[], []⟩
  step := BitArray.step

/-! ## Plain arrays -/

/-- A plain array of booleans. -/
abbrev PlainArray (SIZE : Nat) := Fin SIZE → Bool

namespace PlainArray

/-- The array with another value at the index, where it has the index. -/
def modify (p : PlainArray SIZE) (idx : Nat) (f : Bool → Bool) : PlainArray SIZE :=
  fun i => if i.val = idx then f (p i) else p i

/-- A change of a plain array does not throw. -/
def update (s : ArrayState (PlainArray SIZE)) (arr : Nat) (f : PlainArray SIZE → PlainArray SIZE) :
    Option (ArrayState (PlainArray SIZE)) :=
  s.call arr fun p => .ok (some (f p))

/-- What a call does to plain arrays. -/
def step (s : ArrayState (PlainArray SIZE)) :
    BitArrayAction → Option (ArrayState (PlainArray SIZE))
  | .construct => some { s with arrays := s.arrays ++ [fun _ => false] }
  | .set arr idx val => update s arr (·.modify idx fun _ => val)
  | .setAll arr val => update s arr fun _ _ => val
  | .flip arr idx => update s arr (·.modify idx not)
  | .flipAll arr => update s arr fun p i => !p i
  | .orAssign arr other => s.callWith arr other fun p q i => p i || q i
  | .andAssign arr other => s.callWith arr other fun p q i => p i && q i
  | .xorAssign arr other => s.callWith arr other fun p q i => p i ^^ q i
  | .index arr idx =>
      (s.arrays[arr]?).map fun _ =>
        if idx < SIZE then { s with proxies := s.proxies ++ [⟨arr, idx⟩] } else s
  | .assign proxy val =>
      (s.proxies[proxy]?).bind fun r => update s r.arr (·.modify r.idx fun _ => val)
  | .copy proxy other => do
      let r ← s.proxies[other]?
      let q ← s.arrays[r.arr]?
      if h : r.idx < SIZE then
        let r' ← s.proxies[proxy]?
        update s r'.arr (·.modify r'.idx fun _ => q ⟨r.idx, h⟩)
      else none
  | .flipProxy proxy => (s.proxies[proxy]?).bind fun r => update s r.arr (·.modify r.idx not)

end PlainArray

/-- The runs of a program on plain arrays. -/
def plainMachine (SIZE : Nat) : Machine (ArrayState (PlainArray SIZE)) BitArrayAction where
  start s := s = ⟨[], []⟩
  step := PlainArray.step

end Cpp
end InfinityLabs
