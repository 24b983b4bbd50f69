import Mathlib.Logic.Function.Basic
import InfinityLabs.Alloc.Words

/-!
# The variable-size allocator

`projects/vsa/src/vsa.c`.  Memory is its words by their addresses, each read as a `long`.
A header is the word of its block size and, in a build without `NDEBUG`, the word of its
magic number behind it; `NDEBUG` also takes out the assertions.

The end of the pool stands in the first word of the allocator.  No loop writes it, so each
reads it once.
-/

namespace InfinityLabs
namespace Alloc

/-- The words of memory by their addresses. -/
abbrev LongMemory := Nat → Int

/-- `VSA_MAGIC_NUMBER`. -/
def VSA_MAGIC_NUMBER : Int := 0xDEADBEEF

/-- `sizeof(vsa_t)`. -/
def SIZEOF_VSA : Nat := 8

/-- A `size_t` as a `long`. -/
def toLong (x : Nat) : Int := (x : Int).bmod (2 ^ 64)

/-- `FirstHdr`. -/
def firstHdr (vsa : Nat) : Nat := vsa + SIZEOF_VSA

/-- The end of the pool, `vsa->end_pool`. -/
def endPool (mem : LongMemory) (vsa : Nat) : Nat := (mem vsa).toNat

/-- `InBounds`, for the first header and the end of the pool. -/
def inBounds (first last p : Nat) : Bool := decide (first ≤ p) && decide (p < last)

section

variable (ndebug : Bool)

/-- `sizeof(header_t)`. -/
def sizeofHeader : Nat := if ndebug then 8 else 16

/-- A header has a length. -/
theorem sizeofHeader_pos : 0 < sizeofHeader ndebug := by
  cases ndebug <;> decide

/-- `MIN_SPLIT_BYTES`. -/
def MIN_SPLIT_BYTES : Nat := sizeofHeader ndebug + WORD_SIZE

/-- The magic number in the header `h`, where headers have one. -/
def setMagic (mem : LongMemory) (h : Nat) : LongMemory :=
  if ndebug then mem else Function.update mem (h + WORD_SIZE) VSA_MAGIC_NUMBER

/-- `NextHdr`. -/
def nextHdr (mem : LongMemory) (h : Nat) : Nat := h + sizeofHeader ndebug + (mem h).natAbs

/-- The next header is behind a header. -/
theorem lt_nextHdr (mem : LongMemory) (h : Nat) : h < nextHdr ndebug mem h := by
  have hpos := sizeofHeader_pos ndebug
  rw [nextHdr]
  omega

/-- A walk along the headers comes nearer to the end of the pool. -/
theorem sub_nextHdr_lt {first last h : Nat} (hin : inBounds first last h = true)
    (mem : LongMemory) : last - nextHdr ndebug mem h < last - h := by
  simp only [inBounds, Bool.and_eq_true, decide_eq_true_eq] at hin
  exact Nat.sub_lt_sub_left hin.2 (lt_nextHdr ndebug mem h)

/-- `VSAInit`, with the allocator that it returns. -/
def vsaInit (mem : LongMemory) (memoryPool totalSize : Nat) : Option (LongMemory × Nat) :=
  let vsa := alignUp memoryPool
  let alignmentOffset := (vsa + 2 ^ 64 - memoryPool) % 2 ^ 64
  if totalSize ≤ alignmentOffset then none
  else
    let alignedPoolSize := alignDown (totalSize - alignmentOffset)
    if alignedPoolSize < SIZEOF_VSA + sizeofHeader ndebug + WORD_SIZE then none
    else
      let firstBlock := vsa + SIZEOF_VSA
      let availableSpace := alignedPoolSize - SIZEOF_VSA
      let mem := Function.update mem vsa (vsa + alignedPoolSize : Nat)
      let mem := Function.update mem firstBlock (toLong (availableSpace - sizeofHeader ndebug))
      some (setMagic ndebug mem firstBlock, vsa)

/-- `CommitAlloc`, with the header that it returns. -/
def commitAlloc (mem : LongMemory) (block runTotalBytes requestSize : Nat) :
    LongMemory × Nat :=
  let fullPayload := runTotalBytes - sizeofHeader ndebug
  let remaining := toLong fullPayload - toLong requestSize
  let mem :=
    if remaining ≥ MIN_SPLIT_BYTES ndebug then
      -- the rest of the run becomes a free block
      let newFree := (block + sizeofHeader ndebug + requestSize) % 2 ^ 64
      let mem := Function.update mem newFree (remaining - sizeofHeader ndebug)
      Function.update (setMagic ndebug mem newFree) block (-toLong requestSize)
    -- no room for another block: the whole run is taken
    else Function.update mem block (-toLong fullPayload)
  (setMagic ndebug mem block, block)

/-- The loop of `FindFitAndCommit`, at the header `cur` with the run of free blocks before
it: the run that is committed, by its start and its bytes. -/
def findFit (mem : LongMemory) (first last requestSize : Nat) (cur runStart runTotalBytes : Nat) :
    Option (Nat × Nat) :=
  if _hin : inBounds first last cur then
    if mem cur > 0 then
      let partTotalBytes := sizeofHeader ndebug + (mem cur).toNat
      let runStart := if runTotalBytes = 0 then cur else runStart
      let runTotalBytes := runTotalBytes + partTotalBytes
      if runTotalBytes ≥ (requestSize + MIN_SPLIT_BYTES ndebug) % 2 ^ 64 then
        some (runStart, runTotalBytes)
      else findFit mem first last requestSize (nextHdr ndebug mem cur) runStart runTotalBytes
    -- a used block ends the run
    else findFit mem first last requestSize (nextHdr ndebug mem cur) 0 0
  else none
termination_by last - cur
decreasing_by all_goals exact sub_nextHdr_lt ndebug _hin mem

/-- `FindFitAndCommit`. -/
def findFitAndCommit (mem : LongMemory) (vsa requestSize : Nat) : Option (LongMemory × Nat) :=
  (findFit ndebug mem (firstHdr vsa) (endPool mem vsa) requestSize (firstHdr vsa) 0 0).map
    fun (runStart, runTotalBytes) => commitAlloc ndebug mem runStart runTotalBytes requestSize

/-- `VSAAlloc`. -/
def vsaAlloc (mem : LongMemory) (vsa blockSize : Nat) : LongMemory × Option Nat :=
  let blockSize := alignUp blockSize
  if blockSize = 0 then (mem, none)
  else
    match findFitAndCommit ndebug mem vsa blockSize with
    | none => (mem, none)
    | some (mem, blockAllocated) => (mem, some (blockAllocated + sizeofHeader ndebug))

/-- `VSAFree`; `none` is a failed assertion. -/
def vsaFree (mem : LongMemory) : Option Nat → Option LongMemory
  | none => some mem
  | some block =>
      let header := block - sizeofHeader ndebug
      -- the two assertions
      if ndebug = false ∧ ¬ (mem header < 0 ∧ mem (header + WORD_SIZE) = VSA_MAGIC_NUMBER) then
        none
      else some (setMagic ndebug (Function.update mem header (-mem header)) header)

/-- The inner loop of `Defrag`, which adds the free blocks from `next` on to `curr`. -/
def mergeLoop (first last curr : Nat) (mem : LongMemory) (next : Nat) : LongMemory :=
  if _hin : inBounds first last next ∧ mem next > 0 then
    let mem := Function.update mem curr (mem curr + (sizeofHeader ndebug + mem next))
    mergeLoop first last curr mem (nextHdr ndebug mem next)
  else mem
termination_by last - next
decreasing_by exact sub_nextHdr_lt ndebug _hin.1 _

/-- The loop of `Defrag`. -/
def defragLoop (first last : Nat) (mem : LongMemory) (curr : Nat) : LongMemory :=
  if _hin : inBounds first last curr then
    let mem :=
      if mem curr > 0 then mergeLoop ndebug first last curr mem (nextHdr ndebug mem curr)
      else mem
    defragLoop first last mem (nextHdr ndebug mem curr)
  else mem
termination_by last - curr
decreasing_by exact sub_nextHdr_lt ndebug _hin _

/-- `Defrag`. -/
def defrag (mem : LongMemory) (vsa : Nat) : LongMemory :=
  defragLoop ndebug (firstHdr vsa) (endPool mem vsa) mem (firstHdr vsa)

/-- The loop of `VSALargestChunkAvailable`. -/
def largestLoop (first last : Nat) (mem : LongMemory) (curr largest : Nat) : Nat :=
  if _hin : inBounds first last curr then
    let largest :=
      if mem curr > 0 ∧ (mem curr).toNat > largest then (mem curr).toNat else largest
    largestLoop first last mem (nextHdr ndebug mem curr) largest
  else largest
termination_by last - curr
decreasing_by exact sub_nextHdr_lt ndebug _hin mem

/-- `VSALargestChunkAvailable`, with the memory that it leaves. -/
def vsaLargestChunkAvailable (mem : LongMemory) (vsa : Nat) : LongMemory × Nat :=
  let mem := defrag ndebug mem vsa
  (mem, largestLoop ndebug (firstHdr vsa) (endPool mem vsa) mem (firstHdr vsa) 0)

end

end Alloc
end InfinityLabs
