import InfinityLabs.Lib.Ring
import InfinityLabs.Lib.Runs
import Mathlib.Algebra.Group.Nat.Defs
import Mathlib.Algebra.Group.Int.Defs

/-!
# The circular buffer

`ds/src/cbuff.c` on a machine with 64-bit words.  A buffer is allocated in one block with its
header, of which the buffer is the last part; a copy that would leave the block has no result.
The pointers that the calls take are not null, by their assertions.
-/

namespace InfinityLabs
namespace Ds

open Lib

/-- `DEFAULT_SIZE`. -/
def DEFAULT_SIZE : Nat := 8

/-- `sizeof(cbuff_t)`, with the padding behind its first byte of buffer. -/
def sizeofCBuff : Nat := 32

/-- The offset of `buffer` in a `cbuff_t`. -/
def offsetofBuffer : Nat := 24

/-- A `cbuff_t`; `buffer` is what its block has for it. -/
structure CBuff where
  front : Nat
  size : Nat
  capacity : Nat
  buffer : List UInt8
  deriving DecidableEq, Repr

/-- A `size_t` as a `ssize_t`. -/
def ssize (n : Nat) : Int := if n < 2 ^ 63 then n else n - 2 ^ 64

/-! ## The operations -/

/-- The capacity that `CBuffCreate` gives a buffer. -/
def cbuffCapacity (capacity : Nat) : Nat :=
  if DEFAULT_SIZE < capacity then capacity else DEFAULT_SIZE

/-- The bytes that `CBuffCreate` asks `malloc` for. -/
def cbuffBytes (capacity : Nat) : Nat :=
  (sizeofCBuff + (cbuffCapacity capacity - DEFAULT_SIZE)) % 2 ^ 64

/-- `CBuffCreate`, with the block that `malloc` returns; it writes the header. -/
def cbuffCreate (block : Option (List UInt8)) (capacity : Nat) : Option (Option CBuff) :=
  match block with
  | none => some none
  | some bytes =>
      if bytes.length < offsetofBuffer then none
      else
        some (some
          { front := 0
            size := 0
            capacity := cbuffCapacity capacity
            buffer := bytes.drop offsetofBuffer })

/-- `memcpy` into the buffer. -/
def copyIn (buffer : List UInt8) (index : Nat) (bytes : List UInt8) : Option (List UInt8) :=
  if index + bytes.length ≤ buffer.length then some (overwrite buffer index bytes) else none

/-- What `memcpy` copies from an array. -/
def copyOut (array : List UInt8) (index count : Nat) : Option (List UInt8) :=
  if index + count ≤ array.length then some ((array.drop index).take count) else none

/-- `CBuffFreeSpace`. -/
def cbuffFreeSpace (cbuff : CBuff) : Nat := (cbuff.capacity + (2 ^ 64 - cbuff.size)) % 2 ^ 64

/-- `CBuffSize`. -/
def cbuffSize (cbuff : CBuff) : Nat := cbuff.size

/-- `CBuffWrite`. -/
def cbuffWrite (cbuff : CBuff) (src : List UInt8) (bytes : Nat) : Option (CBuff × Int) :=
  let bytesToWrite := min bytes (cbuffFreeSpace cbuff)
  if bytesToWrite = 0 then some (cbuff, 0)
  else do
    let writeIndex := (cbuff.front + cbuff.size) % 2 ^ 64 % cbuff.capacity
    let firstChunk := min bytesToWrite (cbuff.capacity - writeIndex)
    let chunk ← copyOut src 0 firstChunk
    let buffer ← copyIn cbuff.buffer writeIndex chunk
    let secondChunk := bytesToWrite - firstChunk
    let buffer ←
      (if 0 < secondChunk then (copyOut src firstChunk secondChunk).bind (copyIn buffer 0)
      else some buffer)
    some ({ cbuff with buffer, size := (cbuff.size + bytesToWrite) % 2 ^ 64 }, ssize bytesToWrite)

/-- `CBuffRead`, with what it copies to the destination. -/
def cbuffRead (cbuff : CBuff) (bytes : Nat) : Option (CBuff × Int × List UInt8) :=
  let available := cbuff.size
  if available = 0 then some (cbuff, 0, [])
  else
    let bytes := if available < bytes then available else bytes
    if bytes = 0 then some (cbuff, 0, [])
    else do
      let chunk := min bytes (cbuff.capacity - cbuff.front)
      let first ← copyOut cbuff.buffer cbuff.front chunk
      let second ← (if bytes ≠ chunk then copyOut cbuff.buffer 0 (bytes - chunk) else some [])
      some
        ({ cbuff with
            front := (cbuff.front + bytes) % 2 ^ 64 % cbuff.capacity
            size := cbuff.size - bytes },
          ssize bytes, first ++ second)

/-! ## The buffer as a ring -/

/-- A buffer whose indices are in it; no sum of two of them wraps. -/
structure CBuff.Valid (cbuff : CBuff) : Prop where
  front_lt : cbuff.front < cbuff.capacity
  size_le : cbuff.size ≤ cbuff.capacity
  capacity_eq : cbuff.buffer.length = cbuff.capacity
  capacity_lt : cbuff.capacity < 2 ^ 63

/-- The bytes that are stored, from the first on. -/
def CBuff.content (cbuff : CBuff) : List UInt8 := (cbuff.buffer.rotate cbuff.front).take cbuff.size

namespace CBuff.Valid

variable {cbuff : CBuff}

theorem length_content (h : cbuff.Valid) : cbuff.content.length = cbuff.size := by
  rw [content, List.length_take, List.length_rotate, h.capacity_eq, Nat.min_eq_left h.size_le]

theorem freeSpace (h : cbuff.Valid) : cbuffFreeSpace cbuff = cbuff.capacity - cbuff.size := by
  have hsize := h.size_le
  have hlt := h.capacity_lt
  rw [cbuffFreeSpace]
  omega

/-- The two copies of a read are a part of the ring. -/
theorem copyOut_ring (h : cbuff.Valid) {count : Nat} (hcount : count ≤ cbuff.capacity) :
    ∃ first second,
      copyOut cbuff.buffer cbuff.front (min count (cbuff.capacity - cbuff.front)) = some first ∧
      (if count ≠ min count (cbuff.capacity - cbuff.front) then
          copyOut cbuff.buffer 0 (count - min count (cbuff.capacity - cbuff.front))
        else some []) = some second ∧
      first ++ second = (cbuff.buffer.rotate cbuff.front).take count := by
  have hfront := h.front_lt
  have hlength := h.capacity_eq
  by_cases hfit : count ≤ cbuff.capacity - cbuff.front
  · -- the second copy has nothing to do
    rw [Nat.min_eq_left hfit]
    refine ⟨_, [], if_pos (by omega), if_neg (not_not.mpr rfl), ?_⟩
    rw [List.append_nil, take_rotate_of_le (by omega) (by omega)]
  · rw [Nat.min_eq_right (by omega)]
    refine ⟨_, _, if_pos (by omega), (if_pos (by omega)).trans (if_pos (by omega)), ?_⟩
    rw [take_rotate_of_ge (by omega) (by omega) (by omega), hlength, List.drop_zero,
      List.take_of_length_le (by rw [List.length_drop]; omega)]

/-- `CBuffRead` takes the first bytes. -/
theorem read (h : cbuff.Valid) (bytes : Nat) :
    ∃ cbuff' : CBuff, cbuffRead cbuff bytes =
        some (cbuff', ((min bytes cbuff.size : Nat) : Int), cbuff.content.take bytes) ∧
      cbuff'.Valid ∧ cbuff'.capacity = cbuff.capacity ∧
      cbuff'.content = cbuff.content.drop bytes := by
  have hfront := h.front_lt
  have hsize := h.size_le
  have hlt := h.capacity_lt
  have hlength := h.length_content
  have htake : cbuff.content.take bytes =
      (cbuff.buffer.rotate cbuff.front).take (min bytes cbuff.size) := List.take_take ..
  have hdrop : cbuff.content.drop bytes = cbuff.content.drop (min bytes cbuff.size) := by
    rcases Nat.le_total bytes cbuff.size with hle | hle
    · rw [Nat.min_eq_left hle]
    · rw [Nat.min_eq_right hle, List.drop_of_length_le (by omega),
        List.drop_of_length_le (by omega)]
  have hmin : (if cbuff.size < bytes then cbuff.size else bytes) = min bytes cbuff.size := by
    split
    · omega
    · omega
  have hle : min bytes cbuff.size ≤ cbuff.size := Nat.min_le_right ..
  rw [htake, hdrop]
  simp only [cbuffRead, hmin]
  generalize min bytes cbuff.size = count at hle
  by_cases hcount : count = 0
  · subst hcount
    refine ⟨cbuff, ?_, h, rfl, rfl⟩
    rw [if_pos rfl, ite_self, List.take_zero]
    rfl
  · obtain ⟨first, second, hfirst, hsecond, happend⟩ := h.copyOut_ring (by omega : count ≤ _)
    have hmod : (cbuff.front + count) % 2 ^ 64 = cbuff.front + count :=
      Nat.mod_eq_of_lt (by omega)
    refine ⟨{ cbuff with
        front := (cbuff.front + count) % cbuff.capacity
        size := cbuff.size - count },
      ?_, ⟨Nat.mod_lt _ (by omega), ?_, h.capacity_eq, hlt⟩, rfl, ?_⟩
    · rw [if_neg (by omega), if_neg hcount, hfirst, Option.bind_eq_bind, Option.bind_some, hsecond,
        Option.bind_some, happend, hmod, ssize, if_pos (by omega)]
    · exact Nat.le_trans (Nat.sub_le _ _) hsize
    · have hshift : (cbuff.buffer.rotate ((cbuff.front + count) % cbuff.buffer.length)).take
          (cbuff.size - count) = cbuff.content.drop count :=
        drop_take_rotate hle (h.capacity_eq ▸ hsize)
      rwa [h.capacity_eq] at hshift

/-- The two copies of a write go around the end of the ring. -/
theorem copyIn_ring (h : cbuff.Valid) {src : List UInt8} {index count : Nat}
    (hindex : index < cbuff.capacity) (hcount : count ≤ cbuff.capacity)
    (hsrc : count ≤ src.length) :
    ∃ chunk buffer, copyOut src 0 (min count (cbuff.capacity - index)) = some chunk ∧
      copyIn cbuff.buffer index chunk = some buffer ∧
      (if 0 < count - min count (cbuff.capacity - index) then
          (copyOut src (min count (cbuff.capacity - index))
            (count - min count (cbuff.capacity - index))).bind (copyIn buffer 0)
        else some buffer) = some (overwriteRing cbuff.buffer index (src.take count)) := by
  have hlength := h.capacity_eq
  have htake : ∀ n, n ≤ count → (src.take count).take n = src.take n := fun n hn => by
    rw [List.take_take, Nat.min_eq_left hn]
  have hfirst : index + (src.take (min count (cbuff.capacity - index))).length ≤
      cbuff.buffer.length := by
    rw [List.length_take]
    omega
  refine ⟨src.take (min count (cbuff.capacity - index)), _, ?_, if_pos hfirst, ?_⟩
  · rw [copyOut, if_pos (by omega), List.drop_zero]
  · by_cases hfit : count ≤ cbuff.capacity - index
    · rw [Nat.min_eq_left hfit, if_neg (by omega),
        overwriteRing_of_le (by rw [List.length_take, hlength]; omega)]
    · rw [Nat.min_eq_right (by omega), if_pos (by omega), copyOut, if_pos (by omega),
        Option.bind_some, copyIn, if_pos ?_, overwriteRing, hlength,
        htake _ (by omega), List.drop_take]
      rw [overwrite_length (by rw [List.length_take]; omega), List.length_take, List.length_drop]
      omega

/-- `CBuffWrite` appends the bytes that fit. -/
theorem write (h : cbuff.Valid) {src : List UInt8} {bytes : Nat}
    (hsrc : min bytes (cbuff.capacity - cbuff.size) ≤ src.length) :
    ∃ cbuff' : CBuff, cbuffWrite cbuff src bytes =
        some (cbuff', ((min bytes (cbuff.capacity - cbuff.size) : Nat) : Int)) ∧
      cbuff'.Valid ∧ cbuff'.capacity = cbuff.capacity ∧
      cbuff'.content = cbuff.content ++ src.take (min bytes (cbuff.capacity - cbuff.size)) := by
  have hfront := h.front_lt
  have hsize := h.size_le
  have hlt := h.capacity_lt
  have hlength := h.capacity_eq
  have hroom : min bytes (cbuff.capacity - cbuff.size) ≤ cbuff.capacity - cbuff.size :=
    Nat.min_le_right ..
  simp only [cbuffWrite, h.freeSpace]
  generalize min bytes (cbuff.capacity - cbuff.size) = count at hroom hsrc
  by_cases hcount : count = 0
  · subst hcount
    refine ⟨cbuff, if_pos rfl, h, rfl, ?_⟩
    rw [List.take_zero, List.append_nil]
  · have hindex : (cbuff.front + cbuff.size) % 2 ^ 64 % cbuff.capacity =
        (cbuff.front + cbuff.size) % cbuff.capacity := by
      rw [Nat.mod_eq_of_lt (by omega : cbuff.front + cbuff.size < 2 ^ 64)]
    have hmod : (cbuff.size + count) % 2 ^ 64 = cbuff.size + count := Nat.mod_eq_of_lt (by omega)
    have htaken : (src.take count).length = count := List.length_take_of_le hsrc
    obtain ⟨chunk, buffer, hchunk, hbuffer, hring⟩ :=
      h.copyIn_ring (Nat.mod_lt (cbuff.front + cbuff.size) (by omega)) (by omega : count ≤ _) hsrc
    refine ⟨{ cbuff with
        size := cbuff.size + count
        buffer := overwriteRing cbuff.buffer ((cbuff.front + cbuff.size) % cbuff.capacity)
          (src.take count) }, ?_, ⟨hfront, ?_, ?_, hlt⟩, rfl, ?_⟩
    · rw [if_neg hcount, hindex, hchunk, Option.bind_eq_bind, Option.bind_some, hbuffer,
        Option.bind_some, hring, Option.bind_some, hmod, ssize, if_pos (by omega)]
    · show cbuff.size + count ≤ cbuff.capacity
      omega
    · exact (overwriteRing_length (hlength ▸ Nat.le_of_lt (Nat.mod_lt _ (by omega)))
        (by rw [htaken]; omega)).trans hlength
    · have hstored : ((overwriteRing cbuff.buffer ((cbuff.front + cbuff.size) %
          cbuff.buffer.length) (src.take count)).rotate cbuff.front).take
            (cbuff.size + (src.take count).length) = cbuff.content ++ src.take count :=
        take_rotate_overwriteRing (by omega) (by rw [htaken]; omega)
      rwa [htaken, hlength] at hstored

end CBuff.Valid

/-! ## The runs -/

/-- What `malloc` may return to `CBuffCreate`: nothing, or a block of the size that was asked
for.  No block is larger than `PTRDIFF_MAX`. -/
def IsBlock (capacity : Nat) (block : Option (List UInt8)) : Prop :=
  ∀ bytes ∈ block, bytes.length = cbuffBytes capacity ∧ bytes.length < 2 ^ 63

/-- A buffer, with the bytes that it accepted and those that were read. -/
structure CBuffState where
  cbuff : CBuff
  accepted : List UInt8
  read : List UInt8

/-- The calls; `src` holds at least the bytes that `CBuffWrite` takes. -/
inductive CBuffAction where
  | write (src : List UInt8) (bytes : Nat)
  | read (bytes : Nat)
  deriving DecidableEq, Repr

/-- A call. -/
def CBuffState.step (s : CBuffState) : CBuffAction → Option CBuffState
  | .write src bytes =>
      if min bytes (cbuffFreeSpace s.cbuff) ≤ src.length then
        (cbuffWrite s.cbuff src bytes).map fun (cbuff, count) =>
          { s with cbuff, accepted := s.accepted ++ src.take count.toNat }
      else none
  | .read bytes =>
      (cbuffRead s.cbuff bytes).map fun (cbuff, _, dst) =>
        { s with cbuff, read := s.read ++ dst }

/-- The runs of a buffer from `CBuffCreate` on. -/
def cbuffMachine (capacity : Nat) : Machine CBuffState CBuffAction where
  start s := ∃ block, IsBlock capacity block ∧
    cbuffCreate block capacity = some (some s.cbuff) ∧ s.accepted = [] ∧ s.read = []
  step := CBuffState.step

/-- The bytes that were read are a prefix of those that were accepted, the size is the number of
the others, and each call moves and returns as many bytes as were asked for and fit or are
there. -/
structure CBuffState.IsFifo (capacity : Nat) (s : CBuffState) : Prop where
  order : s.read <+: s.accepted
  size_eq : cbuffSize s.cbuff + s.read.length = s.accepted.length
  size_le : cbuffSize s.cbuff ≤ cbuffCapacity capacity
  write : ∀ src bytes, min bytes (cbuffCapacity capacity - cbuffSize s.cbuff) ≤ src.length →
    ∃ cbuff', cbuffWrite s.cbuff src bytes =
      some (cbuff', ((min bytes (cbuffCapacity capacity - cbuffSize s.cbuff) : Nat) : Int))
  read : ∀ bytes, ∃ cbuff' dst, cbuffRead s.cbuff bytes =
      some (cbuff', ((min bytes (cbuffSize s.cbuff) : Nat) : Int), dst) ∧
    dst.length = min bytes (cbuffSize s.cbuff)

/-- `CBuffCreate` stays in its block, and the buffer is a bounded FIFO in every run. -/
def CBuffWorks (capacity : Nat) : Prop :=
  (∀ block, IsBlock capacity block → (cbuffCreate block capacity).isSome) ∧
    ∀ s, (cbuffMachine capacity).Reached s → s.IsFifo capacity

/-- The indices are in the buffer, and it holds what was accepted and not read. -/
structure CBuffState.Invariant (capacity : Nat) (s : CBuffState) : Prop where
  valid : s.cbuff.Valid
  capacity_eq : s.cbuff.capacity = cbuffCapacity capacity
  order : s.read ++ s.cbuff.content = s.accepted

theorem CBuffState.Invariant.isFifo {capacity : Nat} {s : CBuffState}
    (h : s.Invariant capacity) : s.IsFifo capacity := by
  have hlength := h.valid.length_content
  refine ⟨⟨s.cbuff.content, h.order⟩, ?_, ?_, ?_, ?_⟩
  · rw [← h.order, List.length_append, hlength, cbuffSize, Nat.add_comm]
  · rw [cbuffSize, ← h.capacity_eq]
    exact h.valid.size_le
  · intro src bytes hsrc
    rw [← h.capacity_eq] at hsrc ⊢
    obtain ⟨cbuff', hwrite, -⟩ := h.valid.write hsrc
    exact ⟨cbuff', hwrite⟩
  · intro bytes
    obtain ⟨cbuff', hread, -⟩ := h.valid.read bytes
    refine ⟨cbuff', _, hread, ?_⟩
    rw [List.length_take, hlength, cbuffSize]

/-- A buffer whose size does not wrap around has its capacity behind the header. -/
theorem cbuffBytes_eq {capacity : Nat} (hcapacity : capacity < 2 ^ 64 - 24) :
    cbuffBytes capacity = offsetofBuffer + cbuffCapacity capacity ∧
      DEFAULT_SIZE ≤ cbuffCapacity capacity := by
  rw [cbuffBytes, cbuffCapacity, sizeofCBuff, DEFAULT_SIZE, offsetofBuffer]
  by_cases h : 8 < capacity
  · rw [if_pos h]
    omega
  · rw [if_neg h]
    omega

theorem cbuffMachine_start {capacity : Nat} (hcapacity : capacity < 2 ^ 64 - 24)
    {s : CBuffState} (h : (cbuffMachine capacity).start s) : s.Invariant capacity := by
  obtain ⟨block, hblock, hcreate, haccepted, hread⟩ := h
  obtain ⟨hbytes, hdefault⟩ := cbuffBytes_eq hcapacity
  cases block with
  | none => cases hcreate
  | some bytes =>
      obtain ⟨hlength, hlt⟩ := hblock bytes rfl
      rw [hbytes] at hlength
      have hheader : ¬ bytes.length < offsetofBuffer := by omega
      rw [cbuffCreate, if_neg hheader, Option.some.injEq, Option.some.injEq] at hcreate
      have hbuffer : (bytes.drop offsetofBuffer).length = cbuffCapacity capacity := by
        rw [List.length_drop, hlength, Nat.add_sub_cancel_left]
      have hpos : 0 < cbuffCapacity capacity := Nat.lt_of_lt_of_le (by decide) hdefault
      have hlt' : cbuffCapacity capacity < 2 ^ 63 := by omega
      have hvalid : s.cbuff.Valid := by
        rw [← hcreate]
        exact ⟨hpos, Nat.zero_le _, hbuffer, hlt'⟩
      refine ⟨hvalid, by rw [← hcreate], ?_⟩
      rw [haccepted, hread, ← hcreate, CBuff.content, List.take_zero, List.append_nil]

/-- A call keeps the indices in the buffer and the bytes in order. -/
theorem CBuffState.Invariant.step {capacity : Nat} {s s' : CBuffState} {a : CBuffAction}
    (h : s.Invariant capacity) (hstep : s.step a = some s') : s'.Invariant capacity := by
  cases a with
  | write src bytes =>
      obtain ⟨hsrc, hcall⟩ := Option.ite_none_right_eq_some.mp hstep
      rw [h.valid.freeSpace] at hsrc
      obtain ⟨cbuff', hwrite, hvalid, hcapacity, hcontent⟩ := h.valid.write hsrc
      rw [hwrite, Option.map_some, Option.some.injEq] at hcall
      subst hcall
      refine ⟨hvalid, hcapacity.trans h.capacity_eq, ?_⟩
      show s.read ++ cbuff'.content = s.accepted ++ src.take (Int.toNat _)
      rw [hcontent, ← List.append_assoc, h.order, Int.toNat_natCast]
  | read bytes =>
      obtain ⟨cbuff', hread, hvalid, hcapacity, hcontent⟩ := h.valid.read bytes
      rw [CBuffState.step, hread, Option.map_some, Option.some.injEq] at hstep
      subst hstep
      refine ⟨hvalid, hcapacity.trans h.capacity_eq, ?_⟩
      rw [hcontent, List.append_assoc, List.take_append_drop, h.order]

/-- The block of a size that wraps around is smaller than the header. -/
theorem cbuffBytes_lt {capacity : Nat} (hcapacity : capacity < 2 ^ 64)
    (hwraps : 2 ^ 64 - 24 ≤ capacity) : cbuffBytes capacity < offsetofBuffer := by
  rw [cbuffBytes, cbuffCapacity, sizeofCBuff, DEFAULT_SIZE, offsetofBuffer, if_pos (by omega)]
  omega

/-- Whatever the capacity, the buffer is a bounded FIFO in every run if and only if the size of
its block does not wrap around. -/
theorem cbuffWorks_iff {capacity : Nat} (hcapacity : capacity < 2 ^ 64) :
    CBuffWorks capacity ↔ capacity < 2 ^ 64 - 24 := by
  constructor
  · intro h
    by_contra hwraps
    have hlt := cbuffBytes_lt hcapacity (Nat.not_lt.mp hwraps)
    obtain ⟨bytes, hlength⟩ : ∃ bytes : List UInt8, bytes.length = cbuffBytes capacity :=
      ⟨List.replicate (cbuffBytes capacity) 0, List.length_replicate⟩
    rw [← hlength] at hlt
    have hblock : IsBlock capacity (some bytes) := by
      intro bytes' hbytes'
      obtain rfl := Option.some.inj hbytes'
      refine ⟨hlength, ?_⟩
      rw [offsetofBuffer] at hlt
      omega
    have hsome := h.1 (some bytes) hblock
    rw [cbuffCreate, if_pos hlt] at hsome
    cases hsome
  · intro hlt
    refine ⟨fun block hblock => ?_, fun s hs => ?_⟩
    · cases block with
      | none => rfl
      | some bytes =>
          have hheader : ¬ bytes.length < offsetofBuffer := by
            rw [(hblock bytes rfl).1, (cbuffBytes_eq hlt).1]
            omega
          rw [cbuffCreate, if_neg hheader]
          rfl
    · refine CBuffState.Invariant.isFifo (Machine.ReachedBy.invariant
        (I := fun s => s.Invariant capacity) (fun s hstart => cbuffMachine_start hlt hstart) ?_ hs)
      exact fun s a s' hinvariant _ hstep => hinvariant.step hstep

/-- A capacity below the default. -/
theorem cbuffWorks_five : CBuffWorks 5 :=
  (cbuffWorks_iff (by decide)).mpr (by decide)

/-- A buffer of the largest capacity gets a block of 23 bytes, which has no room for its
header. -/
theorem cbuffWorks_fails : IsBlock (2 ^ 64 - 1) (some (List.replicate 23 0)) ∧
    cbuffCreate (some (List.replicate 23 0)) (2 ^ 64 - 1) = none ∧ ¬ CBuffWorks (2 ^ 64 - 1) := by
  have hblock : IsBlock (2 ^ 64 - 1) (some (List.replicate 23 0)) := by
    intro bytes hbytes
    obtain rfl := Option.some.inj hbytes
    exact ⟨by decide, by decide⟩
  refine ⟨hblock, rfl, fun h => ?_⟩
  have hsome := h.1 _ hblock
  cases hsome

/-- Writes and reads go around the end of a buffer. -/
example : ((cbuffMachine 8).run
      ⟨⟨0, 0, 8, List.replicate 8 0⟩, [], []⟩
      [.write [1, 2, 3, 4, 5, 6] 6, .read 4, .write [7, 8, 9, 10, 11, 12, 13] 7, .read 20]).map
        (fun s => (s.cbuff.front, s.accepted, s.read)) =
    some (4, [1, 2, 3, 4, 5, 6, 7, 8, 9, 10, 11, 12], [1, 2, 3, 4, 5, 6, 7, 8, 9, 10, 11, 12]) := by
  decide

end Ds
end InfinityLabs
