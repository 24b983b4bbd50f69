import InfinityLabs.Lib.Ring
import InfinityLabs.Sys.Ext2

/-!
# Reading a file

`Read` of `system_programming/src/ext2.c`.  It copies the direct blocks up to the first pointer
that is zero, and no more bytes than the low word of the size tells.

What a file of the image holds is told by all its pointers: those behind the first twelve lead to
blocks of pointers, and where a pointer is zero the file has a hole, which reads as zeros.
-/

namespace InfinityLabs
namespace Sys

open Lib

/-! ## The code -/

/-- A `size_t` as an `int`. -/
def asInt (x : Nat) : Int :=
  Int.bmod x (2 ^ 32)

/-- An `int` as a `size_t`. -/
def asSize (i : Int) : Nat :=
  (i % 2 ^ 64).toNat

/-- A write to a buffer. -/
def writeBytes (buffer : List UInt8) (offset : Nat) (bytes : List UInt8) :
    Except Trap (List UInt8) :=
  if offset + bytes.length ≤ buffer.length then
    .ok (overwrite buffer offset bytes)
  else .error .outOfBounds

/-- What `Read` leaves: its value, the buffer of the caller and the static data. -/
structure ReadResult where
  returned : Int
  buffer : Option (List UInt8)
  fs : Ext2

namespace Ext2

variable (fs : Ext2)

/-- The loop of `Read` on what is left of the block pointers; a block that cannot be read
is `none`. -/
def readBlocks (count : Nat) :
    List Nat → Nat → List UInt8 → Except Trap (Option Nat × List UInt8)
  | [], total_read, buffer => .ok (some total_read, buffer)
  | block_num :: rest, total_read, buffer =>
      if total_read < count ∧ block_num ≠ 0 then
        match fs.readBlock block_num with
        | none => .ok (none, buffer)
        | some block_buf => do
            let bytes_to_copy :=
              if total_read + fs.g_block_size > count then count - total_read else fs.g_block_size
            let bytes ← readBytes block_buf 0 bytes_to_copy
            let buffer ← writeBytes buffer total_read bytes
            readBlocks count rest (total_read + bytes_to_copy) buffer
      else .ok (some total_read, buffer)

/-- The descriptor is closed. -/
def close : Ext2 :=
  { fs with g_device_fd := none }

/-- `Read` with the outcome of its `malloc`.  `file_inode` is an `int`, cast to a `size_t`; a
null buffer is `none`. -/
def read (allocated : Bool) (file_inode : Int) (buffer : Option (List UInt8)) (count : Nat) :
    Except Trap ReadResult :=
  if fs.g_device_fd.isNone then .ok ⟨-1, buffer, fs⟩
  else
    match buffer with
    | none => .ok ⟨-1, none, fs.close⟩
    | some buffer => do
        match ← fs.getInode (asSize file_inode) with
        | none => pure ⟨-1, some buffer, fs.close⟩
        | some inode =>
            if inode.isReg = false then pure ⟨-1, some buffer, fs.close⟩
            else if allocated = false then pure ⟨-1, some buffer, fs.close⟩
            else
              let (total_read, buffer) ← fs.readBlocks (min count inode.i_size)
                (inode.i_block.take EXT2_NDIR_BLOCKS) 0 buffer
              match total_read with
              | none => pure ⟨-1, some buffer, fs.close⟩
              | some total_read => pure ⟨asInt total_read, some buffer, fs.close⟩

end Ext2

/-! ## The files of an image -/

/-- At most `m` bytes of the blocks up to the first pointer that is zero. -/
def span (size : Nat) (blocks : List Nat) (m : Nat) : Nat :=
  min m (size * (blocks.takeWhile (· ≠ 0)).length)

/-- A byte of blocks that follow each other. -/
def runByte (device : Device) (size : Nat) (blocks : List Nat) (i : Nat) : UInt8 :=
  device.byte (blocks.getD (i / size) 0 * size + i % size)

section

variable (device : Device) (sb : SuperBlock) (inode : Inode)

/-- The size of a regular file. -/
def fileSize : Nat :=
  inode.i_size + 2 ^ 32 * inode.i_size_high

/-- An entry of a block of pointers; behind a zero there are only zeros. -/
def pointerAt (block_num i : Nat) : Nat :=
  if block_num = 0 then 0 else device.field (block_num * blockSize sb + 4 * i) 4

/-- The block that holds a logical block of a file, and 0 for a hole: twelve direct pointers,
then those behind one, two and three blocks of pointers. -/
def blockOf (k : Nat) : Nat :=
  let perBlock := blockSize sb / 4
  let single := k - EXT2_NDIR_BLOCKS
  let double := single - perBlock
  let triple := double - perBlock ^ 2
  if k < EXT2_NDIR_BLOCKS then inode.i_block.getD k 0
  else if single < perBlock then pointerAt device sb (inode.i_block.getD 12 0) single
  else if double < perBlock ^ 2 then
    pointerAt device sb (pointerAt device sb (inode.i_block.getD 13 0) (double / perBlock))
      (double % perBlock)
  else
    pointerAt device sb
      (pointerAt device sb
        (pointerAt device sb (inode.i_block.getD 14 0) (triple / perBlock ^ 2))
        (triple / perBlock % perBlock))
      (triple % perBlock)

/-- A byte of a file. -/
def fileByte (i : Nat) : UInt8 :=
  let block_num := blockOf device sb inode (i / blockSize sb)
  if block_num = 0 then 0 else device.byte (block_num * blockSize sb + i % blockSize sb)

/-- The first bytes of a file. -/
def fileBytes (n : Nat) : List UInt8 :=
  (List.range n).map (fileByte device sb inode)

/-- How far the direct blocks go up to the first zero, within the count and the low word of the
size. -/
def reach (count : Nat) : Nat :=
  span (blockSize sb) (inode.i_block.take EXT2_NDIR_BLOCKS) (min count inode.i_size)

/-- The blocks with the first `n` bytes are on the device. -/
def OnDevice (size : Nat) (blocks : List Nat) (n : Nat) : Prop :=
  ∀ j, j * size < n → (blocks.getD j 0 + 1) * size ≤ device.size

variable (fs : Ext2) (allocated : Bool) (n : Nat) (buffer : List UInt8) (count : Nat)

/-- The number of an inode as `Open` returns it and `GetInode` takes it: an `int`, then a
`size_t`. -/
def givenNumber : Nat :=
  asSize (asInt n)

/-- `Read` returns the lesser of the count and the size of file `n`, with that many bytes of the
file at the beginning of the buffer. -/
def ReadsFile : Prop :=
  let file := inodeOf device sb n
  let total := min count (fileSize file)
  ∃ fs', fs.read allocated (asInt n) (some buffer) count =
    .ok ⟨total, some (fileBytes device sb file total ++ buffer.drop total), fs'⟩

end

section

variable (device : Device) (sb : SuperBlock) (inode file : Inode) (count : Nat)

/-- The low word of the size and the direct pointers tell all that `Read` is asked for. -/
def Direct : Prop :=
  min count (fileSize file) ≤ file.i_size ∧
    ∀ j, j * blockSize sb < min count (fileSize file) →
      j < EXT2_NDIR_BLOCKS ∧ file.i_block.getD j 0 ≠ 0

/-- A record shows as many bytes as `Read` is asked for, and the same as the file has. -/
def SameStart : Prop :=
  reach sb inode count = min count (fileSize file) ∧
    OnDevice device (blockSize sb) (inode.i_block.take EXT2_NDIR_BLOCKS) (reach sb inode count) ∧
      ∀ i < min count (fileSize file), fileByte device sb inode i = fileByte device sb file i

end

/-! ## The loop -/

namespace Ext2

variable {fs : Ext2}

/-- The bytes that the loop copies from the blocks, at most `m`. -/
def leadingBytes (fs : Ext2) : List Nat → Nat → Option (List UInt8)
  | [], _ => some []
  | block_num :: rest, m =>
      if 0 < m ∧ block_num ≠ 0 then
        (fs.readBlock block_num).bind fun block_buf =>
          (leadingBytes fs rest (m - fs.g_block_size)).map (block_buf.take m ++ ·)
      else some []

theorem leadingBytes_stop {block_num m : Nat} (h : ¬(0 < m ∧ block_num ≠ 0)) (rest : List Nat) :
    fs.leadingBytes (block_num :: rest) m = some [] := by
  rw [leadingBytes, if_neg h]

theorem leadingBytes_read {block_num m : Nat} (h : 0 < m ∧ block_num ≠ 0)
    {block_buf : List UInt8} (hread : fs.readBlock block_num = some block_buf)
    (rest : List Nat) :
    fs.leadingBytes (block_num :: rest) m =
      (fs.leadingBytes rest (m - fs.g_block_size)).map (block_buf.take m ++ ·) := by
  rw [leadingBytes, if_pos h, hread]
  rfl

/-- One turn of the loop: the part of the block that still fits goes behind what is there. -/
theorem readBlocks_read {block_num total m : Nat} (h : 0 < m ∧ block_num ≠ 0)
    {block_buf : List UInt8} (hread : fs.readBlock block_num = some block_buf)
    (rest : List Nat) {buffer : List UInt8} (hroom : total + m ≤ buffer.length) :
    fs.readBlocks (total + m) (block_num :: rest) total buffer =
      fs.readBlocks (total + m) rest (total + (block_buf.take m).length)
        (overwrite buffer total (block_buf.take m)) := by
  have hlength := length_readBlock hread
  have hcopy : (if total + fs.g_block_size > total + m then total + m - total
      else fs.g_block_size) = min m fs.g_block_size := by
    split <;> omega
  have hbytes : readBytes block_buf 0 (min m fs.g_block_size) = .ok (block_buf.take m) := by
    rw [readBytes_of_le (by omega), List.drop_zero, ← hlength, ← List.take_eq_take_min]
  have hpart : (block_buf.take m).length = min m fs.g_block_size := by
    rw [List.length_take, hlength]
  rw [readBlocks, if_pos ⟨by omega, h.2⟩, hread]
  simp only [hcopy, hbytes, bind, Except.bind, writeBytes, hpart]
  rw [if_pos (by omega)]

theorem readBlocks_stop {block_num total m : Nat} (h : ¬(0 < m ∧ block_num ≠ 0))
    (rest : List Nat) (buffer : List UInt8) :
    fs.readBlocks (total + m) (block_num :: rest) total buffer = .ok (some total, buffer) := by
  rw [readBlocks, if_neg (by omega)]

/-- The count is what was copied and what is still to copy. -/
theorem count_eq {block_num : Nat} {block_buf : List UInt8}
    (hread : fs.readBlock block_num = some block_buf) (total m : Nat) :
    total + m = total + (block_buf.take m).length + (m - fs.g_block_size) := by
  rw [List.length_take, length_readBlock hread]
  omega

/-- The loop writes the leading bytes behind what was there. -/
theorem readBlocks_some (blocks : List Nat) {total m : Nat} {buffer bytes : List UInt8}
    (hroom : total + m ≤ buffer.length) (hbytes : fs.leadingBytes blocks m = some bytes) :
    fs.readBlocks (total + m) blocks total buffer =
      .ok (some (total + bytes.length), overwrite buffer total bytes) := by
  induction blocks generalizing total m buffer bytes with
  | nil =>
      cases hbytes
      rw [readBlocks, overwrite_nil]
      rfl
  | cons block_num rest ih =>
      by_cases hgo : 0 < m ∧ block_num ≠ 0
      · cases hread : fs.readBlock block_num with
        | none =>
            rw [leadingBytes, if_pos hgo, hread] at hbytes
            cases hbytes
        | some block_buf =>
            rw [leadingBytes_read hgo hread, Option.map_eq_some_iff] at hbytes
            obtain ⟨tail, htail, rfl⟩ := hbytes
            -- The rest of the loop copies behind the part of this block.
            have hcount := count_eq hread total m
            have hlength : (overwrite buffer total (block_buf.take m)).length = buffer.length :=
              overwrite_length (by omega)
            have hroomNext : total + (block_buf.take m).length + (m - fs.g_block_size) ≤
                (overwrite buffer total (block_buf.take m)).length := by omega
            have hrest := ih hroomNext htail
            rw [readBlocks_read hgo hread rest hroom, hcount, hrest,
              overwrite_overwrite (by omega), List.length_append, Nat.add_assoc]
      · rw [leadingBytes_stop hgo] at hbytes
        cases hbytes
        rw [readBlocks_stop hgo, overwrite_nil]
        rfl

/-- It fails where one of the blocks that it needs cannot be read. -/
theorem readBlocks_none (blocks : List Nat) {total m : Nat} {buffer : List UInt8}
    (hroom : total + m ≤ buffer.length) (hnone : fs.leadingBytes blocks m = none) :
    ∃ buffer', fs.readBlocks (total + m) blocks total buffer = .ok (none, buffer') := by
  induction blocks generalizing total m buffer with
  | nil => cases hnone
  | cons block_num rest ih =>
      have hgo : 0 < m ∧ block_num ≠ 0 := by
        by_contra hstop
        rw [leadingBytes_stop hstop] at hnone
        cases hnone
      cases hread : fs.readBlock block_num with
      | none => exact ⟨buffer, by rw [readBlocks, if_pos ⟨by omega, hgo.2⟩, hread]⟩
      | some block_buf =>
          rw [leadingBytes_read hgo hread, Option.map_eq_none_iff] at hnone
          have hcount := count_eq hread total m
          have hlength : (overwrite buffer total (block_buf.take m)).length = buffer.length :=
            overwrite_length (by omega)
          rw [readBlocks_read hgo hread rest hroom, hcount]
          exact ih (by omega) hnone

end Ext2

/-! ## What is copied -/

section

variable {size : Nat}

theorem takeWhile_cons_ne_zero {block_num : Nat} (hne : block_num ≠ 0) (rest : List Nat) :
    (block_num :: rest).takeWhile (· ≠ 0) = block_num :: rest.takeWhile (· ≠ 0) := by
  simp [hne]

theorem span_stop {block_num m : Nat} (h : ¬(0 < m ∧ block_num ≠ 0)) (rest : List Nat) :
    span size (block_num :: rest) m = 0 := by
  by_cases hm : m = 0
  · simp [span, hm]
  · have hzero : block_num = 0 := by omega
    simp [span, hzero]

theorem span_go {block_num : Nat} (hne : block_num ≠ 0) (rest : List Nat) (m : Nat) :
    span size (block_num :: rest) m = min m size + span size rest (m - size) := by
  rw [span, span, takeWhile_cons_ne_zero hne, List.length_cons, Nat.mul_succ]
  omega

/-- The blocks behind the first are those of the rest. -/
theorem lt_span_succ {block_num : Nat} (hne : block_num ≠ 0) (rest : List Nat) (m j : Nat) :
    (j + 1) * size < span size (block_num :: rest) m ↔ j * size < span size rest (m - size) := by
  have hle : span size rest (m - size) ≤ m - size := Nat.min_le_left _ _
  rw [span_go hne, Nat.succ_mul]
  omega

theorem onDevice_cons_iff (device : Device) {block_num m : Nat} (hsize : 0 < size)
    (h : 0 < m ∧ block_num ≠ 0) (rest : List Nat) :
    OnDevice device size (block_num :: rest) (span size (block_num :: rest) m) ↔
      (block_num + 1) * size ≤ device.size ∧
        OnDevice device size rest (span size rest (m - size)) := by
  constructor
  · intro hall
    refine ⟨hall 0 (by rw [span_go h.2]; omega), fun j hj => ?_⟩
    exact hall (j + 1) ((lt_span_succ h.2 rest m j).mpr hj)
  · rintro ⟨hfirst, hrest⟩ j hj
    cases j with
    | zero => exact hfirst
    | succ j => exact hrest j ((lt_span_succ h.2 rest m j).mp hj)

/-- A part of the first block, then the rest. -/
theorem runByte_cons (device : Device) {block_num m : Nat} (hsize : 0 < size)
    (hne : block_num ≠ 0) (rest : List Nat) :
    (List.range (span size (block_num :: rest) m)).map (runByte device size (block_num :: rest)) =
      ((List.range size).map fun i => device.byte (block_num * size + i)).take m ++
        (List.range (span size rest (m - size))).map (runByte device size rest) := by
  rw [span_go hne, List.range_add, List.map_append, List.map_map, ← List.map_take, List.take_range]
  congr 1
  · apply List.map_congr_left
    intro i hi
    have hlt : i < size := by
      have := List.mem_range.mp hi
      omega
    rw [runByte, Nat.div_eq_of_lt hlt, Nat.mod_eq_of_lt hlt, List.getD_cons_zero]
  · apply List.map_congr_left
    intro i hi
    -- There is a rest only behind a whole block.
    have hwhole : min m size = size := by
      have hle : span size rest (m - size) ≤ m - size := Nat.min_le_left _ _
      have := List.mem_range.mp hi
      omega
    rw [Function.comp_apply, hwhole, runByte, runByte, Nat.add_div_left i hsize,
      Nat.add_mod_left, List.getD_cons_succ]

end

section

variable {fs : Ext2} {device : Device}

theorem readBlock_inside (hdevice : fs.g_device_fd = some device) {block_num : Nat}
    (h : (block_num + 1) * fs.g_block_size ≤ device.size) :
    fs.readBlock block_num = some ((List.range fs.g_block_size).map fun i =>
      device.byte (block_num * fs.g_block_size + i)) := by
  rw [Nat.succ_mul] at h
  rw [Ext2.readBlock, hdevice, preadAll_of_le h, Device.pread_eq h]

theorem readBlock_outside (hdevice : fs.g_device_fd = some device) (hsize : 0 < fs.g_block_size)
    {block_num : Nat} (h : ¬(block_num + 1) * fs.g_block_size ≤ device.size) :
    fs.readBlock block_num = none := by
  rw [Nat.succ_mul, Nat.not_le] at h
  rw [Ext2.readBlock, hdevice, preadAll_of_lt h hsize]

/-- The leading bytes are those of the blocks. -/
theorem leadingBytes_some (hdevice : fs.g_device_fd = some device) (hsize : 0 < fs.g_block_size)
    {blocks : List Nat} {m : Nat}
    (h : OnDevice device fs.g_block_size blocks (span fs.g_block_size blocks m)) :
    fs.leadingBytes blocks m = some ((List.range (span fs.g_block_size blocks m)).map
      (runByte device fs.g_block_size blocks)) := by
  induction blocks generalizing m with
  | nil => simp [Ext2.leadingBytes, span]
  | cons block_num rest ih =>
      by_cases hgo : 0 < m ∧ block_num ≠ 0
      · obtain ⟨hinside, hrest⟩ := (onDevice_cons_iff device hsize hgo rest).mp h
        rw [Ext2.leadingBytes_read hgo (readBlock_inside hdevice hinside), ih hrest,
          runByte_cons device hsize hgo.2]
        rfl
      · rw [Ext2.leadingBytes_stop hgo, span_stop hgo]
        rfl

/-- There are none where one of the blocks is not on the device. -/
theorem leadingBytes_none (hdevice : fs.g_device_fd = some device) (hsize : 0 < fs.g_block_size)
    {blocks : List Nat} {m : Nat}
    (h : ¬OnDevice device fs.g_block_size blocks (span fs.g_block_size blocks m)) :
    fs.leadingBytes blocks m = none := by
  induction blocks generalizing m with
  | nil => exact absurd (fun j hj => absurd hj (by simp [span])) h
  | cons block_num rest ih =>
      by_cases hgo : 0 < m ∧ block_num ≠ 0
      · rw [onDevice_cons_iff device hsize hgo] at h
        by_cases hinside : (block_num + 1) * fs.g_block_size ≤ device.size
        · rw [Ext2.leadingBytes_read hgo (readBlock_inside hdevice hinside),
            ih fun hrest => h ⟨hinside, hrest⟩]
          rfl
        · rw [Ext2.leadingBytes, if_pos hgo, readBlock_outside hdevice hsize hinside]
          rfl
      · rw [span_stop hgo] at h
        exact absurd (fun j hj => absurd hj (Nat.not_lt_zero _)) h

end

/-! ## The bytes of a file -/

/-- Bytes fit before the first zero pointer where all their pointers are not zero. -/
theorem le_mul_length_takeWhile_iff (size : Nat) (blocks : List Nat) (m : Nat) :
    m ≤ size * (blocks.takeWhile (· ≠ 0)).length ↔
      ∀ j, j * size < m → blocks.getD j 0 ≠ 0 := by
  induction blocks generalizing m with
  | nil =>
      constructor
      · intro hle j hj
        have : m = 0 := by simpa using hle
        omega
      · intro hall
        by_contra hm
        exact hall 0 (by simp at hm ⊢; omega) rfl
  | cons block_num rest ih =>
      by_cases hne : block_num = 0
      · have htake : (block_num :: rest).takeWhile (· ≠ 0) = [] := by simp [hne]
        rw [htake, List.length_nil, Nat.mul_zero]
        constructor
        · intro hle j hj
          omega
        · intro hall
          by_contra hm
          exact hall 0 (by omega) hne
      · have hrest := ih (m - size)
        rw [takeWhile_cons_ne_zero hne, List.length_cons, Nat.mul_succ, ← Nat.sub_le_iff_le_add, hrest]
        constructor
        · intro hall j hj
          cases j with
          | zero => exact hne
          | succ j => exact hall j (by rw [Nat.succ_mul] at hj; omega)
        · intro hall j hj
          exact hall (j + 1) (by rw [Nat.succ_mul]; omega)

section

variable {device : Device} {sb : SuperBlock} {fs : Ext2}

theorem blockSize_pos (sb : SuperBlock) : 0 < blockSize sb :=
  Nat.mul_pos (by decide) (Nat.pow_pos (by decide))

/-- A pointer among the first twelve. -/
theorem getD_take_direct (inode : Inode) (j : Nat) :
    (inode.i_block.take EXT2_NDIR_BLOCKS).getD j 0 =
      if j < EXT2_NDIR_BLOCKS then inode.i_block.getD j 0 else 0 := by
  rw [List.getD_eq_getElem?_getD, List.getElem?_take]
  split
  · rw [List.getD_eq_getElem?_getD]
  · rfl

/-- Up to the first zero pointer the bytes of the file are those of the direct blocks. -/
theorem fileBytes_reach (inode : Inode) (count : Nat) :
    fileBytes device sb inode (reach sb inode count) =
      (List.range (reach sb inode count)).map
        (runByte device (blockSize sb) (inode.i_block.take EXT2_NDIR_BLOCKS)) := by
  apply List.map_congr_left
  intro i hi
  have hi : i < reach sb inode count := List.mem_range.mp hi
  have hne := (le_mul_length_takeWhile_iff (blockSize sb)
    (inode.i_block.take EXT2_NDIR_BLOCKS) (reach sb inode count)).mp (Nat.min_le_right _ _)
    (i / blockSize sb) (Nat.lt_of_le_of_lt (Nat.div_mul_le_self _ _) hi)
  rw [runByte, getD_take_direct]
  rw [getD_take_direct] at hne
  have hdirect : i / blockSize sb < EXT2_NDIR_BLOCKS := by
    by_contra hge
    exact hne (if_neg hge)
  rw [if_pos hdirect] at hne ⊢
  rw [fileByte, blockOf]
  simp only [if_pos hdirect, if_neg hne]

/-- Twelve blocks fit an `int`. -/
theorem reach_lt (himage : ValidImage device sb fs) (inode : Inode) (count : Nat) :
    reach sb inode count < 2 ^ 31 := by
  have hpow : 2 ^ sb.s_log_block_size ≤ 2 ^ 6 := Nat.pow_le_pow_right (by decide) himage.log_le
  have hsize : blockSize sb ≤ 65536 := by
    rw [blockSize]
    omega
  have hblocks : ((inode.i_block.take EXT2_NDIR_BLOCKS).takeWhile (· ≠ 0)).length ≤ 12 :=
    Nat.le_trans (List.takeWhile_sublist _).length_le (List.length_take_le _ _)
  have hspan : reach sb inode count ≤
      blockSize sb * ((inode.i_block.take EXT2_NDIR_BLOCKS).takeWhile (· ≠ 0)).length :=
    Nat.min_le_right _ _
  have hmul := Nat.mul_le_mul hsize hblocks
  omega

/-! ## What `Read` does -/

/-- A regular file whose blocks are read to the end. -/
theorem Ext2.read_some {file_inode : Int} {inode : Inode} (hopen : fs.g_device_fd.isNone = false)
    (hget : fs.getInode (asSize file_inode) = .ok (some inode)) (hreg : inode.isReg = true)
    {buffer copied : List UInt8} {count total_read : Nat}
    (hblocks : fs.readBlocks (min count inode.i_size) (inode.i_block.take EXT2_NDIR_BLOCKS) 0
      buffer = .ok (some total_read, copied)) :
    fs.read true file_inode (some buffer) count =
      .ok ⟨asInt total_read, some copied, fs.close⟩ := by
  simp only [Ext2.read, hopen, hget, hreg, hblocks, bind, Except.bind, Bool.true_eq_false, if_false,
    Bool.false_eq_true, pure, Except.pure]

/-- A regular file with a block that cannot be read. -/
theorem Ext2.read_none {file_inode : Int} {inode : Inode} (hopen : fs.g_device_fd.isNone = false)
    (hget : fs.getInode (asSize file_inode) = .ok (some inode)) (hreg : inode.isReg = true)
    {buffer copied : List UInt8} {count : Nat}
    (hblocks : fs.readBlocks (min count inode.i_size) (inode.i_block.take EXT2_NDIR_BLOCKS) 0
      buffer = .ok (none, copied)) :
    fs.read true file_inode (some buffer) count = .ok ⟨-1, some copied, fs.close⟩ := by
  simp only [Ext2.read, hopen, hget, hreg, hblocks, bind, Except.bind, Bool.true_eq_false, if_false,
    Bool.false_eq_true, pure, Except.pure]

variable {n : Nat}

theorem ValidImage.isOpen (himage : ValidImage device sb fs) : fs.g_device_fd.isNone = false := by
  rw [himage.device_eq]
  rfl

theorem ValidImage.block_size_pos (himage : ValidImage device sb fs) : 0 < fs.g_block_size :=
  himage.block_size_eq ▸ blockSize_pos sb

/-- `Read` on the record that `GetInode` yields, with its blocks on the device. -/
theorem read_onDevice (himage : ValidImage device sb fs) {inode : Inode}
    (hget : fs.getInode (givenNumber n) = .ok (some inode)) (hreg : inode.isReg = true)
    {buffer : List UInt8} {count : Nat} (hroom : count ≤ buffer.length)
    (hdevice : OnDevice device (blockSize sb) (inode.i_block.take EXT2_NDIR_BLOCKS)
      (reach sb inode count)) :
    fs.read true (asInt n) (some buffer) count =
      .ok ⟨reach sb inode count,
        some (fileBytes device sb inode (reach sb inode count) ++
          buffer.drop (reach sb inode count)), fs.close⟩ := by
  -- The cast of the total to an `int` keeps it.
  have hint : asInt (reach sb inode count) = reach sb inode count := by
    have hlt := reach_lt himage inode count
    exact Int.bmod_eq_of_le_mul_two (by omega) (by omega)
  have hlength : (fileBytes device sb inode (reach sb inode count)).length =
      reach sb inode count := by
    rw [fileBytes, List.length_map, List.length_range]
  rw [reach, ← himage.block_size_eq] at hdevice
  have hbytes := leadingBytes_some himage.device_eq himage.block_size_pos hdevice
  rw [himage.block_size_eq, ← reach, ← fileBytes_reach] at hbytes
  have hblocks := Ext2.readBlocks_some (inode.i_block.take EXT2_NDIR_BLOCKS)
    (by omega : 0 + min count inode.i_size ≤ buffer.length) hbytes
  rw [overwrite, List.take_zero, List.nil_append, Nat.zero_add, Nat.zero_add, hlength] at hblocks
  rw [givenNumber] at hget
  rw [Ext2.read_some himage.isOpen hget hreg hblocks, hint]

/-- It fails if one of them is not. -/
theorem read_notOnDevice (himage : ValidImage device sb fs) {inode : Inode}
    (hget : fs.getInode (givenNumber n) = .ok (some inode)) (hreg : inode.isReg = true)
    {buffer : List UInt8} {count : Nat} (hroom : count ≤ buffer.length)
    (hdevice : ¬OnDevice device (blockSize sb) (inode.i_block.take EXT2_NDIR_BLOCKS)
      (reach sb inode count)) :
    ∃ buffer', fs.read true (asInt n) (some buffer) count =
      .ok ⟨-1, some buffer', fs.close⟩ := by
  rw [reach, ← himage.block_size_eq] at hdevice
  have hbytes := leadingBytes_none himage.device_eq himage.block_size_pos hdevice
  obtain ⟨buffer', hblocks⟩ := Ext2.readBlocks_none (inode.i_block.take EXT2_NDIR_BLOCKS)
    (by omega : 0 + min count inode.i_size ≤ buffer.length) hbytes
  rw [Nat.zero_add] at hblocks
  rw [givenNumber] at hget
  exact ⟨buffer', Ext2.read_none himage.isOpen hget hreg hblocks⟩

/-- Success means that a regular file was found. -/
theorem ReadsFile.get {allocated : Bool} {buffer : List UInt8} {count : Nat}
    (hopen : fs.g_device_fd.isNone = false) (h : ReadsFile device sb fs allocated n buffer count) :
    allocated = true ∧
      ∃ inode, fs.getInode (givenNumber n) = .ok (some inode) ∧ inode.isReg = true := by
  obtain ⟨fs', hread⟩ := h
  -- Every other way out returns -1, which is no number of bytes.
  have hnever (bytes : List UInt8) (total : Nat) (rest : Option (List UInt8)) :
      (.ok ⟨-1, some bytes, fs.close⟩ : Except Trap ReadResult) ≠ .ok ⟨total, rest, fs'⟩ := by
    intro heq
    have := congrArg ReadResult.returned (Except.ok.inj heq)
    simp only at this
    omega
  simp only [Ext2.read, hopen, bind, Except.bind, Bool.false_eq_true, if_false] at hread
  rw [givenNumber]
  cases hget : fs.getInode (asSize (asInt n)) with
  | error trap =>
      rw [hget] at hread
      cases hread
  | ok found =>
      rw [hget] at hread
      cases found with
      | none => exact absurd hread (hnever _ _ _)
      | some inode =>
          by_cases hreg : inode.isReg = false
          · simp only [hreg, if_true] at hread
            exact absurd hread (hnever _ _ _)
          · rw [Bool.not_eq_false] at hreg
            cases allocated with
            | false =>
                simp only [hreg, Bool.true_eq_false, if_false, if_true] at hread
                exact absurd hread (hnever _ _ _)
            | true => exact ⟨rfl, inode, rfl, hreg⟩

/-- `Read` is right on the record that it finds if that shows the bytes of the file. -/
theorem readsFile_iff_of_get (himage : ValidImage device sb fs) {inode : Inode}
    (hget : fs.getInode (givenNumber n) = .ok (some inode)) (hreg : inode.isReg = true)
    {buffer : List UInt8} {count : Nat} (hroom : count ≤ buffer.length) :
    ReadsFile device sb fs true n buffer count ↔
      SameStart device sb inode (inodeOf device sb n) count := by
  constructor
  · rintro ⟨fs', hread⟩
    by_cases hdevice : OnDevice device (blockSize sb) (inode.i_block.take EXT2_NDIR_BLOCKS)
        (reach sb inode count)
    · have hreads := read_onDevice himage hget hreg hroom hdevice
      have hsame := Except.ok.inj (hreads.symm.trans hread)
      have htotal : reach sb inode count = min count (fileSize (inodeOf device sb n)) :=
        Int.ofNat.inj (congrArg ReadResult.returned hsame)
      have hbuffer := Option.some.inj (congrArg ReadResult.buffer hsame)
      rw [htotal] at hbuffer
      have hbytes := List.append_cancel_right hbuffer
      refine ⟨htotal, hdevice, fun i hi => ?_⟩
      exact List.map_inj_left.mp hbytes i (List.mem_range.mpr hi)
    · obtain ⟨buffer', hfail⟩ := read_notOnDevice himage hget hreg hroom hdevice
      have hsame := congrArg ReadResult.returned (Except.ok.inj (hfail.symm.trans hread))
      simp only at hsame
      omega
  · rintro ⟨htotal, hdevice, hbytes⟩
    have hfile : fileBytes device sb inode (reach sb inode count) =
        fileBytes device sb (inodeOf device sb n) (min count (fileSize (inodeOf device sb n))) := by
      rw [htotal]
      exact List.map_congr_left fun i hi => hbytes i (List.mem_range.mp hi)
    refine ⟨fs.close, ?_⟩
    rw [read_onDevice himage hget hreg hroom hdevice, hfile, htotal]

theorem direct_iff (file : Inode) (count : Nat) :
    Direct sb file count ↔ reach sb file count = min count (fileSize file) := by
  have hblocks := le_mul_length_takeWhile_iff (blockSize sb)
    (file.i_block.take EXT2_NDIR_BLOCKS) (min count (fileSize file))
  have hpointer (j : Nat) : (file.i_block.take EXT2_NDIR_BLOCKS).getD j 0 ≠ 0 ↔
      j < EXT2_NDIR_BLOCKS ∧ file.i_block.getD j 0 ≠ 0 := by
    rw [getD_take_direct]
    by_cases hj : j < EXT2_NDIR_BLOCKS <;> simp [hj]
  have hle : min count file.i_size ≤ min count (fileSize file) := by
    rw [fileSize]
    omega
  simp only [hpointer] at hblocks
  rw [Direct, ← hblocks, reach, span]
  omega

/-- On the record of the file itself the direct part is what counts. -/
theorem sameStart_self_iff (himage : ValidImage device sb fs) (h1 : 1 ≤ n)
    (hn : n ≤ sb.s_inodes_count) (hreg : (inodeOf device sb n).isReg = true) (count : Nat) :
    SameStart device sb (inodeOf device sb n) (inodeOf device sb n) count ↔
      Direct sb (inodeOf device sb n) count := by
  rw [direct_iff]
  constructor
  · exact fun h => h.1
  · refine fun htotal => ⟨htotal, fun j hj => ?_, fun _ _ => rfl⟩
    have hne := (le_mul_length_takeWhile_iff (blockSize sb) _ _).mp (Nat.min_le_right _ _) j hj
    obtain ⟨pointer, hpointer⟩ : ∃ pointer,
        ((inodeOf device sb n).i_block.take EXT2_NDIR_BLOCKS)[j]? = some pointer := by
      rw [← Option.ne_none_iff_exists']
      intro hnone
      exact hne (by rw [List.getD_eq_getElem?_getD, hnone]; rfl)
    have hget : ((inodeOf device sb n).i_block.take EXT2_NDIR_BLOCKS).getD j 0 = pointer := by
      rw [List.getD_eq_getElem?_getD, hpointer]
      rfl
    rw [hget] at hne ⊢
    exact himage.blocks n h1 hn (Or.inl hreg) pointer (List.mem_of_getElem? hpointer) hne

end

/-- `Read` yields the bytes of a regular file exactly if memory is there and `GetInode` looks at
the inode of the file, whose direct part is enough; elsewhere, if it looks at a regular
file that shows the same bytes. -/
theorem read_reads_iff {device : Device} {sb : SuperBlock} {fs : Ext2}
    (himage : ValidImage device sb fs) {n : Nat} (h1 : 1 ≤ n) (hn : n ≤ sb.s_inodes_count)
    (hreg : (inodeOf device sb n).isReg = true) (allocated : Bool) {buffer : List UInt8}
    {count : Nat} (hroom : count ≤ buffer.length) :
    ReadsFile device sb fs allocated n buffer count ↔
      allocated = true ∧
        if fs.inodeOffset (givenNumber n) = inodePlace device sb n then
          Direct sb (inodeOf device sb n) count
        else
          ∃ other, fs.getInode (givenNumber n) = .ok (some other) ∧ other.isReg = true ∧
            SameStart device sb other (inodeOf device sb n) count := by
  have hself := sameStart_self_iff himage h1 hn hreg count
  constructor
  · intro h
    obtain ⟨rfl, other, hget, hother⟩ := h.get himage.isOpen
    have hstart := (readsFile_iff_of_get himage hget hother hroom).mp h
    refine ⟨rfl, ?_⟩
    split
    -- At the place of the inode the record is the one of the file.
    · rename_i hplace
      have hsame := Except.ok.inj (hget.symm.trans (himage.getInode_eq h1 hn hplace))
      rw [Option.some.inj hsame] at hstart
      exact hself.mp hstart
    · exact ⟨other, hget, hother, hstart⟩
  · rintro ⟨rfl, hcondition⟩
    split at hcondition
    · rename_i hplace
      exact (readsFile_iff_of_get himage (himage.getInode_eq h1 hn hplace) hreg hroom).mpr
        (hself.mpr hcondition)
    · obtain ⟨other, hget, hother, hstart⟩ := hcondition
      exact (readsFile_iff_of_get himage hget hother hroom).mpr hstart

/-- The numbers that an `int` holds arrive unchanged. -/
theorem givenNumber_eq {n : Nat} (h : n < 2 ^ 31) : givenNumber n = n := by
  have hint : asInt n = n := Int.bmod_eq_of_le_mul_two (by omega) (by omega)
  rw [givenNumber, hint, asSize]
  omega

/-- The inodes of the first group are looked for at their places. -/
theorem ValidImage.place_eq {device : Device} {sb : SuperBlock} {fs : Ext2}
    (himage : ValidImage device sb fs) {n : Nat} (h1 : 1 ≤ n) (hint : n < 2 ^ 31)
    (hgroup : n ≤ sb.s_inodes_per_group) (hsize : n = 1 ∨ sb.s_inode_size = inodeSize sb) :
    fs.inodeOffset (givenNumber n) = inodePlace device sb n := by
  rw [givenNumber_eq hint]
  exact himage.inodeOffset_eq h1 hgroup hsize

/-! ### A hole and a block -/

/-- Inode 12 of the sample: two bytes in a hole. -/
def sampleHole : Inode := ⟨0x81a4, 2, 0, List.replicate 15 0⟩

/-- Inode 13 of the sample. -/
def sampleFile : Inode := ⟨0x81a4, 1, 0, 6 :: List.replicate 14 0⟩

theorem sampleHole_eq : inodeOf sampleDevice sampleSuperBlock 12 = sampleHole := by
  rw [sampleImage_inodeOf (by decide) (by decide)]
  decide

theorem sampleFile_eq : inodeOf sampleDevice sampleSuperBlock 13 = sampleFile := by
  rw [sampleImage_inodeOf (by decide) (by decide)]
  decide

theorem read_reads_iff_sample :
    ReadsFile sampleDevice sampleSuperBlock sampleImage true 13 [1, 2, 3] 3 := by
  have hreg : (inodeOf sampleDevice sampleSuperBlock 13).isReg = true := by
    rw [sampleFile_eq]
    rfl
  apply (read_reads_iff sampleImage_valid (by decide) (by decide) hreg true (by decide)).mpr
  rw [if_pos (sampleImage_valid.place_eq (by decide) (by decide) (by decide) (Or.inr rfl)),
    sampleFile_eq]
  refine ⟨rfl, by decide, fun j hj => ?_⟩
  have hj : j * 1024 < 1 := hj
  obtain rfl : j = 0 := by omega
  decide

/-- A file that is a hole is read as if it were empty. -/
theorem read_hole : ValidImage sampleDevice sampleSuperBlock sampleImage ∧
    inodeOf sampleDevice sampleSuperBlock 12 = sampleHole ∧ sampleHole.isReg = true ∧
      fileBytes sampleDevice sampleSuperBlock sampleHole (min 2 (fileSize sampleHole)) = [0, 0] ∧
      sampleImage.read true (asInt 12) (some [1, 2]) 2 =
        .ok ⟨(0 : Nat), some [1, 2], sampleImage.close⟩ ∧
      ¬ReadsFile sampleDevice sampleSuperBlock sampleImage true 12 [1, 2] 2 := by
  have hget := sampleImage_valid.getInode_eq (by decide) (by decide)
    (sampleImage_valid.place_eq (n := 12) (by decide) (by decide) (by decide) (Or.inr rfl))
  rw [sampleHole_eq] at hget
  have hreach : reach sampleSuperBlock sampleHole 2 = 0 := by decide
  have hroom : 2 ≤ [(1 : UInt8), 2].length := by decide
  have hread := read_onDevice sampleImage_valid hget rfl hroom
    fun j hj => absurd hj (by rw [hreach]; exact Nat.not_lt_zero _)
  rw [hreach] at hread
  refine ⟨sampleImage_valid, sampleHole_eq, rfl, by decide, hread, ?_⟩
  rintro ⟨fs', hfile⟩
  have hsame := congrArg ReadResult.returned (Except.ok.inj (hread.symm.trans hfile))
  rw [sampleHole_eq] at hsame
  have hne : ((0 : Nat) : Int) ≠ (min 2 (fileSize sampleHole) : Nat) := by decide
  exact hne hsame

end Sys
end InfinityLabs
