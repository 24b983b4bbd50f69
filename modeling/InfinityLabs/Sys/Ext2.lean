import InfinityLabs.Lib.ByteFields
import InfinityLabs.Lib.CInts

/-!
# The ext2 reader

`system_programming/src/ext2.c`: the superblock, the group descriptor and the inodes of an image.
The records are those of `ext2fs/ext2_fs.h`: a superblock has 1024 bytes, a group descriptor 32
and an inode 128.

`GetInode` uses the descriptor that `Open` has loaded, which is the one of the first group, and
the `s_inode_size` of the superblock, which an image of revision 0 does not have.  Where an
inode really is, and what a file or a directory holds, is told apart from that.
-/

namespace InfinityLabs
namespace Sys

open Lib

/-! ## The records -/

/-- The fields of `struct ext2_super_block`. -/
structure SuperBlock where
  s_inodes_count : Nat
  s_first_data_block : Nat
  s_log_block_size : Nat
  s_inodes_per_group : Nat
  s_magic : Nat
  s_rev_level : Nat
  s_inode_size : Nat
  deriving DecidableEq, Repr

/-- A superblock as it stands on the device. -/
def SuperBlock.ofBytes (bytes : List UInt8) : SuperBlock where
  s_inodes_count := fieldAt bytes 0 4
  s_first_data_block := fieldAt bytes 20 4
  s_log_block_size := fieldAt bytes 24 4
  s_inodes_per_group := fieldAt bytes 40 4
  s_magic := fieldAt bytes 56 2
  s_rev_level := fieldAt bytes 76 4
  s_inode_size := fieldAt bytes 88 2

theorem SuperBlock.perGroup_lt (bytes : List UInt8) :
    (SuperBlock.ofBytes bytes).s_inodes_per_group < 2 ^ 32 :=
  fieldAt_lt bytes 40 4

/-- `bg_inode_table` of a `struct ext2_group_desc`. -/
def bg_inode_table (bytes : List UInt8) : Nat :=
  fieldAt bytes 8 4

/-- The fields of `struct ext2_inode`. -/
structure Inode where
  i_mode : Nat
  i_size : Nat
  i_size_high : Nat
  i_block : List Nat
  deriving DecidableEq, Repr

/-- An inode as it stands on the device. -/
def Inode.ofBytes (bytes : List UInt8) : Inode where
  i_mode := fieldAt bytes 0 2
  i_size := fieldAt bytes 4 4
  i_size_high := fieldAt bytes 108 4
  i_block := (List.range 15).map fun i => fieldAt bytes (40 + 4 * i) 4

/-- `S_ISDIR(i_mode)`. -/
def Inode.isDir (inode : Inode) : Bool :=
  inode.i_mode &&& 0xf000 == 0x4000

/-- `S_ISREG(i_mode)`. -/
def Inode.isReg (inode : Inode) : Bool :=
  inode.i_mode &&& 0xf000 == 0x8000

theorem Inode.mode_ne_zero {inode : Inode} (h : inode.isReg = true ∨ inode.isDir = true) :
    inode.i_mode ≠ 0 := by
  intro hzero
  rcases h with hreg | hdir
  · simp [isReg, hzero] at hreg
  · simp [isDir, hzero] at hdir

/-- `EXT2_NDIR_BLOCKS`. -/
def EXT2_NDIR_BLOCKS : Nat := 12

/-! ## Reading them -/

/-- A read of `n` bytes of a buffer. -/
def readBytes (block : List UInt8) (offset n : Nat) : Except Trap (List UInt8) :=
  if offset + n ≤ block.length then .ok ((block.drop offset).take n) else .error .outOfBounds

/-- The static data; a descriptor that is not open is `none`. -/
structure Ext2 where
  g_device_fd : Option Device
  g_superblock : SuperBlock
  g_group_desc : Nat
  g_block_size : Nat

/-- A `pread` that fails unless all bytes are read. -/
def preadAll (fd : Option Device) (n offset : Nat) : Option (List UInt8) :=
  fd.bind fun device =>
    if (device.pread n offset).length = n then some (device.pread n offset) else none

/-- `LoadSuperBlock`: the superblock and the block size.  The shift of an `int` has no result
where it leaves the type. -/
def loadSuperBlock (fd : Option Device) : Option (SuperBlock × Nat) :=
  (preadAll fd 1024 1024).bind fun bytes =>
    let superblock := SuperBlock.ofBytes bytes
    if superblock.s_magic ≠ 0xef53 then none
    else if superblock.s_log_block_size ≤ 20 then
      some (superblock, 1024 <<< superblock.s_log_block_size)
    else none

/-- `LoadGroupDesc`: the inode table of the first group. -/
def loadGroupDesc (fd : Option Device) (superblock : SuperBlock) (blockSize : Nat) : Option Nat :=
  (preadAll fd 32 (blockSize * ((superblock.s_first_data_block + 1) % 2 ^ 32))).map bg_inode_table

/-- `Open`, up to the search for the file. -/
def openDevice (device : Device) : Option Ext2 := do
  let (superblock, blockSize) ← loadSuperBlock (some device)
  let groupDesc ← loadGroupDesc (some device) superblock blockSize
  pure ⟨some device, superblock, groupDesc, blockSize⟩

namespace Ext2

variable (fs : Ext2)

/-- `ReadBlock`. -/
def readBlock (block_num : Nat) : Option (List UInt8) :=
  preadAll fs.g_device_fd fs.g_block_size (block_num * fs.g_block_size)

/-- Where `GetInode` looks; `inode_num - 1` is a `size_t`. -/
def inodeOffset (inode_num : Nat) : Nat :=
  fs.g_group_desc * fs.g_block_size +
    (inode_num + (2 ^ 64 - 1)) % 2 ^ 64 % fs.g_superblock.s_inodes_per_group *
      fs.g_superblock.s_inode_size

/-- `GetInode`; a failure is `none`. -/
def getInode (inode_num : Nat) : Except Trap (Option Inode) :=
  if fs.g_superblock.s_inodes_per_group = 0 then .error .divisionByZero
  else .ok ((preadAll fs.g_device_fd 128 (fs.inodeOffset inode_num)).map Inode.ofBytes)

end Ext2

/-! ## The image -/

section

variable (device : Device) (sb : SuperBlock)

/-- The size of a block. -/
def blockSize : Nat :=
  1024 * 2 ^ sb.s_log_block_size

/-- The first block of the inode table of a group: the descriptors of all groups follow the block
of the superblock. -/
def inodeTable (group : Nat) : Nat :=
  device.field (blockSize sb * (sb.s_first_data_block + 1) + 32 * group + 8) 4

/-- The size of an inode; it is fixed in revision 0. -/
def inodeSize : Nat :=
  if sb.s_rev_level = 0 then 128 else sb.s_inode_size

/-- Where an inode is. -/
def inodePlace (n : Nat) : Nat :=
  inodeTable device sb ((n - 1) / sb.s_inodes_per_group) * blockSize sb +
    (n - 1) % sb.s_inodes_per_group * inodeSize sb

/-- An inode of the image. -/
def inodeOf (n : Nat) : Inode :=
  Inode.ofBytes (device.pread 128 (inodePlace device sb n))

/-- An image that is opened, with its records and blocks inside the device. -/
structure ValidImage (fs : Ext2) : Prop where
  opened : openDevice device = some fs
  superblock : fs.g_superblock = sb
  log_le : sb.s_log_block_size ≤ 6
  first_le : sb.s_first_data_block ≤ 1
  perGroup : 0 < sb.s_inodes_per_group
  inodes : ∀ n, 1 ≤ n → n ≤ sb.s_inodes_count → inodePlace device sb n + 128 ≤ device.size
  blocks : ∀ n, 1 ≤ n → n ≤ sb.s_inodes_count →
    (inodeOf device sb n).isReg = true ∨ (inodeOf device sb n).isDir = true →
    ∀ b ∈ (inodeOf device sb n).i_block.take EXT2_NDIR_BLOCKS, b ≠ 0 →
      (b + 1) * blockSize sb ≤ device.size

end

/-! ## What is loaded -/

theorem preadAll_eq_some {fd : Option Device} {n offset : Nat} {bytes : List UInt8}
    (h : preadAll fd n offset = some bytes) :
    ∃ device, fd = some device ∧ bytes = device.pread n offset ∧ bytes.length = n := by
  cases fd with
  | none => cases h
  | some device =>
      simp [preadAll] at h
      exact ⟨device, rfl, h.2.symm, h.2 ▸ h.1⟩

theorem readBytes_of_le {block : List UInt8} {offset n : Nat} (h : offset + n ≤ block.length) :
    readBytes block offset n = .ok ((block.drop offset).take n) := by
  rw [readBytes, if_pos h]

theorem preadAll_of_le {device : Device} {n offset : Nat} (h : offset + n ≤ device.size) :
    preadAll (some device) n offset = some (device.pread n offset) := by
  have hlength : (device.pread n offset).length = n := by
    rw [Device.length_pread]
    omega
  simp [preadAll, hlength]

/-- A read that leaves the device fails. -/
theorem preadAll_of_lt {device : Device} {n offset : Nat} (h : device.size < offset + n)
    (hn : 0 < n) : preadAll (some device) n offset = none := by
  have hlength : (device.pread n offset).length ≠ n := fun heq =>
    absurd ((Device.length_pread_eq_iff hn).mp heq) (by omega)
  simp [preadAll, hlength]

theorem Ext2.length_readBlock {fs : Ext2} {block_num : Nat} {block : List UInt8}
    (h : fs.readBlock block_num = some block) : block.length = fs.g_block_size := by
  obtain ⟨_, -, -, hlength⟩ := preadAll_eq_some h
  exact hlength

theorem SuperBlock.ofBytes_pread {device : Device} (h : 1024 + 1024 ≤ device.size) :
    SuperBlock.ofBytes (device.pread 1024 1024) =
      ⟨device.field 1024 4, device.field 1044 4, device.field 1048 4, device.field 1064 4,
        device.field 1080 2, device.field 1100 4, device.field 1112 2⟩ := by
  simp only [SuperBlock.ofBytes]
  repeat rw [Device.fieldAt_pread h (by decide)]

theorem Inode.ofBytes_pread {device : Device} {offset : Nat} (h : offset + 128 ≤ device.size) :
    Inode.ofBytes (device.pread 128 offset) =
      ⟨device.field offset 2, device.field (offset + 4) 4, device.field (offset + 108) 4,
        (List.range 15).map fun i => device.field (offset + (40 + 4 * i)) 4⟩ := by
  simp only [Inode.ofBytes]
  repeat rw [Device.fieldAt_pread h (by decide)]
  congr 1
  apply List.map_congr_left
  intro i hi
  have := List.mem_range.mp hi
  exact Device.fieldAt_pread h (by omega)

theorem loadSuperBlock_eq_some {device : Device} {superblock : SuperBlock} {size : Nat}
    (h : loadSuperBlock (some device) = some (superblock, size)) :
    superblock = SuperBlock.ofBytes (device.pread 1024 1024) ∧
      superblock.s_log_block_size ≤ 20 ∧ size = blockSize superblock := by
  rw [loadSuperBlock, Option.bind_eq_some_iff] at h
  obtain ⟨bytes, hbytes, h⟩ := h
  obtain ⟨_, hdevice, hread, -⟩ := preadAll_eq_some hbytes
  cases hdevice
  rw [← hread]
  dsimp only at h
  split at h
  · cases h
  · split at h
    · rename_i hlog
      cases h
      exact ⟨rfl, hlog, Nat.shiftLeft_eq _ _⟩
    · cases h

/-- The static data of an open image. -/
theorem openDevice_eq_some {device : Device} {fs : Ext2} (h : openDevice device = some fs) :
    fs.g_device_fd = some device ∧
      fs.g_superblock = SuperBlock.ofBytes (device.pread 1024 1024) ∧
      fs.g_superblock.s_log_block_size ≤ 20 ∧ fs.g_block_size = blockSize fs.g_superblock ∧
      loadGroupDesc (some device) fs.g_superblock fs.g_block_size = some fs.g_group_desc := by
  simp only [openDevice, Option.bind_eq_bind, Option.bind_eq_some_iff] at h
  obtain ⟨⟨superblock, size⟩, hload, table, htable, h⟩ := h
  obtain ⟨hsuper, hlog, hsize⟩ := loadSuperBlock_eq_some hload
  cases h
  exact ⟨rfl, hsuper, hlog, hsize, htable⟩

namespace ValidImage

variable {device : Device} {sb : SuperBlock} {fs : Ext2}

theorem device_eq (h : ValidImage device sb fs) : fs.g_device_fd = some device :=
  (openDevice_eq_some h.opened).1

theorem block_size_eq (h : ValidImage device sb fs) : fs.g_block_size = blockSize sb := by
  obtain ⟨-, -, -, hsize, -⟩ := openDevice_eq_some h.opened
  rw [hsize, h.superblock]

theorem superblock_eq (h : ValidImage device sb fs) :
    sb = SuperBlock.ofBytes (device.pread 1024 1024) := by
  rw [← h.superblock]
  exact (openDevice_eq_some h.opened).2.1

/-- The loaded descriptor is the one of the first group. -/
theorem group_desc_eq (h : ValidImage device sb fs) : fs.g_group_desc = inodeTable device sb 0 := by
  obtain ⟨-, -, -, -, hload⟩ := openDevice_eq_some h.opened
  -- The sum of `__u32` does not wrap, and the descriptor is read whole.
  have hfirst : (sb.s_first_data_block + 1) % 2 ^ 32 = sb.s_first_data_block + 1 :=
    Nat.mod_eq_of_lt (by have := h.first_le; omega)
  rw [loadGroupDesc, h.superblock, h.block_size_eq, hfirst, Option.map_eq_some_iff] at hload
  obtain ⟨bytes, hbytes, htable⟩ := hload
  obtain ⟨_, hdevice, hread, hlength⟩ := preadAll_eq_some hbytes
  cases hdevice
  have hinside : blockSize sb * (sb.s_first_data_block + 1) + 32 ≤ device.size :=
    (Device.length_pread_eq_iff (by decide)).mp (hread ▸ hlength)
  rw [← htable, hread, bg_inode_table, Device.fieldAt_pread hinside (by decide)]
  rfl

/-- In the first group `GetInode` looks where the inode is, if the superblock has the size of an
inode; the first inode it finds anyway. -/
theorem inodeOffset_eq (h : ValidImage device sb fs) {n : Nat} (h1 : 1 ≤ n)
    (hgroup : n ≤ sb.s_inodes_per_group) (hsize : n = 1 ∨ sb.s_inode_size = inodeSize sb) :
    fs.inodeOffset n = inodePlace device sb n := by
  have hlt : sb.s_inodes_per_group < 2 ^ 32 := by
    rw [h.superblock_eq]
    exact SuperBlock.perGroup_lt _
  -- The subtraction in `size_t` does not wrap, as inodes are counted from 1.
  have hindex : (n + (2 ^ 64 - 1)) % 2 ^ 64 = n - 1 := by omega
  have hmod : (n - 1) % sb.s_inodes_per_group = n - 1 := Nat.mod_eq_of_lt (by omega)
  have hdiv : (n - 1) / sb.s_inodes_per_group = 0 := Nat.div_eq_of_lt (by omega)
  rw [Ext2.inodeOffset, inodePlace, h.group_desc_eq, h.block_size_eq, h.superblock, hindex, hmod,
    hdiv]
  rcases hsize with rfl | hsize
  · simp
  · rw [hsize]

/-- Where it looks at the place of an inode, it reads that inode. -/
theorem getInode_eq (h : ValidImage device sb fs) {n number : Nat} (h1 : 1 ≤ n)
    (hn : n ≤ sb.s_inodes_count) (hplace : fs.inodeOffset number = inodePlace device sb n) :
    fs.getInode number = .ok (some (inodeOf device sb n)) := by
  have hgroup : fs.g_superblock.s_inodes_per_group ≠ 0 := by
    rw [h.superblock]
    exact Nat.ne_of_gt h.perGroup
  rw [Ext2.getInode, if_neg hgroup, h.device_eq, hplace, preadAll_of_le (h.inodes n h1 hn)]
  rfl

end ValidImage

/-! ## An image -/

/-- An image with one group: inode 2 is a directory with a block, inode 12 a file that is one
hole, inode 13 a file with a block. -/
def sampleDevice : Device where
  size := 7168
  byte i := ([(1024, 16), (1044, 1), (1064, 16), (1080, 0x53), (1081, 0xef), (1100, 1), (1112, 128),
    (2056, 3),
    (3200, 0xed), (3201, 0x41), (3205, 4), (3240, 5),
    (4480, 0xa4), (4481, 0x81), (4484, 2),
    (4608, 0xa4), (4609, 0x81), (4612, 1), (4648, 6),
    -- The records "." and "..", and "a" in the last bytes of the block.
    (5120, 2), (5124, 12), (5126, 1), (5128, 46),
    (5132, 2), (5136, 0xdc), (5137, 3), (5138, 2), (5140, 46), (5141, 46),
    (6120, 13), (6124, 24), (6126, 1), (6128, 97),
    (6144, 120)].lookup i).getD 0

def sampleSuperBlock : SuperBlock := ⟨16, 1, 0, 16, 0xef53, 1, 128⟩

/-- What `Open` makes of it. -/
def sampleImage : Ext2 := ⟨some sampleDevice, sampleSuperBlock, 3, 1024⟩

theorem sampleImage_opened : openDevice sampleDevice = some sampleImage := by
  have hsuper : SuperBlock.ofBytes (sampleDevice.pread 1024 1024) = sampleSuperBlock := by
    rw [SuperBlock.ofBytes_pread (by decide)]
    decide
  have hload : loadSuperBlock (some sampleDevice) = some (sampleSuperBlock, 1024) := by
    rw [loadSuperBlock, preadAll_of_le (by decide), Option.bind_some, hsuper]
    rfl
  have hdesc : loadGroupDesc (some sampleDevice) sampleSuperBlock 1024 = some 3 := by
    rw [loadGroupDesc, preadAll_of_le (by decide), Option.map_some, bg_inode_table,
      Device.fieldAt_pread (by decide) (by decide)]
    decide
  simp only [openDevice, hload, Option.bind_eq_bind, Option.bind_some, hdesc]
  rfl

theorem sampleImage_inodePlace {n : Nat} (h1 : 1 ≤ n) (hn : n ≤ 16) :
    inodePlace sampleDevice sampleSuperBlock n = 3072 + 128 * (n - 1) := by
  have htable : inodeTable sampleDevice sampleSuperBlock 0 = 3 := by decide
  have hgroup : (n - 1) / sampleSuperBlock.s_inodes_per_group = 0 :=
    Nat.div_eq_of_lt (by change n - 1 < 16; omega)
  have hindex : (n - 1) % sampleSuperBlock.s_inodes_per_group = n - 1 :=
    Nat.mod_eq_of_lt (by change n - 1 < 16; omega)
  rw [inodePlace, hgroup, hindex, htable, Nat.mul_comm (n - 1)]
  rfl

theorem sampleImage_inside {n : Nat} (hn : n ≤ 16) :
    3072 + 128 * (n - 1) + 128 ≤ sampleDevice.size := by
  change _ ≤ 7168
  omega

theorem sampleImage_inodeOf {n : Nat} (h1 : 1 ≤ n) (hn : n ≤ 16) :
    inodeOf sampleDevice sampleSuperBlock n =
      ⟨sampleDevice.field (3072 + 128 * (n - 1)) 2, sampleDevice.field (3072 + 128 * (n - 1) + 4) 4,
        sampleDevice.field (3072 + 128 * (n - 1) + 108) 4,
        (List.range 15).map fun i =>
          sampleDevice.field (3072 + 128 * (n - 1) + (40 + 4 * i)) 4⟩ := by
  rw [inodeOf, sampleImage_inodePlace h1 hn, Inode.ofBytes_pread (sampleImage_inside hn)]

theorem sampleImage_valid : ValidImage sampleDevice sampleSuperBlock sampleImage where
  opened := sampleImage_opened
  superblock := rfl
  log_le := by decide
  first_le := by decide
  perGroup := by decide
  inodes n h1 hn := by
    rw [sampleImage_inodePlace h1 hn]
    exact sampleImage_inside hn
  blocks n h1 hn hmode b hb _ := by
    have hn : n ≤ 16 := hn
    have hpointers : ∀ k < 16, sampleDevice.field (3072 + 128 * k) 2 ≠ 0 →
        ∀ i < 15, sampleDevice.field (3072 + 128 * k + (40 + 4 * i)) 4 ≤ 6 := by decide +kernel
    have hinode := sampleImage_inodeOf h1 hn
    have hused : sampleDevice.field (3072 + 128 * (n - 1)) 2 ≠ 0 := by
      have hne := Inode.mode_ne_zero hmode
      rwa [hinode] at hne
    have hmem := List.mem_of_mem_take hb
    rw [hinode] at hmem
    obtain ⟨i, hi, rfl⟩ := List.mem_map.mp hmem
    have hle := hpointers (n - 1) (by omega) hused i (List.mem_range.mp hi)
    change _ * 1024 ≤ 7168
    omega

end Sys
end InfinityLabs
