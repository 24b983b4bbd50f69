import InfinityLabs.Sys.Ext2

/-!
# Looking up a name in a directory

`FindInDirectory` of `system_programming/src/ext2.c`.  The records of a block are walked as
`struct ext2_dir_entry_2`, which has 264 bytes; a record that begins nearer to the end of
its block is not looked at, although the records there are shorter as a rule.

The blocks are bytes of the disk.  Every access to them is checked here, so that a scan which
yields a result has stayed inside the block.
-/

namespace InfinityLabs
namespace Sys

open Lib

/-! ## The scan -/

/-- `sizeof(struct ext2_dir_entry_2)`: a head of 8 bytes and 255 bytes for the name, aligned. -/
def DIR_ENTRY_SIZE : Nat := 264

/-- A read of a field. -/
def readField (block : List UInt8) (offset width : Nat) : Except Trap Nat :=
  (readBytes block offset width).map littleEndian

/-- `0 != entry->inode && strlen(name) == entry->name_len &&
0 == memcmp(entry->name, name, entry->name_len)`. -/
def isEntry (block name : List UInt8) (entry_offset : Nat) : Except Trap Bool := do
  let inode ← readField block entry_offset 4
  if inode = 0 then pure false
  else
    let name_len ← readField block (entry_offset + 6) 1
    if name.length ≠ name_len then pure false
    else
      let bytes ← readBytes block (entry_offset + 8) name_len
      pure (bytes == name)

/-- The inner loop of `FindInDirectory`. -/
def scanBlock (g_block_size : Nat) (block name : List UInt8) (entry_offset : Nat) :
    Except Trap (Option Nat) :=
  if _hroom : entry_offset + DIR_ENTRY_SIZE ≤ g_block_size then do
    let rec_len ← readField block (entry_offset + 4) 2
    if _hend : rec_len = 0 then pure none
    else
      let found ← isEntry block name entry_offset
      if found then
        let inode ← readField block entry_offset 4
        pure (some inode)
      else scanBlock g_block_size block name (entry_offset + rec_len)
  else pure none
termination_by g_block_size - entry_offset
decreasing_by
  have : 0 < DIR_ENTRY_SIZE := by decide
  omega

namespace Ext2

variable (fs : Ext2)

/-- The outer loop of `FindInDirectory` on what is left of the block pointers. -/
def findInBlocks (name : List UInt8) : List Nat → Except Trap (Option Nat)
  | [] => pure none
  | block_num :: rest =>
      if block_num = 0 then pure none
      else
        match fs.readBlock block_num with
        | none => pure none
        | some block => do
            match ← scanBlock fs.g_block_size block name 0 with
            | some found_inode => pure (some found_inode)
            | none => findInBlocks name rest

/-- `FindInDirectory` with the outcome of its `malloc`; -1 is `none`, and `*found_inode` is 0
then. -/
def findInDirectory (allocated : Bool) (dir_inode_num : Nat) (name : List UInt8) :
    Except Trap (Option Nat) := do
  match ← fs.getInode dir_inode_num with
  | none => pure none
  | some dir_inode =>
      if dir_inode.isDir = false then pure none
      else if allocated = false then pure none
      else fs.findInBlocks name (dir_inode.i_block.take EXT2_NDIR_BLOCKS)

end Ext2

/-! ## The records of a block -/

section

variable (block : List UInt8) (offset : Nat)

/-- `entry->inode`. -/
def entryInode : Nat := fieldAt block offset 4

/-- `entry->rec_len`. -/
def recLen : Nat := fieldAt block (offset + 4) 2

/-- `entry->name_len`. -/
def nameLen : Nat := fieldAt block (offset + 6) 1

/-- `entry->name`, as long as it counts. -/
def entryName : List UInt8 := (block.drop (offset + 8)).take (nameLen block offset)

end

/-- The records from an offset on tile the rest of the block; they begin at the offsets of the
list. -/
inductive Chain (block : List UInt8) : Nat → List Nat → Prop
  | done : Chain block block.length []
  | record {offset : Nat} {rest : List Nat} (aligned : recLen block offset % 4 = 0)
      (room : 8 + nameLen block offset ≤ recLen block offset)
      (next : Chain block (offset + recLen block offset) rest) :
      Chain block offset (offset :: rest)

/-- A live record with that name. -/
def Carries (block name : List UInt8) (offset : Nat) : Prop :=
  entryInode block offset ≠ 0 ∧ entryName block offset = name

instance (block name : List UInt8) (offset : Nat) : Decidable (Carries block name offset) :=
  inferInstanceAs (Decidable (_ ∧ _))

/-- The blocks of a directory. -/
def Inode.blocks (dir : Inode) : List Nat :=
  (dir.i_block.take EXT2_NDIR_BLOCKS).filter (· ≠ 0)

section

variable (fs : Ext2) (dir : Inode)

/-- A block of a directory has a live record with that name and inode at an offset. -/
def EntryAt (name : List UInt8) (offset inode block_num : Nat) : Prop :=
  ∃ block offsets, fs.readBlock block_num = some block ∧ Chain block 0 offsets ∧
    offset ∈ offsets ∧ Carries block name offset ∧ entryInode block offset = inode

/-- A directory whose blocks are direct, without a hole, and chains of records. -/
structure DirectoryFormed : Prop where
  direct : ∃ free, dir.i_block.take EXT2_NDIR_BLOCKS = dir.blocks ++ List.replicate free 0
  chains : ∀ block_num ∈ dir.blocks,
    ∃ block offsets, fs.readBlock block_num = some block ∧ Chain block 0 offsets

/-- A live entry of the directory. -/
def LiveEntry (name : List UInt8) (inode : Nat) : Prop :=
  ∃ block_num ∈ dir.blocks, ∃ offset, EntryAt fs name offset inode block_num

/-- A live entry of a block with the bytes of a whole `struct ext2_dir_entry_2` from its
beginning on. -/
def RoomyAt (name : List UInt8) (inode block_num : Nat) : Prop :=
  ∃ offset, EntryAt fs name offset inode block_num ∧ offset + DIR_ENTRY_SIZE ≤ fs.g_block_size

/-- Such an entry of the directory. -/
def RoomyEntry (name : List UInt8) (inode : Nat) : Prop :=
  ∃ block_num ∈ dir.blocks, RoomyAt fs name inode block_num

/-- The lookup succeeds with the inode of a live entry of that name, and if there is one. -/
def FindsEntry (allocated : Bool) (n : Nat) (name : List UInt8) : Prop :=
  ∃ found, fs.findInDirectory allocated n name = .ok found ∧
    (∀ inode, found = some inode → LiveEntry fs dir name inode) ∧
    ((∃ inode, LiveEntry fs dir name inode) → ∃ inode, found = some inode)

end

/-! ## Reads inside the block -/

theorem readField_of_le {block : List UInt8} {offset width : Nat}
    (h : offset + width ≤ block.length) :
    readField block offset width = .ok (fieldAt block offset width) := by
  rw [readField, readBytes_of_le h]
  rfl

theorem nameLen_lt (block : List UInt8) (offset : Nat) : nameLen block offset < 256 :=
  fieldAt_lt block (offset + 6) 1

/-- The comparison stays inside a block that has room for a whole record. -/
theorem isEntry_of_room {block : List UInt8} {offset : Nat}
    (hroom : offset + DIR_ENTRY_SIZE ≤ block.length) (name : List UInt8) :
    isEntry block name offset = .ok (decide (Carries block name offset)) := by
  have hsize : DIR_ENTRY_SIZE = 264 := rfl
  have hlen := nameLen_lt block offset
  have hinode : readField block offset 4 = .ok (entryInode block offset) :=
    readField_of_le (by omega)
  have hfield : readField block (offset + 6) 1 = .ok (nameLen block offset) :=
    readField_of_le (by omega)
  have hbytes : readBytes block (offset + 8) (nameLen block offset) =
      .ok (entryName block offset) := readBytes_of_le (by omega)
  have hlength : (entryName block offset).length = nameLen block offset := by
    rw [entryName, List.length_take, List.length_drop]
    omega
  simp only [isEntry, hinode, hfield, bind, Except.bind]
  by_cases hzero : entryInode block offset = 0
  · have hcarries : ¬Carries block name offset := fun h => h.1 hzero
    rw [if_pos hzero, decide_eq_false hcarries]
    rfl
  · rw [if_neg hzero]
    by_cases hname : entryName block offset = name
    · have hcarries : Carries block name offset := ⟨hzero, hname⟩
      have hnamed : ¬name.length ≠ nameLen block offset := fun hne => hne (hname ▸ hlength)
      rw [if_neg hnamed, hbytes, hname, decide_eq_true hcarries]
      exact congrArg Except.ok (beq_self_eq_true name)
    · have hcarries : ¬Carries block name offset := fun h => hname h.2
      rw [decide_eq_false hcarries]
      split
      · rfl
      · rw [hbytes]
        exact congrArg Except.ok (beq_false_of_ne hname)

/-- One turn of the inner loop. -/
theorem scanBlock_room {size : Nat} {block : List UInt8} (hlength : block.length = size)
    (name : List UInt8) {offset : Nat} (hroom : offset + DIR_ENTRY_SIZE ≤ size) :
    scanBlock size block name offset =
      if recLen block offset = 0 then .ok none
      else if Carries block name offset then .ok (some (entryInode block offset))
      else scanBlock size block name (offset + recLen block offset) := by
  have hsize : DIR_ENTRY_SIZE = 264 := rfl
  have hrec : readField block (offset + 4) 2 = .ok (recLen block offset) :=
    readField_of_le (by omega)
  have hinode : readField block offset 4 = .ok (entryInode block offset) :=
    readField_of_le (by omega)
  have hentry := isEntry_of_room (hlength ▸ hroom) name
  rw [scanBlock, dif_pos hroom]
  simp only [hrec, hinode, hentry, bind, Except.bind, decide_eq_true_eq]
  rfl

theorem scanBlock_end {size : Nat} (block name : List UInt8) {offset : Nat}
    (hroom : size < offset + DIR_ENTRY_SIZE) : scanBlock size block name offset = .ok none := by
  rw [scanBlock, dif_neg (by omega)]
  rfl

/-- Whatever the block holds, the scan ends and stays inside it. -/
theorem scanBlock_ok {size : Nat} {block : List UInt8} (hlength : block.length = size)
    (name : List UInt8) (offset : Nat) : ∃ found, scanBlock size block name offset = .ok found := by
  -- A turn that goes on moves by the length of a record, which is not 0 then.
  induction hrest : size - offset using Nat.strongRecOn generalizing offset with
  | ind rest ih =>
    by_cases hroom : offset + DIR_ENTRY_SIZE ≤ size
    · rw [scanBlock_room hlength name hroom]
      split
      · exact ⟨none, rfl⟩
      · split
        · exact ⟨some (entryInode block offset), rfl⟩
        · have hsize : DIR_ENTRY_SIZE = 264 := rfl
          exact ih (size - (offset + recLen block offset)) (by omega) _ rfl
    · exact ⟨none, scanBlock_end block name (by omega)⟩

/-! ## The scan of a chain -/

theorem Chain.le_of_mem {block : List UInt8} {offset : Nat} {offsets : List Nat}
    (h : Chain block offset offsets) : ∀ other ∈ offsets, offset ≤ other := by
  induction h with
  | done => simp
  | record aligned room next ih =>
      intro other hother
      rcases List.mem_cons.mp hother with rfl | hother
      · exact Nat.le_refl _
      · have := ih other hother
        omega

/-- The scan takes the first record with the name that has the room of a whole structure. -/
theorem scanBlock_chain {size : Nat} {block : List UInt8} (hlength : block.length = size)
    (name : List UInt8) {offset : Nat} {offsets : List Nat} (h : Chain block offset offsets) :
    scanBlock size block name offset =
      .ok ((offsets.find? fun other =>
        decide (other + DIR_ENTRY_SIZE ≤ size) && decide (Carries block name other)).map
          (entryInode block)) := by
  induction h with
  | done =>
      have hsize : DIR_ENTRY_SIZE = 264 := rfl
      exact scanBlock_end block name (by omega)
  | @record offset rest aligned room next ih =>
      by_cases hroom : offset + DIR_ENTRY_SIZE ≤ size
      · have hmoves : recLen block offset ≠ 0 := by omega
        rw [scanBlock_room hlength name hroom, if_neg hmoves]
        by_cases hcarries : Carries block name offset
        · simp [hcarries, hroom]
        · rw [if_neg hcarries, ih]
          simp [hcarries]
      · -- All records behind it begin nearer to the end.
        have hlate : ∀ other ∈ offset :: rest, ¬other + DIR_ENTRY_SIZE ≤ size := by
          intro other hother
          have := (Chain.record aligned room next).le_of_mem other hother
          omega
        rw [scanBlock_end block name (by omega), List.find?_eq_none.mpr]
        · rfl
        · intro other hother
          simp [hlate other hother]

namespace Ext2

variable {fs : Ext2}

/-- One turn of the outer loop. -/
theorem findInBlocks_cons {name : List UInt8} {block_num : Nat} (hne : block_num ≠ 0)
    {block : List UInt8} (hread : fs.readBlock block_num = some block) {found : Option Nat}
    (hscan : scanBlock fs.g_block_size block name 0 = .ok found) (rest : List Nat) :
    fs.findInBlocks name (block_num :: rest) =
      found.elim (fs.findInBlocks name rest) fun found_inode => .ok (some found_inode) := by
  rw [findInBlocks, if_neg hne, hread]
  simp only [hscan, bind, Except.bind]
  cases found with
  | none => rfl
  | some found_inode => rfl

theorem findInBlocks_zero (name : List UInt8) (rest : List Nat) :
    fs.findInBlocks name (0 :: rest) = .ok none :=
  rfl

theorem findInDirectory_of_get {n : Nat} {dir : Inode} (hget : fs.getInode n = .ok (some dir))
    (hdir : dir.isDir = true) (name : List UInt8) :
    fs.findInDirectory true n name =
      fs.findInBlocks name (dir.i_block.take EXT2_NDIR_BLOCKS) := by
  simp only [findInDirectory, hget, bind, Except.bind, hdir]
  rfl

/-- The search ends on any blocks. -/
theorem findInBlocks_ok (name : List UInt8) (blocks : List Nat) :
    ∃ found, fs.findInBlocks name blocks = .ok found := by
  induction blocks with
  | nil => exact ⟨none, rfl⟩
  | cons block_num rest ih =>
      by_cases hne : block_num = 0
      · exact ⟨none, hne ▸ findInBlocks_zero name rest⟩
      · cases hread : fs.readBlock block_num with
        | none => exact ⟨none, by rw [findInBlocks, if_neg hne, hread]; rfl⟩
        | some block =>
            obtain ⟨found, hscan⟩ := scanBlock_ok (length_readBlock hread) name 0
            rw [findInBlocks_cons hne hread hscan]
            cases found with
            | none => exact ih
            | some found_inode => exact ⟨some found_inode, rfl⟩

/-- The lookup ends without an access outside a block; only `GetInode` can divide by zero. -/
theorem findInDirectory_ok (allocated : Bool) (n : Nat) (name : List UInt8) :
    (∃ found, fs.findInDirectory allocated n name = .ok found) ∨
      fs.g_superblock.s_inodes_per_group = 0 ∧
        fs.findInDirectory allocated n name = .error .divisionByZero := by
  by_cases hgroup : fs.g_superblock.s_inodes_per_group = 0
  · refine Or.inr ⟨hgroup, ?_⟩
    rw [findInDirectory, getInode, if_pos hgroup]
    rfl
  · refine Or.inl ?_
    rw [findInDirectory, getInode, if_neg hgroup]
    cases (preadAll fs.g_device_fd 128 (fs.inodeOffset n)).map Inode.ofBytes with
    | none => exact ⟨none, rfl⟩
    | some dir =>
        change ∃ found, (if dir.isDir = false then _ else _) = _
        split
        · exact ⟨none, rfl⟩
        · split
          · exact ⟨none, rfl⟩
          · exact findInBlocks_ok name _

end Ext2

/-! ## The search in a directory -/

section

variable {fs : Ext2} {dir : Inode} {name : List UInt8}

/-- The scan of a block finds its roomy entries, and nothing else. -/
theorem scanBlock_finds (name : List UInt8) {block_num : Nat} {block : List UInt8}
    {offsets : List Nat}
    (hread : fs.readBlock block_num = some block) (hchain : Chain block 0 offsets) :
    ∃ found, scanBlock fs.g_block_size block name 0 = .ok found ∧
      (∀ inode, found = some inode → RoomyAt fs name inode block_num) ∧
      ((∃ inode, RoomyAt fs name inode block_num) → ∃ inode, found = some inode) := by
  have hlength := Ext2.length_readBlock hread
  refine ⟨_, scanBlock_chain hlength name hchain, ?_, ?_⟩
  · intro inode hfound
    obtain ⟨offset, hfind, rfl⟩ := Option.map_eq_some_iff.mp hfound
    have htest := List.find?_some hfind
    rw [Bool.and_eq_true, decide_eq_true_eq, decide_eq_true_eq] at htest
    exact ⟨offset, ⟨block, offsets, hread, hchain, List.mem_of_find?_eq_some hfind, htest.2, rfl⟩,
      htest.1⟩
  · rintro ⟨inode, offset, ⟨block', offsets', hread', hchain', hmem, hcarries, -⟩, hroom⟩
    -- Another chain of the same block is scanned to the same end.
    obtain rfl : block = block' := Option.some.inj (hread.symm.trans hread')
    have hsame := (scanBlock_chain hlength name hchain).symm.trans
      (scanBlock_chain hlength name hchain')
    rw [Except.ok.inj hsame]
    have hsome : (offsets'.find? fun other => decide (other + DIR_ENTRY_SIZE ≤ fs.g_block_size) &&
        decide (Carries block name other)).isSome := by
      rw [List.find?_isSome]
      exact ⟨offset, hmem, by simp [hroom, hcarries]⟩
    obtain ⟨first, hfirst⟩ := Option.isSome_iff_exists.mp hsome
    exact ⟨entryInode block first, by rw [hfirst]; rfl⟩

theorem findInBlocks_finds (name : List UInt8) (free : Nat) {blocks : List Nat}
    (hchains : ∀ block_num ∈ blocks, block_num ≠ 0 ∧
      ∃ block offsets, fs.readBlock block_num = some block ∧ Chain block 0 offsets) :
    ∃ found, fs.findInBlocks name (blocks ++ List.replicate free 0) = .ok found ∧
      (∀ inode, found = some inode → ∃ block_num ∈ blocks, RoomyAt fs name inode block_num) ∧
      ((∃ inode, ∃ block_num ∈ blocks, RoomyAt fs name inode block_num) →
        ∃ inode, found = some inode) := by
  induction blocks with
  | nil =>
      refine ⟨none, ?_, by simp, by simp⟩
      cases free with
      | zero => rfl
      | succ free => rfl
  | cons block_num rest ih =>
      obtain ⟨hne, block, offsets, hread, hchain⟩ := hchains block_num (List.mem_cons_self ..)
      obtain ⟨found, hscan, honly, hfinds⟩ := scanBlock_finds name hread hchain
      rw [List.cons_append, Ext2.findInBlocks_cons hne hread hscan]
      cases found with
      | some found_inode =>
          refine ⟨some found_inode, rfl, ?_, fun _ => ⟨found_inode, rfl⟩⟩
          intro inode hinode
          exact ⟨block_num, List.mem_cons_self .., honly inode hinode⟩
      | none =>
          obtain ⟨found, hrest, honlyRest, hfindsRest⟩ := ih fun other hother =>
            hchains other (List.mem_cons_of_mem _ hother)
          refine ⟨found, hrest, ?_, ?_⟩
          · intro inode hinode
            obtain ⟨other, hother, hroomy⟩ := honlyRest inode hinode
            exact ⟨other, List.mem_cons_of_mem _ hother, hroomy⟩
          · rintro ⟨inode, other, hother, hroomy⟩
            rcases List.mem_cons.mp hother with rfl | hother
            · obtain ⟨_, hnone⟩ := hfinds ⟨inode, hroomy⟩
              cases hnone
            · exact hfindsRest ⟨inode, other, hother, hroomy⟩

theorem Inode.ne_zero_of_mem_blocks {block_num : Nat} (h : block_num ∈ dir.blocks) :
    block_num ≠ 0 :=
  of_decide_eq_true (List.mem_filter.mp h).2

/-- What the lookup yields: a roomy entry, if memory is there. -/
theorem findInDirectory_finds (name : List UInt8) {n : Nat} (hget : fs.getInode n = .ok (some dir))
    (hdir : dir.isDir = true) (hformed : DirectoryFormed fs dir) (allocated : Bool) :
    ∃ found, fs.findInDirectory allocated n name = .ok found ∧
      (∀ inode, found = some inode → allocated = true ∧ RoomyEntry fs dir name inode) ∧
      (allocated = true → (∃ inode, RoomyEntry fs dir name inode) →
        ∃ inode, found = some inode) := by
  cases allocated with
  | false =>
      simp only [Ext2.findInDirectory, hget, bind, Except.bind, hdir]
      exact ⟨none, rfl, by simp, by simp⟩
  | true =>
      obtain ⟨free, hdirect⟩ := hformed.direct
      obtain ⟨found, hfound, honly, hfinds⟩ := findInBlocks_finds name free
        fun block_num hmem => ⟨Inode.ne_zero_of_mem_blocks hmem, hformed.chains block_num hmem⟩
      rw [Ext2.findInDirectory_of_get hget hdir, hdirect]
      exact ⟨found, hfound, fun inode hinode => ⟨rfl, honly inode hinode⟩, fun _ => hfinds⟩

theorem RoomyEntry.live {inode : Nat} (h : RoomyEntry fs dir name inode) :
    LiveEntry fs dir name inode := by
  obtain ⟨block_num, hmem, offset, hentry, -⟩ := h
  exact ⟨block_num, hmem, offset, hentry⟩

theorem findsEntry_iff {n : Nat} (hget : fs.getInode n = .ok (some dir))
    (hdir : dir.isDir = true) (hformed : DirectoryFormed fs dir) (allocated : Bool) :
    FindsEntry fs dir allocated n name ↔
      ((∃ inode, LiveEntry fs dir name inode) →
        allocated = true ∧ ∃ inode, RoomyEntry fs dir name inode) := by
  obtain ⟨found, hfound, honly, hfinds⟩ := findInDirectory_finds name hget hdir hformed
    allocated
  constructor
  · rintro ⟨found', hfound', -, hlive⟩ hentry
    obtain rfl := Except.ok.inj (hfound.symm.trans hfound')
    obtain ⟨inode, hinode⟩ := hlive hentry
    exact ⟨(honly inode hinode).1, inode, (honly inode hinode).2⟩
  · intro hroomy
    refine ⟨found, hfound, fun inode hinode => (honly inode hinode).2.live, fun hentry => ?_⟩
    exact hfinds (hroomy hentry).1 (hroomy hentry).2

end

/-- The lookup ends and stays inside the blocks, whatever they hold.  In a directory of
chains it finds what there is exactly if a live entry of the name, where there is one, has
the room of a whole structure. -/
theorem findInDirectory_finds_iff (fs : Ext2) (allocated : Bool) (n : Nat) (name : List UInt8) :
    ((∃ found, fs.findInDirectory allocated n name = .ok found) ∨
      fs.g_superblock.s_inodes_per_group = 0 ∧
        fs.findInDirectory allocated n name = .error .divisionByZero) ∧
      ∀ dir : Inode, fs.getInode n = .ok (some dir) → dir.isDir = true → DirectoryFormed fs dir →
        (FindsEntry fs dir allocated n name ↔
          ((∃ inode, LiveEntry fs dir name inode) →
            allocated = true ∧ ∃ inode, RoomyEntry fs dir name inode)) :=
  ⟨Ext2.findInDirectory_ok allocated n name,
    fun _ hget hdir hformed => findsEntry_iff hget hdir hformed allocated⟩

/-! ### A name at the end of a block -/

/-- Inode 2 of the sample. -/
def sampleDirectory : Inode := ⟨0x41ed, 1024, 0, 5 :: List.replicate 14 0⟩

theorem sampleDirectory_get : sampleImage.getInode 2 = .ok (some sampleDirectory) := by
  have hplace := sampleImage_valid.inodeOffset_eq (n := 2) (by decide) (by decide) (Or.inr rfl)
  have hinode : inodeOf sampleDevice sampleSuperBlock 2 = sampleDirectory := by
    rw [sampleImage_inodeOf (by decide) (by decide)]
    decide
  rw [sampleImage_valid.getInode_eq (by decide) (by decide) hplace, hinode]

theorem sampleDirectory_block :
    sampleImage.readBlock 5 = some (sampleDevice.pread 1024 5120) :=
  preadAll_of_le (by decide)

theorem sampleDirectory_chain : Chain (sampleDevice.pread 1024 5120) 0 [0, 12, 1000] := by
  have hlength : (sampleDevice.pread 1024 5120).length = 1024 := by
    rw [Device.length_pread]
    decide
  have hdot : recLen (sampleDevice.pread 1024 5120) 0 = 12 := by decide +kernel
  have hdots : recLen (sampleDevice.pread 1024 5120) 12 = 988 := by decide +kernel
  have hname : recLen (sampleDevice.pread 1024 5120) 1000 = 24 := by decide +kernel
  apply Chain.record (by rw [hdot]) (by decide +kernel)
  rw [hdot]
  apply Chain.record (by rw [hdots]) (by decide +kernel)
  rw [hdots]
  apply Chain.record (by rw [hname]) (by decide +kernel)
  rw [hname]
  convert Chain.done
  exact hlength.symm

theorem sampleDirectory_formed : DirectoryFormed sampleImage sampleDirectory where
  direct := ⟨11, by decide⟩
  chains block_num hmem := by
    obtain rfl : block_num = 5 := by
      simpa [Inode.blocks, sampleDirectory, EXT2_NDIR_BLOCKS] using hmem
    exact ⟨_, _, sampleDirectory_block, sampleDirectory_chain⟩

/-- The last entry of a block is not found. -/
theorem findInDirectory_misses : openDevice sampleDevice = some sampleImage ∧
    sampleImage.getInode 2 = .ok (some sampleDirectory) ∧ sampleDirectory.isDir = true ∧
      DirectoryFormed sampleImage sampleDirectory ∧
      LiveEntry sampleImage sampleDirectory [97] 13 ∧
      sampleImage.findInDirectory true 2 [97] = .ok none ∧
      ¬FindsEntry sampleImage sampleDirectory true 2 [97] := by
  have hlive : LiveEntry sampleImage sampleDirectory [97] 13 :=
    ⟨5, by decide, 1000, _, _, sampleDirectory_block, sampleDirectory_chain, by decide,
      by decide +kernel, by decide +kernel⟩
  have hscan : scanBlock sampleImage.g_block_size (sampleDevice.pread 1024 5120) [97] 0 =
      .ok none := by
    rw [scanBlock_chain (Ext2.length_readBlock sampleDirectory_block) [97] sampleDirectory_chain,
      List.find?_eq_none.mpr]
    · rfl
    · decide +kernel
  have hnone : sampleImage.findInDirectory true 2 [97] = .ok none := by
    rw [Ext2.findInDirectory_of_get sampleDirectory_get rfl]
    exact Ext2.findInBlocks_cons (by decide) sampleDirectory_block hscan (List.replicate 11 0)
  refine ⟨sampleImage_opened, sampleDirectory_get, rfl, sampleDirectory_formed, hlive, hnone, ?_⟩
  rintro ⟨found, hfound, -, hfinds⟩
  obtain rfl := Except.ok.inj (hnone.symm.trans hfound)
  obtain ⟨_, hinode⟩ := hfinds ⟨13, hlive⟩
  cases hinode

theorem findInDirectory_finds_iff_sample :
    FindsEntry sampleImage sampleDirectory true 2 [46] := by
  have hfinds := (findInDirectory_finds_iff sampleImage true 2 [46]).2 sampleDirectory
    sampleDirectory_get rfl sampleDirectory_formed
  refine hfinds.mpr fun _ => ⟨rfl, 2, 5, by decide, 0, ?_, by decide⟩
  exact ⟨_, _, sampleDirectory_block, sampleDirectory_chain, by decide, by decide +kernel,
    by decide +kernel⟩

end Sys
end InfinityLabs
