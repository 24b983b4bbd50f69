import InfinityLabs.Alloc.Words
import InfinityLabs.Lib.Links
import InfinityLabs.Lib.Runs
import Mathlib.Data.List.Basic
import Mathlib.Logic.Function.Basic

/-!
# The fixed-size allocator

`projects/fsa/src/fsa.c`.  Memory is its words by their addresses.  The first word of the
pool is the offset of the first free block, and the first word of a free block is the
offset of the next one.

A loop is cut off after a number of rounds; `none` says that it takes more.
-/

namespace InfinityLabs
namespace Alloc

open Lib

/-- The words of memory by their addresses. -/
abbrev Memory := Nat → Nat

/-- `sizeof(fsa_t)`. -/
def SIZEOF_FSA : Nat := 8

/-- `OFF_NULL`. -/
def OFF_NULL : Nat := 0

/-- `SetNextFree`. -/
def setNextFree (mem : Memory) (blockPtr nextOffset : Nat) : Memory :=
  Function.update mem blockPtr nextOffset

/-- `GetBlockFromOffset`. -/
def getBlockFromOffset (fsa offset : Nat) : Nat := fsa + offset

/-- `PtrToOffset`. -/
def ptrToOffset (fsa ptr : Nat) : Nat := ptr - fsa

/-- `FSASuggestSize`. -/
def fsaSuggestSize (blockAmount blockSize : Nat) : Nat :=
  if blockAmount = 0 ∨ blockSize = 0 then 0
  else (alignUp SIZEOF_FSA + blockAmount * alignUp blockSize) % 2 ^ 64

/-- The loop of `FSAInit`, with the offset that it ends at. -/
def fsaInitLoop (fsa poolSize alignedBlock : Nat) : Nat → Memory → Nat → Option (Memory × Nat)
  | 0, _, _ => none
  | rounds + 1, mem, offset =>
      let next := (offset + alignedBlock) % 2 ^ 64
      if next < poolSize then
        fsaInitLoop fsa poolSize alignedBlock rounds
          (setNextFree mem (getBlockFromOffset fsa offset) next) next
      else some (mem, offset)

/-- `FSAInit`; `none` is also a failed assertion. -/
def fsaInit (rounds : Nat) (mem : Memory) (pool poolSize blockSize : Nat) : Option Memory :=
  if pool = 0 ∨ poolSize = 0 ∨ blockSize = 0 then none
  else
    let alignedBlock := alignUp blockSize
    let mem := setNextFree mem pool SIZEOF_FSA
    (fsaInitLoop pool poolSize alignedBlock rounds mem SIZEOF_FSA).map fun (mem, offset) =>
      let mem := setNextFree mem (getBlockFromOffset pool offset) OFF_NULL
      Function.update mem pool SIZEOF_FSA

/-- `FSAAlloc`. -/
def fsaAlloc (mem : Memory) (fsa : Nat) : Memory × Option Nat :=
  if mem fsa = OFF_NULL then (mem, none)
  else
    let block := fsa + mem fsa
    (Function.update mem fsa (mem block), some block)

/-- `FSAFree`. -/
def fsaFree (mem : Memory) (fsa : Nat) : Option Nat → Memory
  | none => mem
  | some block =>
      let oldHead := mem fsa
      Function.update (Function.update mem block oldHead) fsa (ptrToOffset fsa block)

/-- The loop of `FSACountFree`. -/
def fsaCountLoop (mem : Memory) (fsa : Nat) : Nat → Nat → Nat → Option Nat
  | 0, _, _ => none
  | rounds + 1, offset, count =>
      if offset ≠ OFF_NULL then fsaCountLoop mem fsa rounds (mem (fsa + offset)) (count + 1)
      else some count

/-- `FSACountFree`. -/
def fsaCountFree (rounds : Nat) (mem : Memory) (fsa : Nat) : Option Nat :=
  fsaCountLoop mem fsa rounds (mem fsa) 0

/-!
## The pool of the fixed-size allocator

A pool of the suggested size is cut into blocks behind its first word.  In every run of
allocations, frees and writes of the owners into their blocks, the free list and the live
blocks are these blocks, each of them once.
-/

/-! ## Pools -/

/-- A word-aligned pool for blocks of a size, where no size wraps. -/
structure FsaPool where
  base : Nat
  blockAmount : Nat
  blockSize : Nat
  base_pos : 0 < base
  base_aligned : WORD_SIZE ∣ base
  amount_pos : 1 ≤ blockAmount
  size_pos : 1 ≤ blockSize
  size_fits : blockSize + WORD_SIZE ≤ 2 ^ 64
  pool_fits : SIZEOF_FSA + blockAmount * alignUp blockSize < 2 ^ 64

namespace FsaPool

variable (pool : FsaPool)

/-- The length of a block, a whole number of words. -/
def blockLength : Nat := alignUp pool.blockSize

/-- The size of the pool. -/
def poolSize : Nat := fsaSuggestSize pool.blockAmount pool.blockSize

/-- The addresses of the blocks. -/
def blocks : List Nat :=
  List.range' (pool.base + SIZEOF_FSA) pool.blockAmount pool.blockLength

/-- A block has room for its size, and is at least a word long. -/
theorem blockLength_bounds : pool.blockSize ≤ pool.blockLength ∧ WORD_SIZE ≤ pool.blockLength := by
  obtain ⟨hle, -⟩ := alignUp_bounds pool.size_fits
  refine ⟨hle, Nat.le_of_dvd ?_ (dvd_alignUp _)⟩
  exact Nat.lt_of_lt_of_le pool.size_pos hle

/-- The suggested size is the first word and the blocks. -/
theorem poolSize_eq : pool.poolSize = SIZEOF_FSA + pool.blockAmount * pool.blockLength := by
  have hamount := pool.amount_pos
  have hsize := pool.size_pos
  have hmeta : alignUp SIZEOF_FSA = SIZEOF_FSA := by decide
  rw [poolSize, fsaSuggestSize, if_neg (by omega), blockLength, hmeta,
    Nat.mod_eq_of_lt pool.pool_fits]

/-- The addresses of the blocks. -/
theorem mem_blocks {x : Nat} :
    x ∈ pool.blocks ↔
      ∃ k < pool.blockAmount, x = pool.base + SIZEOF_FSA + pool.blockLength * k := by
  rw [blocks, List.mem_range']

/-- Two blocks are apart. -/
theorem apart {x y : Nat} (hx : x ∈ pool.blocks) (hy : y ∈ pool.blocks) (hne : x ≠ y) :
    x + pool.blockLength ≤ y ∨ y + pool.blockLength ≤ x := by
  obtain ⟨i, -, rfl⟩ := pool.mem_blocks.mp hx
  obtain ⟨j, -, rfl⟩ := pool.mem_blocks.mp hy
  rcases Nat.lt_trichotomy i j with hij | rfl | hji
  · have hstep := Nat.mul_le_mul_left pool.blockLength (Nat.succ_le_of_lt hij)
    rw [Nat.mul_succ] at hstep
    omega
  · exact absurd rfl hne
  · have hstep := Nat.mul_le_mul_left pool.blockLength (Nat.succ_le_of_lt hji)
    rw [Nat.mul_succ] at hstep
    omega

/-- A block is inside the pool, behind its first word. -/
theorem inside {x : Nat} (hx : x ∈ pool.blocks) :
    pool.base + SIZEOF_FSA ≤ x ∧ x + pool.blockLength ≤ pool.base + pool.poolSize := by
  obtain ⟨k, hk, rfl⟩ := pool.mem_blocks.mp hx
  have hstep := Nat.mul_le_mul_left pool.blockLength (Nat.succ_le_of_lt hk)
  rw [Nat.mul_succ] at hstep
  rw [pool.poolSize_eq, Nat.mul_comm pool.blockAmount]
  omega

/-- A block begins at a word. -/
theorem dvd_of_mem {x : Nat} (hx : x ∈ pool.blocks) : WORD_SIZE ∣ x := by
  obtain ⟨k, -, rfl⟩ := pool.mem_blocks.mp hx
  have hfirst : WORD_SIZE ∣ SIZEOF_FSA := Nat.dvd_refl _
  have hlength : WORD_SIZE ∣ pool.blockLength := dvd_alignUp _
  exact Nat.dvd_add (Nat.dvd_add pool.base_aligned hfirst) (Nat.dvd_mul_right_of_dvd hlength k)

/-- There are as many blocks as were asked for, each of them once. -/
theorem length_blocks : pool.blocks.length = pool.blockAmount := List.length_range'

/-- No block is listed twice. -/
theorem nodup_blocks : pool.blocks.Nodup := by
  have hword : 0 < WORD_SIZE := by decide
  exact List.nodup_range' _ (Nat.lt_of_lt_of_le hword pool.blockLength_bounds.2)

end FsaPool

/-! ## Initialisation -/

/-- The link of a free block: its first word. -/
def link (mem : Memory) (fsa offset : Nat) : Nat := mem (fsa + offset)

/-- **The loop of `FSAInit`** from the offset of a block to the last one: it writes no word
before the block, and with the end of the list in the last block it has linked them all. -/
theorem fsaInitLoop_spec (fsa poolSize a : Nat) (ha : 0 < a) (hpool : poolSize < 2 ^ 64)
    (blocks : Nat) {rounds : Nat} (hrounds : blocks < rounds) (mem : Memory) (offset : Nat)
    (hoffset : 0 < offset) (hend : offset + (blocks + 1) * a = poolSize) :
    ∃ mem' last, fsaInitLoop fsa poolSize a rounds mem offset = some (mem', last) ∧
      offset ≤ last ∧ (∀ x < fsa + offset, mem' x = mem x) ∧
      Linked (link (Function.update mem' (fsa + last) OFF_NULL) fsa) offset
        (List.range' offset (blocks + 1) a) := by
  induction blocks generalizing rounds mem offset with
  | zero =>
      obtain ⟨rounds, rfl⟩ := Nat.exists_eq_succ_of_ne_zero (Nat.ne_of_gt hrounds)
      refine ⟨mem, offset, ?_, Nat.le_refl _, fun _ _ => rfl, rfl, Nat.ne_of_gt hoffset, ?_⟩
      · rw [fsaInitLoop, if_neg]
        rw [Nat.mod_eq_of_lt (by omega)]
        omega
      · exact Function.update_self _ _ _
  | succ blocks ih =>
      obtain ⟨rounds, rfl⟩ := Nat.exists_eq_succ_of_ne_zero
        (Nat.ne_of_gt (Nat.lt_of_le_of_lt (Nat.zero_le _) hrounds))
      have hgrow : (blocks + 1 + 1) * a = (blocks + 1) * a + a := Nat.succ_mul _ _
      have hlater : a ≤ (blocks + 1) * a := Nat.le_mul_of_pos_left a (Nat.succ_pos _)
      have hnext : (offset + a) % 2 ^ 64 = offset + a := Nat.mod_eq_of_lt (by omega)
      obtain ⟨mem', last, hloop, hlast, hsame, hlinked⟩ :=
        ih (Nat.lt_of_succ_lt_succ hrounds) (setNextFree mem (fsa + offset) (offset + a))
          (offset + a) (by omega) (by omega)
      refine ⟨mem', last, ?_, by omega, fun x hx => ?_, rfl, Nat.ne_of_gt hoffset, ?_⟩
      · rw [fsaInitLoop]
        simp only [hnext]
        rw [if_pos (by omega)]
        exact hloop
      · rw [hsame x (by omega)]
        exact Function.update_of_ne (by omega) _ _
      · have hlink : link (Function.update mem' (fsa + last) OFF_NULL) fsa offset =
            offset + a := by
          rw [link, Function.update_of_ne (by omega), hsame _ (by omega)]
          exact Function.update_self _ _ _
        rw [hlink]
        exact hlinked

/-- The links do not depend on the first word of the pool. -/
theorem link_update_fsa (mem : Memory) {fsa offset : Nat} (value : Nat) (hoffset : offset ≠ 0) :
    link (Function.update mem fsa value) fsa offset = link mem fsa offset :=
  Function.update_of_ne (by omega) _ _

/-- **`FSAInit` links all blocks**, in as many rounds as there are blocks. -/
theorem fsaInit_spec (pool : FsaPool) (mem : Memory) :
    ∃ mem', fsaInit pool.blockAmount mem pool.base pool.poolSize pool.blockSize = some mem' ∧
      mem' pool.base = SIZEOF_FSA ∧
      Linked (link mem' pool.base) SIZEOF_FSA
        (List.range' SIZEOF_FSA pool.blockAmount pool.blockLength) := by
  obtain ⟨blocks, hblocks⟩ := Nat.exists_eq_succ_of_ne_zero (Nat.ne_of_gt pool.amount_pos)
  have hword : 0 < WORD_SIZE := by decide
  have hsize := pool.poolSize_eq
  have hfits : pool.poolSize < 2 ^ 64 := by
    rw [hsize]
    exact pool.pool_fits
  have hbase := pool.base_pos
  have hblock := pool.size_pos
  obtain ⟨mem', last, hloop, hlast, -, hlinked⟩ :=
    fsaInitLoop_spec pool.base pool.poolSize pool.blockLength
      (Nat.lt_of_lt_of_le hword pool.blockLength_bounds.2) hfits blocks
      (Nat.lt_of_succ_le (Nat.le_of_eq hblocks.symm)) (setNextFree mem pool.base SIZEOF_FSA)
      SIZEOF_FSA (by decide) (by rw [hsize, hblocks])
  refine ⟨Function.update (setNextFree mem' (getBlockFromOffset pool.base last) OFF_NULL)
    pool.base SIZEOF_FSA, ?_, Function.update_self _ _ _, ?_⟩
  · rw [fsaInit, if_neg (by rw [hsize, SIZEOF_FSA]; omega)]
    dsimp only
    rw [show alignUp pool.blockSize = pool.blockLength from rfl, hloop]
    rfl
  · rw [hblocks]
    apply hlinked.congr
    intro x hx
    exact link_update_fsa _ _ (hlinked.ne_zero x hx)

/-! ## The machine -/

/-- The memory of a pool, and the live blocks. -/
structure FsaState where
  mem : Memory
  live : List Nat

/-- The calls on the pool, and a word that an owner writes into a live block. -/
inductive FsaAction where
  | alloc
  | free (block : Nat)
  | write (address value : Nat)

/-- The word at `address` belongs to the owner of `block`. -/
def FsaPool.Owns (pool : FsaPool) (block address : Nat) : Prop :=
  block ≤ address ∧ address < block + pool.blockSize ∧ WORD_SIZE ∣ address

instance (pool : FsaPool) (block address : Nat) : Decidable (pool.Owns block address) :=
  inferInstanceAs (Decidable (_ ∧ _ ∧ _))

/-- A step.  Only live blocks are freed and written to. -/
def FsaState.step (pool : FsaPool) (s : FsaState) : FsaAction → Option FsaState
  | .alloc =>
      let (mem, block) := fsaAlloc s.mem pool.base
      some ⟨mem, block.toList ++ s.live⟩
  | .free block =>
      if block ∈ s.live then
        some ⟨fsaFree s.mem pool.base (some block), s.live.erase block⟩
      else none
  | .write address value =>
      if ∃ block ∈ s.live, pool.Owns block address then
        some { s with mem := Function.update s.mem address value }
      else none

/-- The runs that start with `FSAInit` on any memory. -/
def fsaMachine (pool : FsaPool) : Machine FsaState FsaAction where
  start s := s.live = [] ∧ ∃ mem,
    fsaInit pool.blockAmount mem pool.base pool.poolSize pool.blockSize = some s.mem
  step s a := s.step pool a

/-! ## The invariant -/

/-- The free list, as offsets, and the live blocks are the blocks of the pool. -/
def FsaState.Wf (pool : FsaPool) (s : FsaState) (free : List Nat) : Prop :=
  Linked (link s.mem pool.base) (s.mem pool.base) free ∧
    (free.map (pool.base + ·) ++ s.live).Perm pool.blocks

variable {pool : FsaPool} {s s' : FsaState} {free : List Nat}

/-- A live block is a block of the pool. -/
theorem FsaState.Wf.live_mem (h : s.Wf pool free) {x : Nat} (hx : x ∈ s.live) :
    x ∈ pool.blocks :=
  h.2.mem_iff.mp (List.mem_append_right _ hx)

/-- A free block is a block of the pool. -/
theorem FsaState.Wf.free_mem (h : s.Wf pool free) {o : Nat} (ho : o ∈ free) :
    pool.base + o ∈ pool.blocks :=
  h.2.mem_iff.mp (List.mem_append_left _ (List.mem_map_of_mem ho))

/-- No block is free and live. -/
theorem FsaState.Wf.ne_of_mem (h : s.Wf pool free) {o x : Nat} (ho : o ∈ free)
    (hx : x ∈ s.live) : pool.base + o ≠ x := by
  have hnodup := h.2.nodup_iff.mpr pool.nodup_blocks
  exact (List.nodup_append.mp hnodup).2.2 _ (List.mem_map_of_mem ho) x hx

/-- After `FSAInit` all blocks are free. -/
theorem FsaState.wf_start (hstart : (fsaMachine pool).start s) :
    s.Wf pool (List.range' SIZEOF_FSA pool.blockAmount pool.blockLength) := by
  obtain ⟨hlive, mem, hinit⟩ := hstart
  obtain ⟨mem', hinit', hhead, hlinked⟩ := fsaInit_spec pool mem
  rw [hinit] at hinit'
  obtain rfl := Option.some.inj hinit'
  refine ⟨hhead ▸ hlinked, ?_⟩
  rw [hlive, List.append_nil, List.map_add_range', FsaPool.blocks]

/-- `FSAAlloc` with a free block. -/
theorem FsaState.Wf.alloc (h : s.Wf pool free) (hhead : s.mem pool.base ≠ OFF_NULL) :
    ∃ rest block, fsaAlloc s.mem pool.base =
        (Function.update s.mem pool.base (s.mem block), some block) ∧
      FsaState.Wf pool
        ⟨Function.update s.mem pool.base (s.mem block), block :: s.live⟩ rest := by
  obtain ⟨hlinked, hperm⟩ := h
  obtain ⟨rest, rfl, hrest⟩ := hlinked.eq_cons hhead
  refine ⟨rest, pool.base + s.mem pool.base, by rw [fsaAlloc, if_neg hhead], ?_, ?_⟩
  · show Linked _ (Function.update s.mem pool.base _ pool.base) rest
    rw [Function.update_self]
    exact hrest.congr fun x hx => link_update_fsa _ _ (hrest.ne_zero x hx)
  · exact List.perm_middle.trans hperm

/-- `FSAFree` of a live block. -/
theorem FsaState.Wf.freed (h : s.Wf pool free) {block : Nat} (hblock : block ∈ s.live) :
    FsaState.Wf pool ⟨fsaFree s.mem pool.base (some block), s.live.erase block⟩
      (ptrToOffset pool.base block :: free) := by
  have hinside := pool.inside (h.live_mem hblock)
  have hoffset : pool.base + ptrToOffset pool.base block = block := by
    rw [ptrToOffset]
    omega
  have hne : ptrToOffset pool.base block ≠ 0 := by
    intro hzero
    have hword : 0 < SIZEOF_FSA := by decide
    omega
  refine ⟨⟨Function.update_self _ _ _, hne, ?_⟩, ?_⟩
  · have hlink : link (fsaFree s.mem pool.base (some block)) pool.base
        (ptrToOffset pool.base block) = s.mem pool.base := by
      rw [fsaFree, link_update_fsa _ _ hne, link, hoffset]
      exact Function.update_self _ _ _
    rw [hlink]
    apply h.1.congr
    intro x hx
    rw [fsaFree, link_update_fsa _ _ (h.1.ne_zero x hx), link]
    exact Function.update_of_ne (h.ne_of_mem hx hblock) _ _
  · rw [List.map_cons, hoffset]
    refine List.Perm.trans ?_ h.2
    exact (List.perm_middle.symm).trans
      ((List.perm_cons_erase hblock).symm.append_left (free.map (pool.base + ·)))

/-- A write into a live block. -/
theorem FsaState.Wf.write (h : s.Wf pool free) {block address : Nat} (hblock : block ∈ s.live)
    (howns : pool.Owns block address) (value : Nat) :
    FsaState.Wf pool { s with mem := Function.update s.mem address value } free := by
  obtain ⟨hle, hlt, -⟩ := howns
  have hlength := pool.blockLength_bounds.1
  have hinside := pool.inside (h.live_mem hblock)
  have hword : 0 < SIZEOF_FSA := by decide
  refine ⟨?_, h.2⟩
  show Linked _ (Function.update s.mem address value pool.base) free
  rw [Function.update_of_ne (by omega)]
  apply h.1.congr
  intro x hx
  have hapart := pool.apart (h.free_mem hx) (h.live_mem hblock) (h.ne_of_mem hx hblock)
  have hbounds := pool.blockLength_bounds
  have hsize := pool.size_pos
  exact Function.update_of_ne (by omega) _ _

/-- A step keeps the invariant. -/
theorem FsaState.Wf.step (h : s.Wf pool free) {a : FsaAction} (hstep : s.step pool a = some s') :
    ∃ free', s'.Wf pool free' := by
  cases a with
  | alloc =>
      rw [FsaState.step] at hstep
      by_cases hhead : s.mem pool.base = OFF_NULL
      · rw [fsaAlloc, if_pos hhead] at hstep
        obtain rfl := Option.some.inj hstep
        exact ⟨free, h⟩
      · obtain ⟨rest, block, halloc, hwf⟩ := h.alloc hhead
        rw [halloc] at hstep
        obtain rfl := Option.some.inj hstep
        exact ⟨rest, hwf⟩
  | free block =>
      rw [FsaState.step] at hstep
      split at hstep
      · rename_i hblock
        obtain rfl := Option.some.inj hstep
        exact ⟨_, h.freed hblock⟩
      · cases hstep
  | write address value =>
      rw [FsaState.step] at hstep
      split at hstep
      · rename_i howned
        obtain ⟨block, hblock, howns⟩ := howned
        obtain rfl := Option.some.inj hstep
        exact ⟨free, h.write hblock howns value⟩
      · cases hstep

/-- **In every reachable pool the free list and the live blocks are the blocks.** -/
theorem fsaMachine_wf (hreached : (fsaMachine pool).Reached s) : ∃ free, s.Wf pool free := by
  refine hreached.invariant (I := fun s => ∃ free, s.Wf pool free) ?_ ?_
  · exact fun s hstart => ⟨_, FsaState.wf_start hstart⟩
  · rintro s a s' ⟨free, h⟩ - hstep
    exact h.step hstep

/-! ## Counting -/

/-- The loop of `FSACountFree` counts the places of a list, in one round more than there
are places. -/
theorem fsaCountLoop_eq {mem : Memory} {fsa offset : Nat} {free : List Nat}
    (hlinked : Linked (link mem fsa) offset free) {rounds : Nat} (hrounds : free.length < rounds)
    (count : Nat) : fsaCountLoop mem fsa rounds offset count = some (count + free.length) := by
  induction free generalizing offset rounds count with
  | nil =>
      obtain ⟨rounds, rfl⟩ := Nat.exists_eq_succ_of_ne_zero (Nat.ne_of_gt hrounds)
      have hend : offset = OFF_NULL := hlinked
      rw [fsaCountLoop, if_neg (not_not.mpr hend)]
      rfl
  | cons x free ih =>
      obtain ⟨rfl, hne, hrest⟩ := hlinked
      obtain ⟨rounds, rfl⟩ := Nat.exists_eq_succ_of_ne_zero
        (Nat.ne_of_gt (Nat.lt_of_le_of_lt (Nat.zero_le _) hrounds))
      have hplace : offset ≠ OFF_NULL := hne
      have hrest' := ih hrest (Nat.lt_of_succ_lt_succ hrounds) (count + 1)
      rw [fsaCountLoop, if_pos hplace, List.length_cons, Nat.add_comm free.length, ← Nat.add_assoc]
      exact hrest'

/-! ## The pool invariant -/

/-- What the allocator promises of its pool. -/
structure FsaState.Sound (pool : FsaPool) (s : FsaState) : Prop where
  blocks : ∃ free, Linked (link s.mem pool.base) (s.mem pool.base) free ∧
    (free.map (pool.base + ·) ++ s.live).length = pool.blockAmount ∧
    ((free.map (pool.base + ·) ++ s.live).Pairwise fun x y =>
      x + pool.blockLength ≤ y ∨ y + pool.blockLength ≤ x) ∧
    ∀ x ∈ free.map (pool.base + ·) ++ s.live, WORD_SIZE ∣ x ∧ pool.base + SIZEOF_FSA ≤ x ∧
      x + pool.blockLength ≤ pool.base + pool.poolSize
  block_long : pool.blockSize ≤ pool.blockLength
  countFree : fsaCountFree (pool.blockAmount + 1) s.mem pool.base =
    some (pool.blockAmount - s.live.length)
  alloc_null : (fsaAlloc s.mem pool.base).2 = none ↔ s.live.length = pool.blockAmount

/-- **The pool invariant**: in every reachable pool the live and the free blocks are
pairwise disjoint word-aligned blocks inside the pool, as many as were asked for;
`FSACountFree` ends with the number of those that are not live, and `FSAAlloc` returns
`NULL` exactly when all of them are. -/
theorem fsa_sound (pool : FsaPool) (hreached : (fsaMachine pool).Reached s) : s.Sound pool := by
  obtain ⟨free, h⟩ := fsaMachine_wf hreached
  have hlength := h.2.length_eq
  rw [pool.length_blocks] at hlength
  have hcount : free.length + s.live.length = pool.blockAmount := by simpa using hlength
  have hmem : ∀ x ∈ free.map (pool.base + ·) ++ s.live, x ∈ pool.blocks :=
    fun x hx => h.2.mem_iff.mp hx
  have hnodup := h.2.nodup_iff.mpr pool.nodup_blocks
  refine ⟨⟨free, h.1, hlength, ?_, fun x hx => ?_⟩, pool.blockLength_bounds.1, ?_, ?_⟩
  · exact hnodup.imp_of_mem fun hx hy hne => pool.apart (hmem _ hx) (hmem _ hy) hne
  · exact ⟨pool.dvd_of_mem (hmem x hx), pool.inside (hmem x hx)⟩
  · rw [fsaCountFree, fsaCountLoop_eq h.1 (by omega)]
    congr 1
    omega
  · rw [fsaAlloc]
    split
    · rename_i hhead
      have hnil : free = [] := (hhead ▸ h.1 : Linked _ OFF_NULL free).eq_nil
      rw [hnil, List.length_nil, Nat.zero_add] at hcount
      exact iff_of_true rfl hcount
    · rename_i hhead
      obtain ⟨rest, rfl, -⟩ := h.1.eq_cons hhead
      rw [List.length_cons] at hcount
      exact iff_of_false (by simp) (by omega)

/-- Two blocks of twelve bytes. -/
def samplePool : FsaPool where
  base := 4096
  blockAmount := 2
  blockSize := 12
  base_pos := by decide
  base_aligned := by decide
  amount_pos := by decide
  size_pos := by decide
  size_fits := by decide
  pool_fits := by decide

/-- The memory of the pool after its initialisation. -/
def sampleMemory : Memory :=
  (fsaInit 2 (fun _ => 0) 4096 (fsaSuggestSize 2 12) 12).getD fun _ => 0

/-- Both blocks are allocated and written to, and the first one is freed. -/
theorem fsa_sound_sample :
    ∃ s : FsaState, (s.live, s.mem 4096, s.mem 4104, s.mem 4120) = ([4120], 8, 0, 77) ∧
      s.Sound samplePool := by
  have hinit : fsaInit 2 (fun _ => 0) 4096 (fsaSuggestSize 2 12) 12 = some sampleMemory := rfl
  have hstart : (fsaMachine samplePool).Reached ⟨sampleMemory, []⟩ := .start ⟨rfl, _, hinit⟩
  have hrun : ((fsaMachine samplePool).run ⟨sampleMemory, []⟩
      [.alloc, .alloc, .write 4104 76, .write 4120 77, .free 4104]).map
        (fun s => (s.live, s.mem 4096, s.mem 4104, s.mem 4120)) =
          some ([4120], 8, 0, 77) := by
    decide +kernel
  obtain ⟨s, hs, hshown⟩ := hstart.run_map hrun
  exact ⟨s, hshown, fsa_sound samplePool hs⟩

end Alloc
end InfinityLabs
