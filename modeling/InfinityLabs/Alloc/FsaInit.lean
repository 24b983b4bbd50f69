import InfinityLabs.Alloc.Fsa

/-!
# Pools of every size

The loop of `FSAInit` compares the end of each block with the end of the pool, but not that
of the last one: it links this block without a comparison.  So the blocks are in the pool
only where they fill it exactly.
-/

namespace InfinityLabs
namespace Alloc

open Lib

/-- A call of `FSAInit` that its assertions admit, on a word-aligned pool of the address
space. -/
structure FsaInitCall where
  pool : Nat
  poolSize : Nat
  blockSize : Nat
  pool_pos : 0 < pool
  pool_aligned : WORD_SIZE ∣ pool
  poolSize_pos : 0 < poolSize
  blockSize_pos : 0 < blockSize
  pool_fits : pool + poolSize ≤ 2 ^ 64
  blockSize_lt : blockSize < 2 ^ 64

/-- `FSAInit` returns, the header is in the pool, and so is every block of the free list that
it leaves: the bytes of its size, and those up to the next block. -/
def FsaInitCall.InPool (call : FsaInitCall) (mem : Memory) : Prop :=
  ∃ rounds mem' free, fsaInit rounds mem call.pool call.poolSize call.blockSize = some mem' ∧
    Linked (link mem' call.pool) (mem' call.pool) free ∧
    SIZEOF_FSA ≤ call.poolSize ∧
    ∀ offset ∈ free, offset + alignUp call.blockSize ≤ call.poolSize ∧
      offset + call.blockSize ≤ call.poolSize

variable {fsa poolSize a rounds offset last : Nat} {mem mem' : Memory} {free : List Nat}

/-- A round of the loop links the block to the one behind, or ends at it. -/
theorem fsaInitLoop_succ
    (hloop : fsaInitLoop fsa poolSize a (rounds + 1) mem offset = some (mem', last)) :
    (offset + a) % 2 ^ 64 < poolSize ∧
        fsaInitLoop fsa poolSize a rounds
          (setNextFree mem (getBlockFromOffset fsa offset) ((offset + a) % 2 ^ 64))
          ((offset + a) % 2 ^ 64) = some (mem', last) ∨
      poolSize ≤ (offset + a) % 2 ^ 64 ∧ mem' = mem ∧ last = offset := by
  rw [fsaInitLoop] at hloop
  by_cases hnext : (offset + a) % 2 ^ 64 < poolSize
  case pos =>
    simp only [hnext, if_true] at hloop
    exact Or.inl ⟨hnext, hloop⟩
  case neg =>
    simp only [hnext, if_false] at hloop
    obtain ⟨rfl, rfl⟩ := Prod.mk.inj (Option.some.inj hloop)
    exact Or.inr ⟨Nat.le_of_not_lt hnext, rfl, rfl⟩

/-- The loop ends where the next block would not end before the pool. -/
theorem fsaInitLoop_last
    (hloop : fsaInitLoop fsa poolSize a rounds mem offset = some (mem', last)) :
    poolSize ≤ (last + a) % 2 ^ 64 := by
  induction rounds generalizing mem offset with
  | zero => cases hloop
  | succ rounds ih =>
      rcases fsaInitLoop_succ hloop with ⟨-, hrest⟩ | ⟨hend, -, rfl⟩
      · exact ih hrest
      · exact hend

/-- A link to the block behind is not written any other way. -/
theorem fsaInitLoop_kept {x : Nat}
    (hloop : fsaInitLoop fsa poolSize a rounds mem offset = some (mem', last))
    (hlink : mem (fsa + x) = (x + a) % 2 ^ 64) : mem' (fsa + x) = (x + a) % 2 ^ 64 := by
  induction rounds generalizing mem offset with
  | zero => cases hloop
  | succ rounds ih =>
      rcases fsaInitLoop_succ hloop with ⟨-, hrest⟩ | ⟨-, rfl, -⟩
      · apply ih hrest
        rw [setNextFree, getBlockFromOffset]
        by_cases hx : x = offset
        case pos => rw [hx, Function.update_self]
        case neg => rwa [Function.update_of_ne (by omega)]
      · exact hlink

/-- The memory that `FSAInit` makes of what its loop leaves. -/
def initialised (mem : Memory) (fsa last : Nat) : Memory :=
  Function.update (setNextFree mem (getBlockFromOffset fsa last) OFF_NULL) fsa SIZEOF_FSA

/-- **Blocks in the pool fill it**: where the list from a block on leads through blocks of the
pool, these are as long as the rest of the pool. -/
theorem dvd_of_loop (hsize : poolSize < 2 ^ 64)
    (hloop : fsaInitLoop fsa poolSize a rounds mem offset = some (mem', last))
    (hoffset : offset ≠ 0) (hlinked : Linked (link (initialised mem' fsa last) fsa) offset free)
    (hinside : ∀ x ∈ free, x + a ≤ poolSize) : a ∣ poolSize - offset := by
  induction rounds generalizing mem offset free with
  | zero => cases hloop
  | succ rounds ih =>
      obtain ⟨rest, rfl, hrest⟩ := hlinked.eq_cons hoffset
      have hblock := hinside offset List.mem_cons_self
      have hmod : (offset + a) % 2 ^ 64 = offset + a := Nat.mod_eq_of_lt (by omega)
      rcases fsaInitLoop_succ hloop with ⟨hnext, hgo⟩ | ⟨hstop, -, -⟩
      · -- the loop has gone on, and what it wrote here has stayed
        rw [hmod] at hgo hnext
        have hlast : last ≠ offset := by
          rintro rfl
          have hend := fsaInitLoop_last hgo
          omega
        have hkept : mem' (fsa + offset) = (offset + a) % 2 ^ 64 := by
          apply fsaInitLoop_kept hgo
          rw [hmod]
          exact Function.update_self _ _ _
        have hlink : link (initialised mem' fsa last) fsa offset = offset + a := by
          rw [link, initialised, setNextFree, getBlockFromOffset,
            Function.update_of_ne (by omega), Function.update_of_ne (by omega), hkept, hmod]
        rw [hlink] at hrest
        have hdvd := ih hgo (by omega) hrest fun x hx => hinside x (List.mem_cons_of_mem _ hx)
        have hsplit : poolSize - offset = poolSize - (offset + a) + a := by omega
        rw [hsplit]
        exact Nat.dvd_add hdvd (Nat.dvd_refl a)
      · have hend : a = poolSize - offset := by omega
        exact hend ▸ Nat.dvd_refl a

namespace FsaInitCall

variable (call : FsaInitCall)

/-- The pool is shorter than the address space. -/
theorem poolSize_lt : call.poolSize < 2 ^ 64 := by
  have hpos := call.pool_pos
  have hfits := call.pool_fits
  omega

/-- Where everything is in the pool, the blocks fill it. -/
theorem InPool.exact {call : FsaInitCall} (h : call.InPool mem) :
    SIZEOF_FSA < call.poolSize ∧ alignUp call.blockSize ∣ call.poolSize - SIZEOF_FSA := by
  obtain ⟨rounds, mem', free, hinit, hlinked, -, hinside⟩ := h
  rw [fsaInit] at hinit
  split at hinit
  · cases hinit
  · obtain ⟨⟨mem₁, last⟩, hloop, hmem⟩ := Option.map_eq_some_iff.mp hinit
    have hsame : initialised mem₁ call.pool last = mem' := hmem
    have hhead : mem' call.pool = SIZEOF_FSA := by
      rw [← hsame]
      exact Function.update_self _ _ _
    have hfirst : SIZEOF_FSA ≠ 0 := by decide
    rw [hhead] at hlinked
    obtain ⟨rest, rfl, -⟩ := hlinked.eq_cons hfirst
    have hblock := (hinside SIZEOF_FSA List.mem_cons_self).2
    have hpos := call.blockSize_pos
    refine ⟨by omega, dvd_of_loop call.poolSize_lt hloop hfirst ?_ fun x hx => (hinside x hx).1⟩
    rw [hsame]
    exact hlinked

/-- A block size that is not rounded to nothing is rounded up without wrapping. -/
theorem blockSize_fits (hround : 0 < alignUp call.blockSize) :
    call.blockSize + WORD_SIZE ≤ 2 ^ 64 := by
  have hblock := call.blockSize_lt
  simp only [alignUp, alignDown, WORD_SIZE] at hround ⊢
  omega

/-- A pool that is the header and its blocks is a pool of the suggested size. -/
def suggested (blockAmount : Nat) (hamount : 0 < blockAmount)
    (hround : 0 < alignUp call.blockSize)
    (hsize : call.poolSize = SIZEOF_FSA + blockAmount * alignUp call.blockSize) : FsaPool where
  base := call.pool
  blockAmount := blockAmount
  blockSize := call.blockSize
  base_pos := call.pool_pos
  base_aligned := call.pool_aligned
  amount_pos := hamount
  size_pos := call.blockSize_pos
  size_fits := call.blockSize_fits hround
  pool_fits := hsize ▸ call.poolSize_lt

/-- Where the blocks fill the pool, everything is in it. -/
theorem inPool_of_exact (mem : Memory) (hlt : SIZEOF_FSA < call.poolSize)
    (hdvd : alignUp call.blockSize ∣ call.poolSize - SIZEOF_FSA) : call.InPool mem := by
  obtain ⟨n, hn⟩ := hdvd
  have hsize : call.poolSize = SIZEOF_FSA + n * alignUp call.blockSize := by
    rw [Nat.mul_comm, ← hn]
    omega
  have hround : 0 < alignUp call.blockSize := by
    refine Nat.pos_of_ne_zero fun hzero => ?_
    rw [hzero, Nat.zero_mul] at hn
    omega
  have hamount : 0 < n := by
    refine Nat.pos_of_ne_zero fun hzero => ?_
    rw [hzero, Nat.mul_zero] at hn
    omega
  have hpool : (call.suggested n hamount hround hsize).poolSize = call.poolSize :=
    (FsaPool.poolSize_eq _).trans hsize.symm
  obtain ⟨mem', hinit, hhead, hlinked⟩ :=
    fsaInit_spec (call.suggested n hamount hround hsize) mem
  rw [hpool] at hinit
  refine ⟨n, mem', List.range' SIZEOF_FSA n (alignUp call.blockSize), hinit, ?_,
    Nat.le_of_lt hlt, fun offset hoffset => ?_⟩
  · have hhead' : mem' call.pool = SIZEOF_FSA := hhead
    rw [hhead']
    exact hlinked
  · -- the end of a block is the start of the next one, or the end of the pool
    have hblock := le_alignUp call.blockSize_lt hround
    obtain ⟨k, hk, rfl⟩ := List.mem_range'.mp hoffset
    have hstep := Nat.mul_le_mul_left (alignUp call.blockSize) (Nat.succ_le_of_lt hk)
    rw [Nat.mul_succ] at hstep
    omega

/-- **`FSAInit` stays in its pool** exactly where the pool is the header and one block or more
without a remainder. -/
theorem inPool_iff (call : FsaInitCall) (mem : Memory) :
    call.InPool mem ↔
      SIZEOF_FSA < call.poolSize ∧ alignUp call.blockSize ∣ call.poolSize - SIZEOF_FSA :=
  ⟨fun h => h.exact, fun ⟨hlt, hdvd⟩ => call.inPool_of_exact mem hlt hdvd⟩

/-- A pool of four words for blocks of two. -/
def halfBlock : FsaInitCall where
  pool := 12288
  poolSize := 32
  blockSize := 16
  pool_pos := by decide
  pool_aligned := by decide
  poolSize_pos := by decide
  blockSize_pos := by decide
  pool_fits := Nat.le_of_lt (by decide)
  blockSize_lt := by decide

/-- The second half of the second block is behind the pool. -/
theorem halfBlock_notInPool : ¬ halfBlock.InPool fun _ => 0 := by
  intro h
  obtain ⟨-, hdvd⟩ := h.exact
  exact absurd hdvd (by decide)

end FsaInitCall

end Alloc
end InfinityLabs
