import InfinityLabs.Lib.Runs
import InfinityLabs.Alloc.VsaBlocks

/-!
# The heap of the variable-size allocator

Runs of allocations, frees, measurements and writes of the owners into their blocks.  In
every one of them the pool is cut into blocks without a gap, and the used blocks are the
live ones.
-/

namespace InfinityLabs
namespace Alloc

open Lib

/-! ## Pools -/

/-- A word-aligned memory pool.  No object is longer than a pointer difference, and the
address behind it is an address. -/
structure VsaPool where
  base : Nat
  size : Nat
  base_aligned : WORD_SIZE ∣ base
  size_fits : size < 2 ^ 63
  pool_fits : base + size < 2 ^ 64

/-- The end of the whole words of the pool. -/
def VsaPool.last (pool : VsaPool) : Nat := pool.base + alignDown pool.size

variable {ndebug : Bool} {pool : VsaPool} {mem mem' : LongMemory}

/-- The whole words are in the pool. -/
theorem VsaPool.last_le (pool : VsaPool) : pool.last ≤ pool.base + pool.size :=
  Nat.add_le_add_left (alignDown_bounds pool.size).1 pool.base

/-- **`VSAInit`** puts the allocator at the start of the pool, and makes one free block of
the rest. -/
theorem vsaInit_blocks {vsa : Nat}
    (hinit : vsaInit ndebug mem pool.base pool.size = some (mem', vsa)) :
    vsa = pool.base ∧ mem' pool.base = pool.last ∧ ∃ size : Int, 0 < size ∧ WholeWords size ∧
      Blocks ndebug mem' (firstHdr pool.base) [size] pool.last := by
  have hfits := pool.pool_fits
  have hsize := pool.size_fits
  have hbounds := alignDown_bounds pool.size
  have hbase : alignUp pool.base = pool.base :=
    alignUp_eq_self pool.base_aligned (by omega)
  have hoffset : (pool.base + 2 ^ 64 - pool.base) % 2 ^ 64 = 0 := by omega
  have hword : 0 < WORD_SIZE := by decide
  simp only [vsaInit, hbase, hoffset, Nat.sub_zero] at hinit
  split at hinit
  · cases hinit
  · split at hinit
    · cases hinit
    · rename_i hroom
      have hlong : toLong (alignDown pool.size - SIZEOF_VSA - sizeofHeader ndebug) =
          (alignDown pool.size - SIZEOF_VSA - sizeofHeader ndebug : Nat) :=
        toLong_eq (by omega)
      rw [hlong] at hinit
      obtain ⟨rfl, rfl⟩ := Prod.mk.inj (Option.some.inj hinit)
      have hfirst : pool.base < pool.base + SIZEOF_VSA := lt_firstHdr pool.base
      refine ⟨rfl, ?_, (alignDown pool.size - SIZEOF_VSA - sizeofHeader ndebug : Nat),
        by omega, ⟨by omega, ?_⟩, tellsSize_writeHeader _ _ _, ?_⟩
      · rw [writeHeader_of_outside (Or.inl hfirst)]
        exact Function.update_self _ _ _
      · have hvsa : WORD_SIZE ∣ SIZEOF_VSA := Nat.dvd_refl _
        exact Int.natCast_dvd_natCast.mpr
          (Nat.dvd_sub (Nat.dvd_sub (dvd_alignDown _) hvsa) (dvd_sizeofHeader ndebug))
      · show firstHdr pool.base + sizeofHeader ndebug + _ = pool.last
        rw [firstHdr, VsaPool.last, Int.natAbs_natCast]
        omega

/-! ## The machine -/

/-- The memory, the allocator that `VSAInit` returned, and the live blocks with their
requests. -/
structure VsaState where
  mem : LongMemory
  vsa : Nat
  live : List (Nat × Nat)

/-- The calls on the pool, and a word that an owner writes into a live block. -/
inductive VsaAction where
  | alloc (request : Nat)
  | free (block : Nat)
  | largestChunk
  | write (address : Nat) (value : Int)

/-- The word at `address` is one of the words of a request. -/
def ownsWord (live : Nat × Nat) (address : Nat) : Prop :=
  live.1 ≤ address ∧ address < live.1 + live.2 ∧ WORD_SIZE ∣ address

instance (live : Nat × Nat) (address : Nat) : Decidable (ownsWord live address) :=
  inferInstanceAs (Decidable (_ ∧ _ ∧ _))

/-- A step.  No more than the pool size is requested, and only live blocks are freed and
written to. -/
def VsaState.step (ndebug : Bool) (pool : VsaPool) (s : VsaState) : VsaAction → Option VsaState
  | .alloc request =>
      if request ≤ pool.size then
        let (mem, block) := vsaAlloc ndebug s.mem s.vsa request
        some { s with mem := mem, live := block.toList.map (·, request) ++ s.live }
      else none
  | .free block =>
      if block ∈ s.live.map Prod.fst then
        (vsaFree ndebug s.mem (some block)).map fun mem =>
          { s with mem := mem, live := s.live.eraseP fun x => x.1 == block }
      else none
  | .largestChunk => some { s with mem := (vsaLargestChunkAvailable ndebug s.mem s.vsa).1 }
  | .write address value =>
      if ∃ x ∈ s.live, ownsWord x address then
        some { s with mem := Function.update s.mem address value }
      else none

/-- The runs that start with `VSAInit` on any memory. -/
def vsaMachine (ndebug : Bool) (pool : VsaPool) : Machine VsaState VsaAction where
  start s := s.live = [] ∧ ∃ mem, vsaInit ndebug mem pool.base pool.size = some (s.mem, s.vsa)
  step s a := s.step ndebug pool a

/-! ## The invariant -/

/-- The pool is a chain of blocks, and its used blocks are the live ones. -/
structure VsaState.Wf (ndebug : Bool) (pool : VsaPool) (s : VsaState) (blocks : List Int) :
    Prop where
  vsa_eq : s.vsa = pool.base
  end_eq : s.mem pool.base = pool.last
  chain : Blocks ndebug s.mem (firstHdr pool.base) blocks pool.last
  whole : ∀ size ∈ blocks, WholeWords size
  live : (s.live.map Prod.fst).Perm
    ((used (sizeofHeader ndebug) (firstHdr pool.base) blocks).map Prod.fst)
  long : ∀ p request n, (p, request) ∈ s.live →
    (p, n) ∈ used (sizeofHeader ndebug) (firstHdr pool.base) blocks → request ≤ n

variable {s s' : VsaState} {blocks : List Int}

/-- The end of the pool. -/
theorem VsaState.Wf.endPool_eq (h : s.Wf ndebug pool blocks) :
    endPool s.mem pool.base = pool.last := by
  rw [endPool, h.end_eq, Int.toNat_natCast]

/-- The end of the pool, as the allocator finds it. -/
theorem VsaState.Wf.endPool_vsa (h : s.Wf ndebug pool blocks) :
    endPool s.mem s.vsa = pool.last := by
  rw [h.vsa_eq, h.endPool_eq]

/-- The blocks, as the allocator finds them. -/
theorem VsaState.Wf.heap (h : s.Wf ndebug pool blocks) :
    Blocks ndebug s.mem (firstHdr s.vsa) blocks (endPool s.mem s.vsa) := by
  rw [h.endPool_vsa, h.vsa_eq]
  exact h.chain

/-- The blocks fill the pool behind the first word. -/
theorem VsaState.Wf.length_eq (h : s.Wf ndebug pool blocks) :
    pool.last = firstHdr pool.base + extent (sizeofHeader ndebug) blocks := h.chain.end_eq

/-- The used blocks begin at different places. -/
theorem nodup_used (a : Nat) (blocks : List Int) :
    ((used (sizeofHeader ndebug) a blocks).map Prod.fst).Nodup := by
  rw [List.Nodup, List.pairwise_map]
  refine (used_pairwise (sizeofHeader_pos ndebug) a blocks).imp fun hbehind => ?_
  omega

/-- After `VSAInit` there is one block, and it is free. -/
theorem VsaState.wf_start (hstart : (vsaMachine ndebug pool).start s) :
    ∃ blocks, s.Wf ndebug pool blocks := by
  obtain ⟨hlive, mem, hinit⟩ := hstart
  obtain ⟨hvsa, hend, size, hpos, hwhole, hblocks⟩ := vsaInit_blocks hinit
  have hused : used (sizeofHeader ndebug) (firstHdr pool.base) [size] = [] :=
    used_of_free _ fun x hx => List.mem_singleton.mp hx ▸ hpos
  refine ⟨[size], hvsa, hend, hblocks, fun x hx => List.mem_singleton.mp hx ▸ hwhole, ?_, ?_⟩
  · rw [hlive, hused]
  · intro p request n hp
    rw [hlive] at hp
    cases hp

/-- A used block is behind the first header, and begins at a word. -/
theorem VsaState.Wf.dvd_used (h : s.Wf ndebug pool blocks) {p n : Nat}
    (hused : (p, n) ∈ used (sizeofHeader ndebug) (firstHdr pool.base) blocks) : WORD_SIZE ∣ p := by
  obtain ⟨before, after, size, rfl, -, -, rfl⟩ := mem_used hused
  have hvsa : WORD_SIZE ∣ SIZEOF_VSA := Nat.dvd_refl _
  have hbefore : WORD_SIZE ∣ extent (sizeofHeader ndebug) before :=
    dvd_extent fun x hx => h.whole x (List.mem_append_left _ (List.mem_append_left _ hx))
  exact Nat.dvd_add (Nat.dvd_add (Nat.dvd_add pool.base_aligned hvsa) hbefore)
    (dvd_sizeofHeader ndebug)

/-- One more used block, for one more live block. -/
theorem VsaState.Wf.add (h : s.Wf ndebug pool blocks) {blocks' : List Int}
    {block n request : Nat} (hend : mem' pool.base = pool.last)
    (hchain : Blocks ndebug mem' (firstHdr pool.base) blocks' pool.last)
    (hwhole : ∀ size ∈ blocks', WholeWords size) (hrequest : request ≤ n)
    (hused : (used (sizeofHeader ndebug) (firstHdr pool.base) blocks').Perm
      ((block, n) :: used (sizeofHeader ndebug) (firstHdr pool.base) blocks)) :
    VsaState.Wf ndebug pool { s with mem := mem', live := (block, request) :: s.live }
      blocks' := by
  have hfresh := (List.nodup_cons.mp ((hused.map Prod.fst).nodup_iff.mp (nodup_used _ _))).1
  refine ⟨h.vsa_eq, hend, hchain, hwhole, ?_, fun p request' n' hp hn => ?_⟩
  · exact (h.live.cons _).trans (hused.map Prod.fst).symm
  · rcases List.mem_cons.mp (hused.mem_iff.mp hn) with hnew | hn
    · obtain ⟨rfl, rfl⟩ := Prod.mk.inj hnew
      rcases List.mem_cons.mp hp with hask | hp
      · obtain ⟨-, rfl⟩ := Prod.mk.inj hask
        exact hrequest
      · exact absurd (h.live.mem_iff.mp (List.mem_map_of_mem hp)) hfresh
    · rcases List.mem_cons.mp hp with hask | hp
      · obtain ⟨rfl, -⟩ := Prod.mk.inj hask
        exact absurd (List.mem_map_of_mem hn) hfresh
      · exact h.long p request' n' hp hn

/-- A request leaves the blocks as they are, or gets a block for itself. -/
theorem VsaState.Wf.alloc (h : s.Wf ndebug pool blocks) {request : Nat}
    (hrequest : request ≤ pool.size) :
    vsaAlloc ndebug s.mem s.vsa request = (s.mem, none) ∨
      ∃ mem' block blocks', vsaAlloc ndebug s.mem s.vsa request = (mem', some block) ∧
        VsaState.Wf ndebug pool { s with mem := mem', live := (block, request) :: s.live }
          blocks' := by
  -- no sum of sizes reaches `2 ^ 64`
  have hpool := pool.pool_fits
  have hsize := pool.size_fits
  have hlast := pool.last_le
  have hlength := h.length_eq
  have hsplit := minSplitBytes_eq ndebug
  have hheader := sizeofHeader_le ndebug
  have hfirst := lt_firstHdr pool.base
  obtain ⟨hround, hround'⟩ := alignUp_bounds (x := request) (by rw [WORD_SIZE]; omega)
  rw [WORD_SIZE] at hround'
  have hend := h.endPool_vsa
  rcases vsaAlloc_blocks h.heap (show alignUp request + MIN_SPLIT_BYTES ndebug < 2 ^ 64 by omega)
    (by omega) (by omega) with
    hnone | ⟨hpos, before, found, after, mem', hfits, halloc, hblocks, hsame⟩
  · exact Or.inl hnone
  · rw [hend, h.vsa_eq] at hblocks
    rw [h.vsa_eq] at hsame
    have hmem : ∀ size, size ∈ blocks ↔ size ∈ before ∨ size ∈ found ∨ size ∈ after := by
      intro size
      rw [← hfits.split]
      simp
    have hfound : WORD_SIZE ∣ extent (sizeofHeader ndebug) found :=
      dvd_extent fun x hx => h.whole x ((hmem x).mpr (Or.inr (Or.inl hx)))
    obtain ⟨n, hn, hcommitted⟩ := used_committed
      (p := firstHdr s.vsa + extent (sizeofHeader ndebug) before) hpos hfits.long
    have hused := used_replace after (extent_committed hfits.long)
      (used_of_free _ hfits.free) hcommitted
    generalize firstHdr s.vsa + extent (sizeofHeader ndebug) before + sizeofHeader ndebug =
      block at halloc hused
    rw [hfits.split, h.vsa_eq] at hused
    refine Or.inr ⟨mem', _, _, halloc, h.add ((hsame _ hfirst).trans h.end_eq) hblocks ?_
      (Nat.le_trans hround hn) hused⟩
    intro size hsize
    rcases List.mem_append.mp hsize with hsize | hsize
    · rcases List.mem_append.mp hsize with hsize | hsize
      · exact h.whole size ((hmem size).mpr (Or.inl hsize))
      · exact wholeWords_committed hpos hfits.long (dvd_alignUp _) hfound size hsize
    · exact h.whole size ((hmem size).mpr (Or.inr (Or.inr hsize)))

/-- A live block is a used block that is long enough. -/
theorem VsaState.Wf.used_of_live (h : s.Wf ndebug pool blocks) {x : Nat × Nat}
    (hx : x ∈ s.live) :
    ∃ n, x.2 ≤ n ∧ (x.1, n) ∈ used (sizeofHeader ndebug) (firstHdr pool.base) blocks := by
  obtain ⟨⟨p, n⟩, hused, rfl⟩ :=
    List.mem_map.mp (h.live.mem_iff.mp (List.mem_map_of_mem (f := Prod.fst) hx))
  exact ⟨n, h.long _ _ _ hx hused, hused⟩

/-- A live block is freed. -/
theorem VsaState.Wf.freed (h : s.Wf ndebug pool blocks) {block : Nat}
    (hblock : block ∈ s.live.map Prod.fst) :
    ∃ mem' blocks', vsaFree ndebug s.mem (some block) = some mem' ∧
      VsaState.Wf ndebug pool
        { s with mem := mem', live := s.live.eraseP fun x => x.1 == block } blocks' := by
  obtain ⟨⟨p, n⟩, hused, rfl⟩ := List.mem_map.mp (h.live.mem_iff.mp hblock)
  obtain ⟨before, after, size, rfl, hneg, rfl, rfl⟩ := mem_used hused
  obtain ⟨mem', hfree, hblocks, hsame⟩ := vsaFree_blocks h.chain hneg
  have hfirst := lt_firstHdr pool.base
  -- the block that is freed is one of the used blocks, and the others stay
  have hperm : (used (sizeofHeader ndebug) (firstHdr pool.base) (before ++ [size] ++ after)).Perm
      ((firstHdr pool.base + extent (sizeofHeader ndebug) before + sizeofHeader ndebug,
        size.natAbs) ::
          used (sizeofHeader ndebug) (firstHdr pool.base) (before ++ [-size] ++ after)) := by
    apply used_replace after
    · rw [extent_singleton, extent_singleton, Int.natAbs_neg]
    · rw [used, if_neg (by omega)]
      rfl
    · rw [used, if_pos hneg]
      rfl
  refine ⟨mem', _, hfree, h.vsa_eq, (hsame _ (by omega)).trans h.end_eq, hblocks, ?_, ?_, ?_⟩
  · intro x hx
    simp only [List.mem_append, List.mem_singleton] at hx
    rcases hx with (hx | rfl) | hx
    · exact h.whole x (List.mem_append_left _ (List.mem_append_left _ hx))
    · exact (h.whole size (by simp)).neg
    · exact h.whole x (List.mem_append_right _ hx)
  · have herase := (h.live.trans (hperm.map Prod.fst)).erase
      (firstHdr pool.base + extent (sizeofHeader ndebug) before + sizeofHeader ndebug)
    rw [List.map_cons, List.erase_cons_head, List.erase_eq_eraseP', List.eraseP_map] at herase
    exact herase
  · intro p request n hp hn
    refine h.long p request n (List.mem_of_mem_eraseP hp) ?_
    exact hperm.mem_iff.mpr (List.mem_cons_of_mem _ hn)

/-- An owner writes into a live block. -/
theorem VsaState.Wf.write (h : s.Wf ndebug pool blocks) {x : Nat × Nat} (hx : x ∈ s.live)
    {address : Nat} (howns : ownsWord x address) (value : Int) :
    VsaState.Wf ndebug pool { s with mem := Function.update s.mem address value } blocks := by
  obtain ⟨n, hrequest, hused⟩ := h.used_of_live hx
  obtain ⟨hlow, hhigh, -⟩ := howns
  have hfirst := lt_firstHdr pool.base
  have hinside := (used_inside hused).1
  refine ⟨h.vsa_eq, (Function.update_of_ne (by omega) _ _).trans h.end_eq, ?_, h.whole, h.live,
    h.long⟩
  obtain ⟨before, after, size, rfl, -, rfl, hplace⟩ := mem_used hused
  exact blocks_write h.chain (by omega) (by omega)

/-- A measurement joins free blocks. -/
theorem VsaState.Wf.largestChunk (h : s.Wf ndebug pool blocks) :
    VsaState.Wf ndebug pool
      { s with mem := (vsaLargestChunkAvailable ndebug s.mem s.vsa).1 }
      (coalesce (sizeofHeader ndebug) blocks) := by
  obtain ⟨hblocks, hsame, -⟩ := vsaLargestChunkAvailable_blocks h.heap
  rw [h.endPool_vsa, h.vsa_eq] at hblocks
  rw [h.vsa_eq] at hsame
  refine ⟨h.vsa_eq, ?_, ?_, ?_, ?_, ?_⟩
  · rw [h.vsa_eq]
    exact (hsame _ (lt_firstHdr pool.base)).trans h.end_eq
  · rw [h.vsa_eq]
    exact hblocks
  · exact forall_mem_coalesce h.whole fun _ _ hsize hsize' => WholeWords.join hsize hsize'
  · rw [used_coalesce]
    exact h.live
  · rw [used_coalesce]
    exact h.long

/-- **A step keeps the invariant.** -/
theorem VsaState.Wf.step (h : s.Wf ndebug pool blocks) {a : VsaAction}
    (hstep : s.step ndebug pool a = some s') : ∃ blocks', s'.Wf ndebug pool blocks' := by
  cases a with
  | alloc request =>
      rw [VsaState.step] at hstep
      split at hstep
      · rename_i hrequest
        rcases h.alloc hrequest with hnone | ⟨mem', block, blocks', hsome, hwf⟩
        · rw [hnone] at hstep
          obtain rfl := Option.some.inj hstep
          exact ⟨blocks, h⟩
        · rw [hsome] at hstep
          obtain rfl := Option.some.inj hstep
          exact ⟨blocks', hwf⟩
      · cases hstep
  | free block =>
      rw [VsaState.step] at hstep
      split at hstep
      · rename_i hblock
        obtain ⟨mem', blocks', hfree, hwf⟩ := h.freed hblock
        rw [hfree] at hstep
        obtain rfl := Option.some.inj hstep
        exact ⟨blocks', hwf⟩
      · cases hstep
  | largestChunk =>
      obtain rfl := Option.some.inj hstep
      exact ⟨_, h.largestChunk⟩
  | write address value =>
      rw [VsaState.step] at hstep
      split at hstep
      · rename_i howned
        obtain ⟨x, hx, howns⟩ := howned
        obtain rfl := Option.some.inj hstep
        exact ⟨blocks, h.write hx howns value⟩
      · cases hstep

/-- **Every reachable pool is a chain of blocks.** -/
theorem vsaMachine_wf (hreached : (vsaMachine ndebug pool).Reached s) :
    ∃ blocks, s.Wf ndebug pool blocks := by
  refine hreached.invariant (I := fun s => ∃ blocks, s.Wf ndebug pool blocks) ?_ ?_
  · exact fun s hstart => VsaState.wf_start hstart
  · rintro s a s' ⟨blocks, h⟩ - hstep
    exact h.step hstep

/-! ## Tiling -/

/-- The length of the block that begins at `block`, as its header has it. -/
def blockLength (ndebug : Bool) (mem : LongMemory) (block : Nat) : Nat :=
  (mem (block - sizeofHeader ndebug)).natAbs

/-- The blocks that begin at `p` and at `q` do not overlap. -/
def Apart (ndebug : Bool) (mem : LongMemory) (p q : Nat) : Prop :=
  p + blockLength ndebug mem p ≤ q ∨ q + blockLength ndebug mem q ≤ p

/-- What the allocator promises of its pool. -/
structure VsaState.Tiled (ndebug : Bool) (pool : VsaPool) (s : VsaState) : Prop where
  end_pool : endPool s.mem s.vsa = pool.base + alignDown pool.size
  walk : ∃ headers, (nextHdr ndebug s.mem)^[headers] (firstHdr s.vsa) = endPool s.mem s.vsa ∧
    ∀ i < headers,
      firstHdr s.vsa ≤ (nextHdr ndebug s.mem)^[i] (firstHdr s.vsa) ∧
      (nextHdr ndebug s.mem)^[i] (firstHdr s.vsa) + sizeofHeader ndebug ≤ endPool s.mem s.vsa ∧
      WholeWords (s.mem ((nextHdr ndebug s.mem)^[i] (firstHdr s.vsa)))
  live : ∀ x ∈ s.live, WORD_SIZE ∣ x.1 ∧ firstHdr s.vsa + sizeofHeader ndebug ≤ x.1 ∧
    x.1 + blockLength ndebug s.mem x.1 ≤ endPool s.mem s.vsa ∧
    x.2 ≤ blockLength ndebug s.mem x.1 ∧ s.mem (x.1 - sizeofHeader ndebug) < 0
  disjoint : (s.live.map Prod.fst).Pairwise (Apart ndebug s.mem)
  free : ∀ x ∈ s.live, (vsaFree ndebug s.mem (some x.1)).isSome

/-- The header of a used block is before its payload. -/
theorem used_header {a c p n : Nat} (h : Blocks ndebug mem a blocks c)
    (hused : (p, n) ∈ used (sizeofHeader ndebug) a blocks) :
    mem (p - sizeofHeader ndebug) < 0 ∧ blockLength ndebug mem p = n := by
  obtain ⟨before, after, size, rfl, hneg, rfl, rfl⟩ := mem_used hused
  rw [blockLength, Nat.add_sub_cancel, h.tells_middle.1]
  exact ⟨hneg, rfl⟩

/-- A heap that is a chain of blocks is tiled. -/
theorem VsaState.Wf.tiled (h : s.Wf ndebug pool blocks) : s.Tiled ndebug pool := by
  have hchain := h.chain
  have hend := h.endPool_vsa
  obtain ⟨hlast, hwalk⟩ := blocks_walk hchain
  refine ⟨hend, ⟨blocks.length, ?_, fun i hi => ?_⟩, fun x hx => ?_, ?_, fun x hx => ?_⟩
  · rw [hend, h.vsa_eq, hlast]
  · obtain ⟨hlow, hhigh, hmem⟩ := hwalk i hi
    rw [hend, h.vsa_eq]
    exact ⟨hlow, hhigh, h.whole _ hmem⟩
  · obtain ⟨n, hrequest, hused⟩ := h.used_of_live hx
    obtain ⟨hneg, hlength⟩ := used_header hchain hused
    obtain ⟨hlow, hhigh⟩ := used_inside hused
    rw [hlength, hend, h.vsa_eq, h.length_eq]
    exact ⟨h.dvd_used hused, hlow, hhigh, hrequest, hneg⟩
  · refine h.live.symm.pairwise (List.pairwise_map.mpr ?_) Or.symm
    refine (used_pairwise (sizeofHeader_pos ndebug) _ blocks).imp_of_mem fun hx _ hlt => ?_
    rw [Apart, (used_header hchain hx).2]
    exact Or.inl (Nat.le_of_lt hlt)
  · obtain ⟨mem', -, hfree, -⟩ := h.freed (List.mem_map_of_mem (f := Prod.fst) hx)
    rw [hfree]
    rfl

/-- **Heap tiling**: from every reachable state the walk along the headers stays in the
pool, reads non-zero sizes of whole words, and ends exactly at the end of the pool; and the
live blocks are pairwise disjoint word-aligned blocks inside the pool, as long as their
requests at least, that may be freed. -/
theorem vsa_tiled (ndebug : Bool) (pool : VsaPool)
    (hreached : (vsaMachine ndebug pool).Reached s) : s.Tiled ndebug pool := by
  obtain ⟨blocks, h⟩ := vsaMachine_wf hreached
  exact h.tiled

/-- A pool whose last three bytes are not used. -/
def vsaSamplePool : VsaPool where
  base := 8192
  size := 203
  base_aligned := by decide
  size_fits := by decide
  pool_fits := by decide

/-- The memory of the pool after its initialisation. -/
def vsaSampleMemory : LongMemory :=
  ((vsaInit false (fun _ => 0) 8192 203).getD (fun _ => 0, 0)).1

/-- It may be initialised. -/
theorem vsaSample_start :
    (vsaMachine false vsaSamplePool).Reached ⟨vsaSampleMemory, 8192, []⟩ := by
  have hinit : vsaInit false (fun _ => 0) 8192 203 = some (vsaSampleMemory, 8192) := rfl
  exact .start ⟨rfl, _, hinit⟩

/-- Three blocks are allocated, the second one is freed, and a smaller one takes its
place. -/
theorem vsa_tiled_sample :
    ∃ s : VsaState, (s.live, s.mem 8200, s.mem 8224, s.mem 8248, s.mem 8280, s.mem 8312) =
        ([(8240, 3), (8296, 16), (8216, 5)], -8, -8, 16, -16, 64) ∧
      s.Tiled false vsaSamplePool := by
  have hrun : ((vsaMachine false vsaSamplePool).run ⟨vsaSampleMemory, 8192, []⟩
      [.alloc 5, .alloc 40, .write 8240 77, .alloc 16, .free 8240, .largestChunk, .alloc 3]).map
        (fun s => (s.live, s.mem 8200, s.mem 8224, s.mem 8248, s.mem 8280, s.mem 8312)) =
          some ([(8240, 3), (8296, 16), (8216, 5)], -8, -8, 16, -16, 64) := by
    decide +kernel
  obtain ⟨s, hs, hshown⟩ := vsaSample_start.run_map hrun
  exact ⟨s, hshown, vsa_tiled false vsaSamplePool hs⟩

end Alloc
end InfinityLabs
