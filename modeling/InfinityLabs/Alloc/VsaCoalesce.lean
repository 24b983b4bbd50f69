import InfinityLabs.Alloc.VsaRuns
import Mathlib.Order.Bounds.Defs
import Mathlib.Order.Iterate

/-!
# The advertised chunk

`VSALargestChunkAvailable` returns the payload of the largest free block.  `VSAAlloc` looks
for a run with room for one word more than the request and its header, although
`CommitAlloc` knows how to take a whole run; so the advertised bytes are never to be had.
-/

namespace InfinityLabs
namespace Alloc

open Lib

variable {ndebug : Bool} {pool : VsaPool} {s : VsaState} {blocks : List Int}

/-- An allocation of the number of bytes that `VSALargestChunkAvailable` has just
returned gets a block. -/
def VsaState.ChunkCanBeHad (ndebug : Bool) (s : VsaState) : Prop :=
  let (mem, largest) := vsaLargestChunkAvailable ndebug s.mem s.vsa
  0 < largest → (vsaAlloc ndebug mem s.vsa largest).2 ≠ none

/-- No header of the heap is the header of a free block. -/
def VsaState.NoneFree (ndebug : Bool) (s : VsaState) : Prop :=
  ∀ i, inBounds (firstHdr s.vsa) (endPool s.mem s.vsa)
      ((nextHdr ndebug s.mem)^[i] (firstHdr s.vsa)) = true →
    ¬ s.mem ((nextHdr ndebug s.mem)^[i] (firstHdr s.vsa)) > 0

/-- The walk does not come back. -/
theorem le_iterate_nextHdr (ndebug : Bool) (mem : LongMemory) (i h : Nat) :
    h ≤ (nextHdr ndebug mem)^[i] h :=
  Function.id_le_iterate_of_id_le (fun h => Nat.le_of_lt (lt_nextHdr ndebug mem h)) i h

/-- The header number `i` of the heap. -/
def VsaState.headerAt (ndebug : Bool) (s : VsaState) (i : Nat) : Nat :=
  (nextHdr ndebug s.mem)^[i] (firstHdr s.vsa)

/-- It is the header of a free block. -/
def VsaState.FreeAt (ndebug : Bool) (s : VsaState) (i : Nat) : Prop :=
  inBounds (firstHdr s.vsa) (endPool s.mem s.vsa) (s.headerAt ndebug i) = true ∧
    s.mem (s.headerAt ndebug i) > 0

/-- The header behind the first blocks. -/
theorem VsaState.Wf.headerAt_length {before after : List Int}
    (h : s.Wf ndebug pool (before ++ after)) :
    s.headerAt ndebug before.length =
      firstHdr pool.base + extent (sizeofHeader ndebug) before := by
  rw [VsaState.headerAt, h.vsa_eq]
  exact blocks_iterate h.chain

/-- The free blocks of the heap by their numbers. -/
theorem VsaState.Wf.freeAt_iff (h : s.Wf ndebug pool blocks) {i : Nat} :
    s.FreeAt ndebug i ↔ ∃ size, blocks[i]? = some size ∧ 0 < size := by
  have hpositive := sizeofHeader_pos ndebug
  have hlast := (blocks_walk h.chain).1
  simp only [VsaState.FreeAt, h.endPool_vsa, inBounds, Bool.and_eq_true, decide_eq_true_eq]
  by_cases hi : i < blocks.length
  case pos =>
    have hsplit : blocks.take i ++ [blocks[i]] ++ blocks.drop (i + 1) = blocks := by
      rw [List.take_append_getElem hi, List.take_append_drop]
    have htaken := List.length_take_of_le (Nat.le_of_lt hi)
    rw [← hsplit] at h
    have hlength := h.length_eq
    have htells := h.chain.tells_middle
    rw [List.append_assoc] at h
    have hheader := h.headerAt_length
    rw [htaken] at hheader
    rw [extent_append, extent_append, extent_singleton] at hlength
    rw [hheader, htells.1, h.vsa_eq, List.getElem?_eq_getElem hi]
    constructor
    · rintro ⟨-, hpos⟩
      exact ⟨_, rfl, hpos⟩
    · rintro ⟨size, hsize, hpos⟩
      obtain rfl := Option.some.inj hsize
      exact ⟨by omega, hpos⟩
  case neg =>
    -- the walk is at the end of the pool by then, and does not come back
    rw [List.getElem?_eq_none (Nat.le_of_not_lt hi)]
    refine iff_of_false ?_ (by simp)
    rintro ⟨⟨-, hin⟩, -⟩
    obtain ⟨k, rfl⟩ := Nat.exists_eq_add_of_le (Nat.le_of_not_lt hi)
    rw [VsaState.headerAt, h.vsa_eq, Nat.add_comm, Function.iterate_add_apply, hlast] at hin
    have hback := le_iterate_nextHdr ndebug s.mem k pool.last
    omega

/-- The headers of the heap are those of its blocks. -/
theorem VsaState.Wf.noneFree_iff (h : s.Wf ndebug pool blocks) :
    s.NoneFree ndebug ↔ ¬ ∃ size ∈ blocks, 0 < size := by
  have hnone : s.NoneFree ndebug ↔ ¬ ∃ i, s.FreeAt ndebug i := by
    simp only [VsaState.NoneFree, VsaState.FreeAt, VsaState.headerAt, not_exists, not_and]
  have hblocks : (∃ i, s.FreeAt ndebug i) ↔ ∃ size ∈ blocks, 0 < size := by
    simp only [h.freeAt_iff, List.mem_iff_getElem?]
    constructor
    · rintro ⟨i, size, hsize, hpos⟩
      exact ⟨size, ⟨i, hsize⟩, hpos⟩
    · rintro ⟨size, ⟨i, hsize⟩, hpos⟩
      exact ⟨i, size, hsize, hpos⟩
  rw [hnone, hblocks]

/-- The advertised bytes are the payload of the largest free block. -/
theorem VsaState.Wf.largestChunk_eq (h : s.Wf ndebug pool blocks) :
    (vsaLargestChunkAvailable ndebug s.mem s.vsa).2 =
      largestFree (coalesce (sizeofHeader ndebug) blocks) :=
  (vsaLargestChunkAvailable_blocks h.heap).2.2

/-- **No run has room for the advertised bytes** and one word more. -/
theorem VsaState.Wf.alloc_largest (h : s.Wf ndebug pool blocks)
    (hpos : 0 < largestFree (coalesce (sizeofHeader ndebug) blocks)) :
    (vsaAlloc ndebug (vsaLargestChunkAvailable ndebug s.mem s.vsa).1 s.vsa
      (largestFree (coalesce (sizeofHeader ndebug) blocks))).2 = none := by
  have h' := h.largestChunk
  have hwhole := h'.whole _ (largestFree_mem hpos)
  have hsplit := minSplitBytes_eq ndebug
  have hheader := sizeofHeader_le ndebug
  have hlt : largestFree (coalesce (sizeofHeader ndebug) blocks) < pool.size := by
    have hlength := h'.length_eq
    have hlast := pool.last_le
    have hfirst := lt_firstHdr pool.base
    obtain ⟨before, after, hblocks⟩ := List.append_of_mem (largestFree_mem hpos)
    have hinside := congrArg (extent (sizeofHeader ndebug)) hblocks
    rw [extent_append, extent] at hinside
    omega
  have hsize := pool.size_fits
  have hround : alignUp (largestFree (coalesce (sizeofHeader ndebug) blocks)) =
      largestFree (coalesce (sizeofHeader ndebug) blocks) :=
    alignUp_eq_self (Int.natCast_dvd_natCast.mp hwhole.2) (by omega)
  have hnone : firstFit (sizeofHeader ndebug) (largestFree (coalesce (sizeofHeader ndebug) blocks) +
      MIN_SPLIT_BYTES ndebug) [] [] (coalesce (sizeofHeader ndebug) blocks) = none := by
    refine firstFit_eq_none fun before found after hblocks hfree => ?_
    -- a run is one block, without another word behind its payload
    have hrun := extent_le_of_coalesce hblocks hfree
    omega
  have hneed : (alignUp (largestFree (coalesce (sizeofHeader ndebug) blocks)) +
      MIN_SPLIT_BYTES ndebug) % 2 ^ 64 =
        largestFree (coalesce (sizeofHeader ndebug) blocks) + MIN_SPLIT_BYTES ndebug := by
    rw [hround]
    exact Nat.mod_eq_of_lt (by omega)
  have halloc := vsaAlloc_eq h'.heap (show 0 < alignUp _ by omega) hneed
  rw [hnone] at halloc
  rw [halloc]

/-- **The advertised chunk can be had** only where nothing is advertised: in a reachable
heap without a free block. -/
theorem chunkCanBeHad_iff (ndebug : Bool) (pool : VsaPool)
    (hreached : (vsaMachine ndebug pool).Reached s) :
    s.ChunkCanBeHad ndebug ↔ s.NoneFree ndebug := by
  obtain ⟨blocks, h⟩ := vsaMachine_wf hreached
  have hfree : (∃ size ∈ blocks, 0 < size) ↔
      0 < largestFree (coalesce (sizeofHeader ndebug) blocks) :=
    exists_free_coalesce.symm.trans largestFree_pos_iff.symm
  rw [h.noneFree_iff, hfree, VsaState.ChunkCanBeHad]
  simp only [h.largestChunk_eq]
  constructor
  · intro hhad hpos
    exact hhad hpos (h.alloc_largest hpos)
  · intro hnot hpos
    exact absurd hpos hnot

/-- A pool of eight words. -/
def eightWords : VsaPool where
  base := 16384
  size := 64
  base_aligned := by decide
  size_fits := by decide
  pool_fits := by decide

/-- Its memory after the initialisation. -/
def eightWordsMemory : LongMemory :=
  ((vsaInit false (fun _ => 0) 16384 64).getD (fun _ => 0, 0)).1

/-- It may be initialised. -/
theorem eightWords_start :
    (vsaMachine false eightWords).Reached ⟨eightWordsMemory, 16384, []⟩ := by
  have hinit : vsaInit false (fun _ => 0) 16384 64 = some (eightWordsMemory, 16384) := rfl
  exact .start ⟨rfl, _, hinit⟩

/-- Forty bytes are advertised, and cannot be had. -/
theorem chunk_cannotBeHad :
    ∃ s, (vsaMachine false eightWords).Reached s ∧
      (vsaLargestChunkAvailable false s.mem s.vsa).2 = 40 ∧ ¬ s.ChunkCanBeHad false := by
  have hlargest : (vsaLargestChunkAvailable false eightWordsMemory 16384).2 = 40 := by
    decide +kernel
  have halloc : (vsaAlloc false (vsaLargestChunkAvailable false eightWordsMemory 16384).1
      16384 40).2 = none := by
    decide +kernel
  refine ⟨_, eightWords_start, hlargest, fun hhad => ?_⟩
  rw [VsaState.ChunkCanBeHad] at hhad
  simp only [hlargest] at hhad
  exact hhad (by decide) halloc

/-- A block of thirty-two bytes takes the whole heap. -/
theorem chunkCanBeHad_sample :
    ∃ s : VsaState, (s.live, s.mem 16392) = ([(16408, 32)], -40) ∧
      (s.ChunkCanBeHad false ↔ s.NoneFree false) := by
  have hrun : ((vsaMachine false eightWords).run ⟨eightWordsMemory, 16384, []⟩ [.alloc 32]).map
      (fun s => (s.live, s.mem 16392)) = some ([(16408, 32)], -40) := by
    decide +kernel
  obtain ⟨s, hs, hshown⟩ := eightWords_start.run_map hrun
  exact ⟨s, hshown, chunkCanBeHad_iff false eightWords hs⟩

/-!
## Lazy and eager joining

`VSAAlloc` adds up adjacent free blocks while it looks for room, and `Defrag` joins all of
them.  Both see the same free runs: joining moves no allocation, and what
`VSALargestChunkAvailable` measures afterwards is the longest run of before.
-/

variable {ndebug : Bool} {pool : VsaPool} {mem : LongMemory} {s : VsaState} {blocks : List Int}

/-! ## Allocation -/

/-- The address that `VSAAlloc` returns depends on where the first run with enough bytes
begins. -/
theorem vsaAlloc_address {vsa request : Nat}
    (h : Blocks ndebug mem (firstHdr vsa) blocks (endPool mem vsa))
    (hrequest : 0 < alignUp request) :
    (vsaAlloc ndebug mem vsa request).2 =
      (fitStart (sizeofHeader ndebug) ((alignUp request + MIN_SPLIT_BYTES ndebug) % 2 ^ 64)
        0 0 blocks).map fun before => firstHdr vsa + before + sizeofHeader ndebug := by
  have hstart : (firstFit (sizeofHeader ndebug)
      ((alignUp request + MIN_SPLIT_BYTES ndebug) % 2 ^ 64) [] [] blocks).map
        (fun found => extent (sizeofHeader ndebug) found.1) =
      fitStart (sizeofHeader ndebug) ((alignUp request + MIN_SPLIT_BYTES ndebug) % 2 ^ 64)
        0 0 blocks := firstFit_map_extent [] [] blocks
  rw [vsaAlloc_eq h hrequest rfl, ← hstart, Option.map_map]
  cases firstFit (sizeofHeader ndebug) ((alignUp request + MIN_SPLIT_BYTES ndebug) % 2 ^ 64)
    [] [] blocks <;> rfl

/-- **Lazy joining loses nothing**: in every reachable heap `VSAAlloc` returns what it
returns after `Defrag`. -/
theorem vsaAlloc_defrag (ndebug : Bool) (pool : VsaPool)
    (hreached : (vsaMachine ndebug pool).Reached s) (request : Nat) :
    (vsaAlloc ndebug (defrag ndebug s.mem s.vsa) s.vsa request).2 =
      (vsaAlloc ndebug s.mem s.vsa request).2 := by
  obtain ⟨blocks, h⟩ := vsaMachine_wf hreached
  have hjoined : Blocks ndebug (defrag ndebug s.mem s.vsa) (firstHdr s.vsa)
      (coalesce (sizeofHeader ndebug) blocks) (endPool (defrag ndebug s.mem s.vsa) s.vsa) := by
    obtain ⟨hblocks, hsame, -⟩ := vsaLargestChunkAvailable_blocks h.heap
    show Blocks ndebug (vsaLargestChunkAvailable ndebug s.mem s.vsa).1 _ _
      (endPool (vsaLargestChunkAvailable ndebug s.mem s.vsa).1 s.vsa)
    rw [endPool_congr (hsame s.vsa (lt_firstHdr s.vsa))]
    exact hblocks
  rcases Nat.eq_zero_or_pos (alignUp request) with hzero | hrequest
  · simp only [vsaAlloc, hzero, if_true]
  · rw [vsaAlloc_address hjoined hrequest, vsaAlloc_address h.heap hrequest, fitStart_coalesce]

/-- Two adjacent free blocks make room for a request that neither of them could meet. -/
theorem vsaAlloc_defrag_sample :
    ∃ s : VsaState, (s.live, s.mem 8200, s.mem 8224, (vsaAlloc false s.mem s.vsa 40).2) =
        ([(8296, 16)], 8, 40, some 8216) ∧
      (vsaAlloc false (defrag false s.mem s.vsa) s.vsa 40).2 =
        (vsaAlloc false s.mem s.vsa 40).2 := by
  have hrun : ((vsaMachine false vsaSamplePool).run ⟨vsaSampleMemory, 8192, []⟩
      [.alloc 5, .alloc 40, .alloc 16, .free 8240, .free 8216]).map
        (fun s => (s.live, s.mem 8200, s.mem 8224, (vsaAlloc false s.mem s.vsa 40).2)) =
          some ([(8296, 16)], 8, 40, some 8216) := by
    decide +kernel
  obtain ⟨s, hs, hshown⟩ := vsaSample_start.run_map hrun
  exact ⟨s, hshown, vsaAlloc_defrag false vsaSamplePool hs 40⟩

/-! ## The longest run -/

/-- The blocks from number `i` on and before number `j` are a maximal run of adjacent free
blocks. -/
structure VsaState.FreeRun (ndebug : Bool) (s : VsaState) (i j : Nat) : Prop where
  lt : i < j
  free : ∀ k, i ≤ k → k < j → s.FreeAt ndebug k
  first : ∀ k, k + 1 = i → ¬ s.FreeAt ndebug k
  last : ¬ s.FreeAt ndebug j

/-- The bytes of the run without one header. -/
def VsaState.runPayload (ndebug : Bool) (s : VsaState) (i j : Nat) : Nat :=
  s.headerAt ndebug j - s.headerAt ndebug i - sizeofHeader ndebug

/-- The payload of a run by its blocks. -/
theorem VsaState.Wf.runPayload_eq {before found after : List Int}
    (h : s.Wf ndebug pool (before ++ (found ++ after))) :
    s.runPayload ndebug before.length (before.length + found.length) =
      extent (sizeofHeader ndebug) found - sizeofHeader ndebug := by
  have hfirst := h.headerAt_length
  rw [← List.append_assoc] at h
  have hlast := h.headerAt_length
  rw [List.length_append, extent_append] at hlast
  rw [VsaState.runPayload, hfirst, hlast]
  omega

/-- The blocks of a run of the heap. -/
theorem VsaState.Wf.exists_run (h : s.Wf ndebug pool blocks) {i j : Nat} (hlt : i < j)
    (hfree : ∀ k, i ≤ k → k < j → s.FreeAt ndebug k) :
    ∃ before found after, before ++ (found ++ after) = blocks ∧ before.length = i ∧
      before.length + found.length = j ∧ ∀ size ∈ found, 0 < size := by
  have hj : j ≤ blocks.length := by
    obtain ⟨size, hsize, -⟩ := h.freeAt_iff.mp (hfree (j - 1) (by omega) (by omega))
    have hlast := (List.getElem?_eq_some_iff.mp hsize).1
    omega
  refine ⟨blocks.take i, (blocks.drop i).take (j - i), (blocks.drop i).drop (j - i), ?_, ?_, ?_,
    fun size hsize => ?_⟩
  · rw [List.take_append_drop, List.take_append_drop]
  · exact List.length_take_of_le (by omega)
  · rw [List.length_take, List.length_take, List.length_drop]
    omega
  · obtain ⟨k, hk⟩ := List.mem_iff_getElem?.mp hsize
    rw [List.getElem?_take] at hk
    split at hk
    · rw [List.getElem?_drop] at hk
      obtain ⟨size', hsize', hpos⟩ := h.freeAt_iff.mp (hfree (i + k) (by omega) (by omega))
      rw [hk] at hsize'
      obtain rfl := Option.some.inj hsize'
      exact hpos
    · cases hk

/-- A maximal run of the blocks is one of the heap. -/
theorem VsaState.Wf.freeRun {before found after : List Int}
    (h : s.Wf ndebug pool (before ++ (found ++ after))) (hrun : MaximalRun before found after) :
    s.FreeRun ndebug before.length (before.length + found.length) := by
  have hlength := List.length_pos_iff.mpr hrun.some_block
  refine ⟨by omega, fun k hlow hhigh => ?_, fun k hk hfree => ?_, fun hfree => ?_⟩
  · have hk : k - before.length < found.length := by omega
    rw [h.freeAt_iff, List.getElem?_append_right hlow, List.getElem?_append_left hk]
    exact ⟨_, List.getElem?_eq_getElem hk, hrun.free _ (List.getElem_mem hk)⟩
  · obtain ⟨size, hsize, hpos⟩ := h.freeAt_iff.mp hfree
    rw [List.getElem?_append_left (by omega)] at hsize
    refine hrun.first size ?_ hpos
    rw [List.getLast?_eq_getElem?, ← hk]
    exact hsize
  · obtain ⟨size, hsize, hpos⟩ := h.freeAt_iff.mp hfree
    rw [List.getElem?_append_right (Nat.le_add_right _ _), Nat.add_sub_cancel_left,
      List.getElem?_append_right (Nat.le_refl _), Nat.sub_self] at hsize
    refine hrun.last size ?_ hpos
    rw [List.head?_eq_getElem?]
    exact hsize

/-- What `VSALargestChunkAvailable` returns. -/
def VsaState.largest (ndebug : Bool) (s : VsaState) : Nat :=
  (vsaLargestChunkAvailable ndebug s.mem s.vsa).2

/-- What it leaves. -/
def VsaState.joined (ndebug : Bool) (s : VsaState) : VsaState :=
  { s with mem := (vsaLargestChunkAvailable ndebug s.mem s.vsa).1 }

/-- **`VSALargestChunkAvailable` measures the longest run.** -/
theorem VsaState.Wf.isGreatest (h : s.Wf ndebug pool blocks) {i j : Nat}
    (hrun : s.FreeRun ndebug i j) :
    IsGreatest {n | ∃ i j, s.FreeRun ndebug i j ∧ n = s.runPayload ndebug i j}
      (s.largest ndebug) := by
  rw [VsaState.largest, h.largestChunk_eq]
  constructor
  · have hpos : 0 < largestFree (coalesce (sizeofHeader ndebug) blocks) := by
      obtain ⟨size, hsize, hpos⟩ := h.freeAt_iff.mp (hrun.free i (Nat.le_refl i) hrun.lt)
      exact largestFree_pos_iff.mpr
        (exists_free_coalesce.mpr ⟨size, List.mem_of_getElem? hsize, hpos⟩)
    obtain ⟨before, found, after, rfl, hmaximal, hextent⟩ := exists_largest_maximalRun hpos
    refine ⟨_, _, h.freeRun hmaximal, ?_⟩
    rw [h.runPayload_eq, hextent]
    omega
  · rintro n ⟨i, j, hrun, rfl⟩
    obtain ⟨before, found, after, hsplit, rfl, rfl, hfree⟩ := h.exists_run hrun.lt hrun.free
    have hle : extent (sizeofHeader ndebug) found ≤
        sizeofHeader ndebug + largestFree (coalesce (sizeofHeader ndebug) blocks) :=
      extent_le_largestFree hsplit hfree
    subst hsplit
    rw [h.runPayload_eq]
    omega

/-- Where there is no run it returns nothing. -/
theorem VsaState.Wf.largest_eq_zero (h : s.Wf ndebug pool blocks)
    (hnone : ∀ i j, ¬ s.FreeRun ndebug i j) : s.largest ndebug = 0 := by
  rw [VsaState.largest, h.largestChunk_eq]
  by_contra hsome
  obtain ⟨before, found, after, rfl, hmaximal, -⟩ :=
    exists_largest_maximalRun (Nat.pos_of_ne_zero hsome)
  exact hnone _ _ (h.freeRun hmaximal)

/-! ## What is live -/

/-- A used block has its header on the walk. -/
theorem VsaState.Wf.exists_header (h : s.Wf ndebug pool blocks) {p n : Nat}
    (hused : (p, n) ∈ used (sizeofHeader ndebug) (firstHdr pool.base) blocks) :
    ∃ i, s.headerAt ndebug i + sizeofHeader ndebug = p := by
  obtain ⟨before, after, size, rfl, -, -, rfl⟩ := mem_used hused
  rw [List.append_assoc] at h
  exact ⟨before.length, by rw [h.headerAt_length]⟩

/-- The words of a used block are kept. -/
theorem VsaState.Wf.joined_kept (h : s.Wf ndebug pool blocks) {p n address : Nat}
    (hused : (p, n) ∈ used (sizeofHeader ndebug) (firstHdr pool.base) blocks)
    (hlow : p ≤ address + sizeofHeader ndebug) (hhigh : address < p + n) :
    (s.joined ndebug).mem address = s.mem address := by
  rw [← h.vsa_eq] at hused
  exact defragLoop_kept h.heap (Nat.le_refl _) hused hlow hhigh

/-- A second measurement finds everything joined. -/
theorem VsaState.Wf.joined_joined (h : s.Wf ndebug pool blocks) :
    (s.joined ndebug).joined ndebug = s.joined ndebug := by
  have hjoined : (s.joined ndebug).Wf ndebug pool (coalesce (sizeofHeader ndebug) blocks) :=
    h.largestChunk
  have hsame : defrag ndebug (s.joined ndebug).mem pool.base = (s.joined ndebug).mem := by
    rw [defrag, hjoined.endPool_eq]
    exact defragLoop_eq_self hjoined.chain (Nat.le_refl _) fun before after size size' =>
      coalesce_alternates before after
  rw [← hjoined.vsa_eq] at hsame
  show { s.joined ndebug with mem := defrag ndebug (s.joined ndebug).mem (s.joined ndebug).vsa } = _
  rw [hsame]

/-- The length is read in what is left. -/
theorem VsaState.largest_eq (ndebug : Bool) (s : VsaState) :
    s.largest ndebug = largestLoop ndebug (firstHdr s.vsa) (endPool (s.joined ndebug).mem s.vsa)
      (s.joined ndebug).mem (firstHdr s.vsa) 0 := rfl

/-- It returns the same. -/
theorem VsaState.Wf.largest_joined (h : s.Wf ndebug pool blocks) :
    (s.joined ndebug).largest ndebug = s.largest ndebug := by
  rw [VsaState.largest_eq, h.joined_joined, VsaState.largest_eq]
  rfl

/-- Without a live block the whole pool is free. -/
theorem VsaState.Wf.largest_of_live_nil (h : s.Wf ndebug pool blocks) (hlive : s.live = []) :
    s.largest ndebug = pool.last - firstHdr pool.base - sizeofHeader ndebug := by
  have hnone : used (sizeofHeader ndebug) (firstHdr pool.base) blocks = [] := by
    have hperm := h.live
    rw [hlive] at hperm
    exact List.map_eq_nil_iff.mp hperm.nil_eq.symm
  have hfree : ∀ size ∈ blocks, 0 < size := by
    intro size hsize
    have hneg := not_neg_of_used_eq_nil hnone size hsize
    have hzero := (h.whole size hsize).1
    omega
  rw [VsaState.largest, h.largestChunk_eq, largestFree_coalesce_of_free hfree, h.length_eq,
    Nat.add_sub_cancel_left]

/-- What is promised of `VSALargestChunkAvailable` in a heap. -/
structure VsaState.Measured (ndebug : Bool) (pool : VsaPool) (s : VsaState) : Prop where
  largest : ∀ i j, s.FreeRun ndebug i j →
    IsGreatest {n | ∃ i j, s.FreeRun ndebug i j ∧ n = s.runPayload ndebug i j} (s.largest ndebug)
  none : (∀ i j, ¬ s.FreeRun ndebug i j) → s.largest ndebug = 0
  live : ∀ x ∈ s.live,
    (∃ i, (s.joined ndebug).headerAt ndebug i + sizeofHeader ndebug = x.1) ∧
    (s.joined ndebug).mem (x.1 - sizeofHeader ndebug) < 0 ∧
    blockLength ndebug (s.joined ndebug).mem x.1 = blockLength ndebug s.mem x.1 ∧
    ∀ address, x.1 - sizeofHeader ndebug ≤ address →
      address < x.1 + blockLength ndebug s.mem x.1 →
      (s.joined ndebug).mem address = s.mem address
  twice : (s.joined ndebug).joined ndebug = s.joined ndebug ∧
    (s.joined ndebug).largest ndebug = s.largest ndebug
  freed : s.live = [] → ∀ s₀, (vsaMachine ndebug pool).start s₀ →
    s.largest ndebug = s₀.largest ndebug

/-- **The measurement is exact and harmless**: in every reachable heap it returns the payload
of the longest free run, keeps every word of the live blocks, may be repeated, and returns
the payload of the first block when everything is freed. -/
theorem vsa_measured (ndebug : Bool) (pool : VsaPool)
    (hreached : (vsaMachine ndebug pool).Reached s) : s.Measured ndebug pool := by
  obtain ⟨blocks, h⟩ := vsaMachine_wf hreached
  have hjoined : (s.joined ndebug).Wf ndebug pool (coalesce (sizeofHeader ndebug) blocks) :=
    h.largestChunk
  refine ⟨fun i j hrun => h.isGreatest hrun, h.largest_eq_zero, fun x hx => ?_,
    ⟨h.joined_joined, h.largest_joined⟩, fun hlive s₀ hstart => ?_⟩
  · obtain ⟨n, -, hused⟩ := h.used_of_live hx
    have hused' := hused
    rw [← used_coalesce] at hused'
    obtain ⟨hneg, hlength⟩ := used_header hjoined.chain hused'
    rw [(used_header h.chain hused).2]
    refine ⟨hjoined.exists_header hused', hneg, hlength, fun address hlow hhigh => ?_⟩
    exact h.joined_kept hused (by omega) hhigh
  · obtain ⟨blocks₀, h₀⟩ := VsaState.wf_start hstart
    rw [h.largest_of_live_nil hlive, h₀.largest_of_live_nil hstart.1]

/-- Two adjacent free blocks, and a free block behind the live one: both runs have 64 bytes. -/
theorem vsa_measured_sample :
    ∃ s : VsaState, (s.live, s.mem 8200, s.mem 8224, s.mem 8280, s.mem 8312, s.largest false) =
        ([(8296, 16)], 8, 40, -16, 64, 64) ∧
      s.Measured false vsaSamplePool := by
  have hrun : ((vsaMachine false vsaSamplePool).run ⟨vsaSampleMemory, 8192, []⟩
      [.alloc 5, .alloc 40, .alloc 16, .free 8240, .free 8216]).map
        (fun s => (s.live, s.mem 8200, s.mem 8224, s.mem 8280, s.mem 8312, s.largest false)) =
          some ([(8296, 16)], 8, 40, -16, 64, 64) := by
    decide +kernel
  obtain ⟨s, hs, hshown⟩ := vsaSample_start.run_map hrun
  exact ⟨s, hshown, vsa_measured false vsaSamplePool hs⟩

end Alloc
end InfinityLabs
