import InfinityLabs.Alloc.VsaCoalesce

/-!
# Requests of every size

`FindFitAndCommit` adds the header and a word to the rounded request, modulo `2 ^ 64`.  A
request from the end of the range wraps to a few bytes, which every free block has, and
`CommitAlloc` subtracts a size that is negative as a `long`.
-/

namespace InfinityLabs
namespace Alloc

open Lib

variable {ndebug : Bool} {pool : VsaPool} {mem : LongMemory} {s : VsaState} {blocks : List Int}
  {request : Nat}

/-! ## The machine -/

/-- A step with any request that is a `size_t`. -/
def VsaState.stepAny (ndebug : Bool) (pool : VsaPool) (s : VsaState) :
    VsaAction → Option VsaState
  | .alloc request =>
      if request < 2 ^ 64 then
        let (mem, block) := vsaAlloc ndebug s.mem s.vsa request
        some { s with mem := mem, live := block.toList.map (·, request) ++ s.live }
      else none
  | a => s.step ndebug pool a

/-- The runs with any requests. -/
def vsaAnyMachine (ndebug : Bool) (pool : VsaPool) : Machine VsaState VsaAction where
  start := (vsaMachine ndebug pool).start
  step s a := s.stepAny ndebug pool a

/-- The sum of `FindFitAndCommit` does not wrap, or there is no block that it would be
compared with. -/
def VsaState.Admits (ndebug : Bool) (s : VsaState) (request : Nat) : Prop :=
  alignUp request + MIN_SPLIT_BYTES ndebug < 2 ^ 64 ∨ s.NoneFree ndebug

/-- Only requests of this kind are made. -/
def AdmittedRequests (ndebug : Bool) (s : VsaState) : VsaAction → Prop
  | .alloc request => s.Admits ndebug request
  | _ => True

/-- The walk along the headers stays in the pool, reads non-zero sizes of whole words, and
ends exactly at the end of the pool. -/
def WalkTiles (ndebug : Bool) (pool : VsaPool) (mem : LongMemory) (vsa : Nat) : Prop :=
  ∃ headers, (nextHdr ndebug mem)^[headers] (firstHdr vsa) = pool.last ∧
    ∀ i < headers,
      firstHdr vsa ≤ (nextHdr ndebug mem)^[i] (firstHdr vsa) ∧
      (nextHdr ndebug mem)^[i] (firstHdr vsa) + sizeofHeader ndebug ≤ pool.last ∧
      WholeWords (mem ((nextHdr ndebug mem)^[i] (firstHdr vsa)))

/-- A block that `VSAAlloc` returns for the request has its header on the walk, the bytes of
the request and an end in the pool; and the walk still tiles the pool. -/
def VsaState.AllocSafe (ndebug : Bool) (pool : VsaPool) (s : VsaState) (request : Nat) : Prop :=
  ∀ mem p, vsaAlloc ndebug s.mem s.vsa request = (mem, some p) →
    (∃ i, (nextHdr ndebug mem)^[i] (firstHdr s.vsa) + sizeofHeader ndebug = p) ∧
    firstHdr s.vsa + sizeofHeader ndebug ≤ p ∧
    request ≤ blockLength ndebug mem p ∧
    p + blockLength ndebug mem p ≤ pool.last ∧
    WalkTiles ndebug pool mem s.vsa

/-! ## Requests that do not wrap -/

/-- Without a result the memory is as it was. -/
theorem vsaAlloc_eq_of_none {vsa : Nat} (hnone : (vsaAlloc ndebug mem vsa request).2 = none) :
    vsaAlloc ndebug mem vsa request = (mem, none) := by
  rw [vsaAlloc] at hnone ⊢
  split
  · rfl
  · rename_i hpos
    simp only [hpos, if_false] at hnone
    cases hfind : findFitAndCommit ndebug mem vsa (alignUp request) with
    | none => rfl
    | some result =>
        rw [hfind] at hnone
        cases hnone

/-- The address that is returned, for the blocks of a heap. -/
theorem VsaState.Wf.alloc_address (h : s.Wf ndebug pool blocks) (hpos : 0 < alignUp request) :
    (vsaAlloc ndebug s.mem s.vsa request).2 =
      (fitStart (sizeofHeader ndebug) ((alignUp request + MIN_SPLIT_BYTES ndebug) % 2 ^ 64)
        0 0 blocks).map fun before => firstHdr s.vsa + before + sizeofHeader ndebug :=
  vsaAlloc_address h.heap hpos

/-- Without a free block nothing is returned. -/
theorem VsaState.Wf.alloc_of_noneFree (h : s.Wf ndebug pool blocks)
    (hnone : s.NoneFree ndebug) : vsaAlloc ndebug s.mem s.vsa request = (s.mem, none) := by
  apply vsaAlloc_eq_of_none
  rcases Nat.eq_zero_or_pos (alignUp request) with hzero | hpos
  · simp only [vsaAlloc, hzero, if_true]
  · have hused : ∀ size ∈ blocks, ¬ 0 < size := fun size hsize hfree =>
      h.noneFree_iff.mp hnone ⟨size, hsize, hfree⟩
    rw [h.alloc_address hpos, fitStart_eq_none 0 0 hused]
    rfl

/-- More than the pool is not to be had, where the sum does not wrap. -/
theorem VsaState.Wf.alloc_of_long (h : s.Wf ndebug pool blocks) (hrequest : request < 2 ^ 64)
    (hlong : pool.size < request)
    (hneed : alignUp request + MIN_SPLIT_BYTES ndebug < 2 ^ 64) :
    vsaAlloc ndebug s.mem s.vsa request = (s.mem, none) := by
  apply vsaAlloc_eq_of_none
  rcases Nat.eq_zero_or_pos (alignUp request) with hzero | hpos
  · simp only [vsaAlloc, hzero, if_true]
  · have hround := le_alignUp hrequest hpos
    have hlength := h.length_eq
    have hlast := (alignDown_bounds pool.size).1
    rw [VsaPool.last, firstHdr] at hlength
    rw [vsaAlloc_eq h.heap hpos (Nat.mod_eq_of_lt hneed), firstFit_eq_none]
    -- no run is longer than all the blocks
    intro before found after hsplit _
    have hparts := congrArg (extent (sizeofHeader ndebug)) hsplit
    rw [extent_append, extent_append] at hparts
    omega

/-- **Requests that do not wrap reach no other heap** than requests of the size of the pool. -/
theorem reached_of_admitted
    (h : (vsaAnyMachine ndebug pool).ReachedBy (AdmittedRequests ndebug) s) :
    (vsaMachine ndebug pool).Reached s := by
  induction h with
  | start hstart => exact .start hstart
  | @step s s' a _ hguard hstep ih =>
      have hgo : ∀ a, s.step ndebug pool a = some s' → (vsaMachine ndebug pool).Reached s' :=
        fun a ha => Machine.ReachedBy.step ih trivial ha
      cases a with
      | free block => exact hgo (.free block) hstep
      | largestChunk => exact hgo .largestChunk hstep
      | write address value => exact hgo (.write address value) hstep
      | alloc request =>
          have hstep' : s.stepAny ndebug pool (.alloc request) = some s' := hstep
          rw [VsaState.stepAny] at hstep'
          split at hstep'
          · rename_i hrequest
            by_cases hle : request ≤ pool.size
            case pos =>
              have hsame : s.step ndebug pool (.alloc request) = some s' := by
                rw [VsaState.step, if_pos hle]
                exact hstep'
              exact hgo (.alloc request) hsame
            case neg =>
              obtain ⟨blocks, hwf⟩ := vsaMachine_wf ih
              have hnone : vsaAlloc ndebug s.mem s.vsa request = (s.mem, none) := by
                rcases hguard with hneed | hfree
                · exact hwf.alloc_of_long hrequest (Nat.lt_of_not_le hle) hneed
                · exact hwf.alloc_of_noneFree hfree
              rw [hnone] at hstep'
              obtain rfl := Option.some.inj hstep'
              exact ih
          · cases hstep'

/-- A request that does not wrap is safe. -/
theorem VsaState.Wf.allocSafe (h : s.Wf ndebug pool blocks) (hrequest : request < 2 ^ 64)
    (hadmits : s.Admits ndebug request) : s.AllocSafe ndebug pool request := by
  intro mem p halloc
  by_cases hle : request ≤ pool.size
  case pos =>
    rcases h.alloc hle with hnone | ⟨mem', block, blocks', hsome, hwf⟩
    · rw [hnone] at halloc
      cases halloc
    · rw [hsome] at halloc
      obtain ⟨rfl, hblock⟩ := Prod.mk.inj halloc
      obtain rfl := Option.some.inj hblock
      -- the promises are those of a tiled heap about its newest block
      obtain ⟨n, -, hused⟩ := hwf.used_of_live List.mem_cons_self
      have htiled := hwf.tiled
      obtain ⟨-, hlow, hhigh, hlong, -⟩ := htiled.live _ List.mem_cons_self
      have hend := htiled.end_pool
      have hwalk := htiled.walk
      rw [hend] at hhigh hwalk
      exact ⟨hwf.exists_header hused, hlow, hlong, hhigh, hwalk⟩
  case neg =>
    have hnone : vsaAlloc ndebug s.mem s.vsa request = (s.mem, none) := by
      rcases hadmits with hneed | hfree
      · exact h.alloc_of_long hrequest (Nat.lt_of_not_le hle) hneed
      · exact h.alloc_of_noneFree hfree
    rw [hnone] at halloc
    cases halloc

/-! ## Requests that wrap -/

/-- What is left of the sum after wrapping is not more than a header. -/
theorem wrapped_le (hrequest : 2 ^ 64 ≤ alignUp request + MIN_SPLIT_BYTES ndebug) :
    (alignUp request + MIN_SPLIT_BYTES ndebug) % 2 ^ 64 ≤ sizeofHeader ndebug := by
  have hsplit := minSplitBytes_eq ndebug
  have hheader := sizeofHeader_le ndebug
  simp only [alignUp, alignDown, WORD_SIZE] at *
  omega

/-- **A request that wraps gets a block** where any block is free. -/
theorem VsaState.Wf.alloc_of_wraps (h : s.Wf ndebug pool blocks)
    (hwraps : 2 ^ 64 ≤ alignUp request + MIN_SPLIT_BYTES ndebug)
    (hfree : ¬ s.NoneFree ndebug) : ∃ p, (vsaAlloc ndebug s.mem s.vsa request).2 = some p := by
  have hsplit := minSplitBytes_eq ndebug
  have hheader := sizeofHeader_le ndebug
  rw [h.noneFree_iff, not_not] at hfree
  obtain ⟨size, hsize, hpos⟩ := hfree
  obtain ⟨before, after, hblocks⟩ := List.append_of_mem hsize
  have hlong : (alignUp request + MIN_SPLIT_BYTES ndebug) % 2 ^ 64 ≤
      extent (sizeofHeader ndebug) [size] := by
    rw [extent_singleton]
    exact Nat.le_trans (wrapped_le hwraps) (Nat.le_add_right _ _)
  have hfound := fitStart_isSome 0 0 before after (List.cons_ne_nil size [])
    (fun x hx => List.mem_singleton.mp hx ▸ hpos) hlong
  rw [List.singleton_append, ← hblocks] at hfound
  obtain ⟨start, hstart⟩ := Option.isSome_iff_exists.mp hfound
  rw [h.alloc_address (by omega), hstart]
  exact ⟨_, rfl⟩

/-- The block that it gets has not the bytes. -/
theorem VsaState.Wf.not_allocSafe (h : s.Wf ndebug pool blocks)
    (hwraps : 2 ^ 64 ≤ alignUp request + MIN_SPLIT_BYTES ndebug)
    (hfree : ¬ s.NoneFree ndebug) : ¬ s.AllocSafe ndebug pool request := by
  intro hsafe
  obtain ⟨p, hp⟩ := h.alloc_of_wraps hwraps hfree
  obtain ⟨-, hlow, hlong, hhigh, -⟩ := hsafe _ p (Prod.ext rfl hp)
  have hsplit := minSplitBytes_eq ndebug
  have hheader := sizeofHeader_le ndebug
  have hround := alignUp_le request
  have hsize := pool.size_fits
  have hlast := (alignDown_bounds pool.size).1
  rw [h.vsa_eq, firstHdr] at hlow
  rw [VsaPool.last] at hhigh
  rw [WORD_SIZE] at hround
  omega

/-- **Safe requests**: in every run whose requests do not wrap while a block is free, the next
request is safe exactly if it does not either. -/
theorem allocSafe_iff (ndebug : Bool) (pool : VsaPool)
    (hreached : (vsaAnyMachine ndebug pool).ReachedBy (AdmittedRequests ndebug) s)
    (hrequest : request < 2 ^ 64) :
    s.AllocSafe ndebug pool request ↔
      alignUp request + MIN_SPLIT_BYTES ndebug < 2 ^ 64 ∨ s.NoneFree ndebug := by
  obtain ⟨blocks, h⟩ := vsaMachine_wf (reached_of_admitted hreached)
  constructor
  · intro hsafe
    by_contra hnot
    rw [not_or, Nat.not_lt] at hnot
    exact h.not_allocSafe hnot.1 hnot.2 hsafe
  · exact h.allocSafe hrequest

/-- A new heap may be asked for anything. -/
theorem eightWords_startAny : (vsaAnyMachine false eightWords).ReachedBy
    (AdmittedRequests false) ⟨eightWordsMemory, 16384, []⟩ := by
  have hinit : vsaInit false (fun _ => 0) 16384 64 = some (eightWordsMemory, 16384) := rfl
  exact .start ⟨rfl, _, hinit⟩

/-- A request for more than the heap is safe, as nothing is returned. -/
theorem allocSafe_iff_eightWords :
    (⟨eightWordsMemory, 16384, []⟩ : VsaState).AllocSafe false eightWords (2 ^ 63) ↔
      alignUp (2 ^ 63) + MIN_SPLIT_BYTES false < 2 ^ 64 ∨
        (⟨eightWordsMemory, 16384, []⟩ : VsaState).NoneFree false :=
  allocSafe_iff false eightWords eightWords_startAny (by decide)

/-- All but eight of `2 ^ 64` bytes are returned from a new heap of eight words. -/
theorem alloc_notSafe :
    ∃ s request, (vsaAnyMachine false eightWords).ReachedBy (AdmittedRequests false) s ∧
      request < 2 ^ 64 ∧ ¬ s.AllocSafe false eightWords request := by
  refine ⟨_, 2 ^ 64 - 8, eightWords_startAny, by decide, fun hsafe => ?_⟩
  have halloc : (vsaAlloc false eightWordsMemory 16384 (2 ^ 64 - 8)).2 = some 16408 := by
    decide +kernel
  obtain ⟨-, -, hlong, hhigh, -⟩ := hsafe _ 16408 (Prod.ext rfl halloc)
  have hlast : eightWords.last = 16448 := by decide
  omega

end Alloc
end InfinityLabs
