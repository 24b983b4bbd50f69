import Mathlib.Data.List.TakeWhile
import InfinityLabs.Lib.BlockChain

/-!
# Runs of free blocks

What an allocator does with the free blocks of a sequence, as operations on the sizes: to
join adjacent ones, to find the first run of adjacent ones with enough bytes, and to
measure the largest one.
-/

namespace InfinityLabs
namespace Lib

variable {headerSize : Nat} {blocks : List Int}

/-- A block with this size is free. -/
def isFree (size : Int) : Bool := decide (0 < size)

/-- The sign is the mark. -/
theorem isFree_iff {size : Int} : isFree size = true ↔ 0 < size := decide_eq_true_iff

/-! ## Joining -/

/-- Each run of adjacent free blocks as one block. -/
def coalesce (headerSize : Nat) : List Int → List Int
  | [] => []
  | size :: blocks =>
      match coalesce headerSize blocks with
      | [] => [size]
      | size' :: rest =>
          if 0 < size ∧ 0 < size' then (size + (headerSize + size')) :: rest
          else size :: size' :: rest

/-- A used block stays. -/
theorem coalesce_cons_of_neg {size : Int} (hsize : ¬ 0 < size) :
    coalesce headerSize (size :: blocks) = size :: coalesce headerSize blocks := by
  rw [coalesce]
  split
  · rename_i hnil
    rw [hnil]
  · rename_i hcons
    rw [hcons, if_neg fun hpos => hsize hpos.1]

/-- A free block takes in the free blocks behind it. -/
theorem coalesce_cons_of_pos {size : Int} (hsize : 0 < size) :
    coalesce headerSize (size :: blocks) =
      (size + extent headerSize (blocks.takeWhile isFree)) ::
        coalesce headerSize (blocks.dropWhile isFree) := by
  induction blocks generalizing size with
  | nil => simp [coalesce, extent]
  | cons size' blocks ih =>
      by_cases hsize' : 0 < size'
      · rw [coalesce, ih hsize', List.takeWhile_cons_of_pos (isFree_iff.mpr hsize'),
          List.dropWhile_cons_of_pos (isFree_iff.mpr hsize'), extent]
        have hpos : 0 < size' + (extent headerSize (blocks.takeWhile isFree) : Int) := by
          omega
        simp only [hsize, hpos, and_self, if_true]
        congr 1
        omega
      · have hused : ¬ isFree size' = true := fun hfree => hsize' (isFree_iff.mp hfree)
        rw [coalesce, List.takeWhile_cons_of_neg hused, List.dropWhile_cons_of_neg hused,
          coalesce_cons_of_neg hsize']
        simp [hsize', extent]

/-- Joining keeps the used blocks. -/
theorem used_coalesce (a : Nat) (blocks : List Int) :
    used headerSize a (coalesce headerSize blocks) = used headerSize a blocks := by
  induction blocks generalizing a with
  | nil => rfl
  | cons size blocks ih =>
      rw [coalesce, used, ← ih]
      split
      · rename_i hnil
        rw [hnil]
        rfl
      · rename_i size' rest hcons
        rw [hcons]
        split
        · rename_i hpos
          have hnext : a + headerSize + (size + (headerSize + size')).natAbs =
              a + headerSize + size.natAbs + headerSize + size'.natAbs := by omega
          rw [used, used, if_neg (by omega), if_neg (by omega), if_neg (by omega), hnext]
          rfl
        · rw [used]

/-- What holds of sizes and of sums of positive ones holds after joining. -/
theorem forall_mem_coalesce {p : Int → Prop} (hblocks : ∀ size ∈ blocks, p size)
    (hjoin : ∀ size size', 0 < size → 0 < size' → p size → p size' →
      p (size + (headerSize + size'))) : ∀ size ∈ coalesce headerSize blocks, p size := by
  induction blocks with
  | nil => exact hblocks
  | cons size blocks ih =>
      have hrest := ih fun size' h => hblocks size' (List.mem_cons_of_mem size h)
      have hsize := hblocks size List.mem_cons_self
      rw [coalesce]
      split
      · simpa using hsize
      · rename_i size' rest hcons
        rw [hcons] at hrest
        have hsize' := hrest size' List.mem_cons_self
        intro x hx
        split at hx
        · rename_i hpos
          rcases List.mem_cons.mp hx with rfl | hx
          · exact hjoin size size' hpos.1 hpos.2 hsize hsize'
          · exact hrest x (List.mem_cons_of_mem size' hx)
        · rcases List.mem_cons.mp hx with rfl | hx
          · exact hsize
          · exact hrest x hx

/-- There is a free block after joining if there was one before. -/
theorem exists_free_coalesce :
    (∃ size ∈ coalesce headerSize blocks, 0 < size) ↔ ∃ size ∈ blocks, 0 < size := by
  induction blocks with
  | nil => exact Iff.rfl
  | cons size blocks ih =>
      rw [List.exists_mem_cons_iff, ← ih, coalesce]
      split
      · rename_i hnil
        simp [hnil]
      · rename_i size' rest hcons
        rw [hcons]
        split
        · rename_i hpos
          refine iff_of_true ⟨_, List.mem_cons_self, ?_⟩ (Or.inl hpos.1)
          omega
        · exact List.exists_mem_cons_iff _ _ _

/-- After joining no two free blocks are adjacent. -/
theorem coalesce_alternates (before after : List Int) {size size' : Int}
    (h : coalesce headerSize blocks = before ++ size :: size' :: after) :
    ¬ (0 < size ∧ 0 < size') := by
  induction blocks generalizing before size with
  | nil => simp [coalesce] at h
  | cons first blocks ih =>
      rw [coalesce] at h
      split at h
      · cases before <;> simp at h
      · rename_i second rest hcons
        cases before with
        | nil =>
            split at h
            · -- the first block has taken in the second one
              rename_i hpos
              obtain ⟨-, rfl⟩ := List.cons.inj h
              intro hpos'
              exact ih [] hcons ⟨hpos.2, hpos'.2⟩
            · rename_i hnot
              obtain ⟨rfl, hrest⟩ := List.cons.inj h
              obtain ⟨rfl, -⟩ := List.cons.inj hrest
              exact hnot
        | cons x before =>
            split at h
            · obtain ⟨-, rfl⟩ := List.cons.inj h
              exact ih (second :: before) hcons
            · obtain ⟨-, hrest⟩ := List.cons.inj h
              exact ih before (hcons.trans hrest)

/-! ## First fit -/

/-- The first run of adjacent free blocks with `need` bytes, between the blocks before and
behind it; the blocks so far are `skipped` and the free ones of `run`. -/
def firstFit (headerSize need : Nat) :
    List Int → List Int → List Int → Option (List Int × List Int × List Int)
  | _, _, [] => none
  | skipped, run, size :: rest =>
      if 0 < size then
        if need ≤ extent headerSize (run ++ [size]) then some (skipped, run ++ [size], rest)
        else firstFit headerSize need skipped (run ++ [size]) rest
      else firstFit headerSize need (skipped ++ run ++ [size]) [] rest

/-- A run that is found consists of free blocks, and is long enough. -/
structure Fits (headerSize need : Nat) (blocks before found after : List Int) : Prop where
  split : before ++ found ++ after = blocks
  free : ∀ size ∈ found, 0 < size
  long : need ≤ extent headerSize found

/-- **First fit finds runs that fit.** -/
theorem firstFit_fits {need : Nat} {skipped run rest before found after : List Int}
    (hrun : ∀ size ∈ run, 0 < size)
    (h : firstFit headerSize need skipped run rest = some (before, found, after)) :
    Fits headerSize need (skipped ++ run ++ rest) before found after := by
  induction rest generalizing skipped run with
  | nil => cases h
  | cons size rest ih =>
      rw [firstFit] at h
      split at h
      · rename_i hpos
        have hrun' : ∀ x ∈ run ++ [size], 0 < x := by
          intro x hx
          rcases List.mem_append.mp hx with hx | hx
          · exact hrun x hx
          · rwa [List.mem_singleton.mp hx]
        split at h
        · rename_i hlong
          cases h
          exact ⟨by simp, hrun', hlong⟩
        · have hfits := ih hrun' h
          rwa [← List.append_assoc, List.append_assoc _ [size]] at hfits
      · have hfits := ih (fun _ hx => absurd hx List.not_mem_nil) h
        rwa [List.append_nil, List.append_assoc _ [size]] at hfits

/-- Nothing is found where every free run is too short. -/
theorem firstFit_eq_none {need : Nat}
    (hshort : ∀ before found after, before ++ found ++ after = blocks →
      (∀ size ∈ found, 0 < size) → extent headerSize found < need) :
    firstFit headerSize need [] [] blocks = none := by
  cases h : firstFit headerSize need [] [] blocks with
  | none => rfl
  | some result =>
      obtain ⟨before, found, after⟩ := result
      have hfits := firstFit_fits (fun _ hx => absurd hx List.not_mem_nil) h
      exact absurd hfits.long (Nat.not_le.mpr (hshort before found after hfits.split hfits.free))

/-- Where the run that first fit finds begins; `a` bytes come before the current run, which has
`r` bytes so far. -/
def fitStart (headerSize need : Nat) : Nat → Nat → List Int → Option Nat
  | _, _, [] => none
  | a, r, size :: rest =>
      if 0 < size then
        if need ≤ r + (headerSize + size.natAbs) then some a
        else fitStart headerSize need a (r + (headerSize + size.natAbs)) rest
      else fitStart headerSize need (a + r + (headerSize + size.natAbs)) 0 rest

/-- The length of what comes before the run that is found. -/
theorem firstFit_map_extent {need : Nat} (skipped run rest : List Int) :
    (firstFit headerSize need skipped run rest).map (fun found => extent headerSize found.1) =
      fitStart headerSize need (extent headerSize skipped) (extent headerSize run) rest := by
  induction rest generalizing skipped run with
  | nil => rfl
  | cons size rest ih =>
      unfold firstFit fitStart
      rw [extent_append run, extent_singleton]
      by_cases hsize : 0 < size
      case pos =>
        rw [if_pos hsize, if_pos hsize]
        by_cases hlong : need ≤ extent headerSize run + (headerSize + size.natAbs)
        case pos => rw [if_pos hlong, if_pos hlong, Option.map_some]
        case neg => rw [if_neg hlong, if_neg hlong, ih, extent_append run, extent_singleton]
      case neg =>
        rw [if_neg hsize, if_neg hsize, ih, extent_append, extent_append, extent_singleton]
        rfl

/-- A free run is found where it begins, as soon as it is long enough. -/
theorem fitStart_append {need a r : Nat} {run rest : List Int} (hfree : ∀ size ∈ run, 0 < size) :
    fitStart headerSize need a r (run ++ rest) =
      if run ≠ [] ∧ need ≤ r + extent headerSize run then some a
      else fitStart headerSize need a (r + extent headerSize run) rest := by
  induction run generalizing r with
  | nil => simp [extent]
  | cons size run ih =>
      have hsize := hfree size List.mem_cons_self
      have hrun := ih (r := r + (headerSize + size.natAbs)) fun x hx =>
        hfree x (List.mem_cons_of_mem size hx)
      have hsum : r + extent headerSize (size :: run) =
          r + (headerSize + size.natAbs) + extent headerSize run := by
        rw [extent]
        omega
      rw [List.cons_append, fitStart, if_pos hsize, hrun, hsum]
      by_cases hlong : need ≤ r + (headerSize + size.natAbs)
      case pos =>
        rw [if_pos hlong, if_pos ⟨List.cons_ne_nil size run, by omega⟩]
      case neg =>
        rw [if_neg hlong]
        by_cases hnil : run = []
        case pos => simp [hnil, extent, hlong]
        case neg => simp [hnil]

/-- **Joining does not move the run that first fit finds.** -/
theorem fitStart_coalesce {need : Nat} (a r : Nat) (blocks : List Int) :
    fitStart headerSize need a r (coalesce headerSize blocks) =
      fitStart headerSize need a r blocks := by
  induction hlength : blocks.length using Nat.strongRecOn generalizing a r blocks with
  | ind k ih =>
      subst hlength
      match blocks with
      | [] => rfl
      | size :: blocks =>
          by_cases hsize : 0 < size
          case neg =>
            rw [coalesce_cons_of_neg hsize, fitStart, fitStart, if_neg hsize, if_neg hsize]
            exact ih blocks.length (Nat.lt_succ_self _) _ _ _ rfl
          case pos =>
            have hfree : ∀ x ∈ size :: blocks.takeWhile isFree, 0 < x := by
              intro x hx
              rcases List.mem_cons.mp hx with rfl | hx
              · exact hsize
              · exact isFree_iff.mp (List.mem_takeWhile_imp hx)
            have hsplit : size :: blocks =
                (size :: blocks.takeWhile isFree) ++ blocks.dropWhile isFree := by
              rw [List.cons_append, List.takeWhile_append_dropWhile]
            have hrest := List.length_dropWhile_le isFree blocks
            have hjoined : headerSize + (size + (extent headerSize
                (blocks.takeWhile isFree) : Int)).natAbs =
                  extent headerSize (size :: blocks.takeWhile isFree) := by
              rw [extent]
              omega
            have hpos : 0 < size + (extent headerSize (blocks.takeWhile isFree) : Int) := by
              omega
            rw [coalesce_cons_of_pos hsize, hsplit, fitStart_append hfree, fitStart, if_pos hpos,
              hjoined, ih _ (by rw [List.length_cons]; omega) _ _ _ rfl]
            simp

/-! ## The largest block -/

/-- The payload of the largest free block. -/
def largestFree : List Int → Nat
  | [] => 0
  | size :: blocks => max size.toNat (largestFree blocks)

/-- No free block is larger. -/
theorem le_largestFree {size : Int} (h : size ∈ blocks) : size.toNat ≤ largestFree blocks := by
  induction blocks with
  | nil => cases h
  | cons first blocks ih =>
      rw [largestFree]
      rcases List.mem_cons.mp h with rfl | h
      · exact Nat.le_max_left _ _
      · exact Nat.le_trans (ih h) (Nat.le_max_right _ _)

/-- The largest free block is one of the blocks, if there is one. -/
theorem largestFree_mem (h : 0 < largestFree blocks) : (largestFree blocks : Int) ∈ blocks := by
  induction blocks with
  | nil => cases h
  | cons size blocks ih =>
      rw [largestFree] at h ⊢
      rcases Nat.le_total (largestFree blocks) size.toNat with hle | hle
      · rw [Nat.max_eq_left hle] at h ⊢
        have hsize : (size.toNat : Int) = size := by omega
        rw [hsize]
        exact List.mem_cons_self
      · rw [Nat.max_eq_right hle] at h ⊢
        exact List.mem_cons_of_mem size (ih h)

/-- The largest free block has a length exactly if a block is free. -/
theorem largestFree_pos_iff : 0 < largestFree blocks ↔ ∃ size ∈ blocks, 0 < size := by
  constructor
  · intro hpos
    exact ⟨_, largestFree_mem hpos, by omega⟩
  · rintro ⟨size, hsize, hpos⟩
    have hle := le_largestFree hsize
    omega

/-- After joining a run of free blocks is one block at most. -/
theorem extent_le_of_coalesce {before found after : List Int}
    (hsplit : before ++ found ++ after = coalesce headerSize blocks)
    (hfree : ∀ size ∈ found, 0 < size) :
    extent headerSize found ≤ headerSize + largestFree (coalesce headerSize blocks) := by
  cases found with
  | nil => exact Nat.zero_le _
  | cons size found =>
      cases found with
      | nil =>
          have hpos := hfree size List.mem_cons_self
          have hmem : size ∈ coalesce headerSize blocks := by
            rw [← hsplit]
            simp
          have hle := le_largestFree hmem
          rw [extent_singleton]
          omega
      | cons size' found =>
          have hadjacent :
              coalesce headerSize blocks = before ++ size :: size' :: (found ++ after) := by
            rw [← hsplit]
            simp
          exact absurd ⟨hfree size (by simp), hfree size' (by simp)⟩
            (coalesce_alternates _ _ hadjacent)

/-! ## Runs that are maximal -/

/-- A run of adjacent free blocks that ends on both sides at a used block or at an end. -/
structure MaximalRun (before found after : List Int) : Prop where
  some_block : found ≠ []
  free : ∀ size ∈ found, 0 < size
  first : ∀ size ∈ before.getLast?, ¬ 0 < size
  last : ∀ size ∈ after.head?, ¬ 0 < size

/-- First fit finds nothing where no block is free. -/
theorem fitStart_eq_none {need : Nat} (a r : Nat) (hused : ∀ size ∈ blocks, ¬ 0 < size) :
    fitStart headerSize need a r blocks = none := by
  induction blocks generalizing a r with
  | nil => rfl
  | cons size blocks ih =>
      rw [fitStart, if_neg (hused size List.mem_cons_self)]
      exact ih _ _ fun x hx => hused x (List.mem_cons_of_mem size hx)

/-- First fit finds a run where there is one. -/
theorem fitStart_isSome {need : Nat} (a r : Nat) (before : List Int) {found : List Int}
    (after : List Int) (hsome : found ≠ []) (hfree : ∀ size ∈ found, 0 < size)
    (hlong : need ≤ extent headerSize found) :
    (fitStart headerSize need a r (before ++ (found ++ after))).isSome := by
  induction before generalizing a r with
  | nil =>
      have hrun : need ≤ r + extent headerSize found := by omega
      rw [List.nil_append, fitStart_append hfree, if_pos ⟨hsome, hrun⟩]
      rfl
  | cons size before ih =>
      rw [List.cons_append, fitStart]
      split
      · split
        · rfl
        · exact ih a _
      · exact ih _ 0

/-- **No free run is longer** than the largest block after joining. -/
theorem extent_le_largestFree {before found after : List Int}
    (hsplit : before ++ (found ++ after) = blocks) (hfree : ∀ size ∈ found, 0 < size) :
    extent headerSize found ≤ headerSize + largestFree (coalesce headerSize blocks) := by
  by_cases hsome : found = []
  case pos => simp [hsome, extent]
  case neg =>
    -- a request for the bytes of the run is met after joining as well
    have hfound : (fitStart headerSize (extent headerSize found) 0 0
        (before ++ (found ++ after))).isSome :=
      fitStart_isSome 0 0 before after hsome hfree (Nat.le_refl _)
    have hmap : (firstFit headerSize (extent headerSize found) [] []
        (coalesce headerSize blocks)).map (fun found => extent headerSize found.1) =
          fitStart headerSize (extent headerSize found) 0 0 (coalesce headerSize blocks) :=
      firstFit_map_extent [] [] (coalesce headerSize blocks)
    rw [fitStart_coalesce, ← hsplit] at hmap
    rw [← hmap, Option.isSome_map, hsplit] at hfound
    obtain ⟨⟨before', found', after'⟩, hfirst⟩ := Option.isSome_iff_exists.mp hfound
    have hfits := firstFit_fits (fun _ hx => absurd hx List.not_mem_nil) hfirst
    exact Nat.le_trans hfits.long (extent_le_of_coalesce hfits.split hfits.free)

/-- **A free block after joining** was a maximal run before. -/
theorem exists_maximalRun {size : Int} (hsize : 0 < size)
    (hmem : size ∈ coalesce headerSize blocks) :
    ∃ before found after, before ++ (found ++ after) = blocks ∧
      MaximalRun before found after ∧ (extent headerSize found : Int) = headerSize + size := by
  induction hlength : blocks.length using Nat.strongRecOn generalizing blocks with
  | ind k ih =>
      subst hlength
      match blocks with
      | [] => cases hmem
      | first :: blocks =>
          by_cases hfirst : 0 < first
          case neg =>
            rw [coalesce_cons_of_neg hfirst] at hmem
            rcases List.mem_cons.mp hmem with rfl | hmem
            · exact absurd hsize hfirst
            · obtain ⟨before, found, after, rfl, hrun, hextent⟩ :=
                ih blocks.length (Nat.lt_succ_self _) hmem rfl
              refine ⟨first :: before, found, after, rfl, ⟨hrun.some_block, hrun.free, ?_,
                hrun.last⟩, hextent⟩
              cases before with
              | nil => simpa using hfirst
              | cons second before => exact hrun.first
          case pos =>
            have hsplit := List.takeWhile_append_dropWhile (p := isFree) (l := blocks)
            have hused : ∀ x ∈ (blocks.dropWhile isFree).head?, ¬ 0 < x := by
              intro x hx hpos
              have hnot := List.head?_dropWhile_not isFree blocks
              rw [Option.mem_def.mp hx] at hnot
              simp [isFree_iff.mpr hpos] at hnot
            rw [coalesce_cons_of_pos hfirst] at hmem
            rcases List.mem_cons.mp hmem with rfl | hmem
            · -- the run from the first block on
              refine ⟨[], first :: blocks.takeWhile isFree, blocks.dropWhile isFree, ?_,
                ⟨List.cons_ne_nil _ _, ?_, by simp, hused⟩, ?_⟩
              · rw [List.nil_append, List.cons_append, hsplit]
              · intro x hx
                rcases List.mem_cons.mp hx with rfl | hx
                · exact hfirst
                · exact isFree_iff.mp (List.mem_takeWhile_imp hx)
              · rw [extent]
                omega
            · have hle := List.length_dropWhile_le isFree blocks
              obtain ⟨before, found, after, hrest, hrun, hextent⟩ :=
                ih _ (by rw [List.length_cons]; omega) hmem rfl
              refine ⟨first :: blocks.takeWhile isFree ++ before, found, after, ?_,
                ⟨hrun.some_block, hrun.free, ?_, hrun.last⟩, hextent⟩
              · rw [List.append_assoc, hrest, List.cons_append, hsplit]
              · cases before with
                | nil =>
                    -- a used block is behind the first run
                    cases found with
                    | nil => exact absurd rfl hrun.some_block
                    | cons second found =>
                        rw [← hrest] at hused
                        exact absurd (hrun.free second List.mem_cons_self)
                          (hused second rfl)
                | cons second before =>
                    rw [List.getLast?_append_of_ne_nil _ (List.cons_ne_nil _ _)]
                    exact hrun.first

/-- The largest block after joining is a maximal run before, if there is one. -/
theorem exists_largest_maximalRun (hpos : 0 < largestFree (coalesce headerSize blocks)) :
    ∃ before found after, before ++ (found ++ after) = blocks ∧
      MaximalRun before found after ∧
      extent headerSize found = headerSize + largestFree (coalesce headerSize blocks) := by
  have hsize : (0 : Int) < largestFree (coalesce headerSize blocks) := Int.natCast_pos.mpr hpos
  obtain ⟨before, found, after, hsplit, hrun, hextent⟩ :=
    exists_maximalRun hsize (largestFree_mem hpos)
  exact ⟨before, found, after, hsplit, hrun, by omega⟩

/-- Where no block is used there is one run, of all the blocks. -/
theorem largestFree_coalesce_of_free (hfree : ∀ size ∈ blocks, 0 < size) :
    largestFree (coalesce headerSize blocks) = extent headerSize blocks - headerSize := by
  cases blocks with
  | nil => simp [coalesce, largestFree, extent]
  | cons size blocks =>
      have hsize := hfree size List.mem_cons_self
      have hall : ∀ x ∈ blocks, isFree x = true := fun x hx =>
        isFree_iff.mpr (hfree x (List.mem_cons_of_mem size hx))
      rw [coalesce_cons_of_pos hsize, List.takeWhile_eq_self_iff.mpr hall,
        List.dropWhile_eq_nil_iff.mpr hall, coalesce, largestFree, largestFree, extent]
      omega

end Lib
end InfinityLabs
