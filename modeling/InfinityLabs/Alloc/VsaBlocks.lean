import InfinityLabs.Lib.FreeRuns
import InfinityLabs.Alloc.Vsa

/-!
# The blocks of the variable-size allocator

The loops of the allocator as operations on the sizes of its blocks: `FindFitAndCommit` is
first fit, `Defrag` joins the free runs, and `VSALargestChunkAvailable` measures the
largest free block of the result.
-/

namespace InfinityLabs
namespace Alloc

open Lib

variable {ndebug : Bool} {mem mem' : LongMemory} {first last : Nat}

/-! ## Headers -/

/-- The header at `h` tells a size, with the magic number where headers have one. -/
def TellsSize (ndebug : Bool) (mem : LongMemory) (h : Nat) (size : Int) : Prop :=
  mem h = size ∧ (ndebug = false → mem (h + WORD_SIZE) = VSA_MAGIC_NUMBER)

/-- The blocks of a region of memory. -/
abbrev Blocks (ndebug : Bool) (mem : LongMemory) : Nat → List Int → Nat → Prop :=
  Chain (sizeofHeader ndebug) (TellsSize ndebug mem)

/-- The magic number is inside the header. -/
theorem word_lt_sizeofHeader (hdebug : ndebug = false) : WORD_SIZE < sizeofHeader ndebug := by
  rw [hdebug]
  decide

/-- What a split leaves has a header and a word. -/
theorem minSplitBytes_eq (ndebug : Bool) : MIN_SPLIT_BYTES ndebug = sizeofHeader ndebug + 8 := rfl

/-- A header has two words at most. -/
theorem sizeofHeader_le (ndebug : Bool) : sizeofHeader ndebug ≤ 16 := by
  cases ndebug <;> decide

/-- A header keeps its size where its words are kept. -/
theorem TellsSize.congr {h : Nat} {size : Int} (htells : TellsSize ndebug mem h size)
    (hsame : ∀ x, h ≤ x → x < h + sizeofHeader ndebug → mem' x = mem x) :
    TellsSize ndebug mem' h size := by
  have hpos := sizeofHeader_pos ndebug
  refine ⟨(hsame h (Nat.le_refl h) (by omega)).trans htells.1, fun hdebug => ?_⟩
  have hword := word_lt_sizeofHeader hdebug
  exact (hsame _ (by omega) (by omega)).trans (htells.2 hdebug)

/-- Blocks stay where the words of their region are kept. -/
theorem blocks_congr {a c : Nat} {blocks : List Int} (h : Blocks ndebug mem a blocks c)
    (hsame : ∀ x, a ≤ x → x < c → mem' x = mem x) : Blocks ndebug mem' a blocks c :=
  h.frame fun p size hp hpc htells =>
    htells.congr fun x hx hxp => hsame x (by omega) (by omega)

/-- A block is put in the place of other ones, outside of which no word is written. -/
theorem blocks_replace {a c : Nat} {before found found' after : List Int}
    (h : Blocks ndebug mem a (before ++ found ++ after) c)
    (hfound : Blocks ndebug mem' (a + extent (sizeofHeader ndebug) before) found'
      (a + extent (sizeofHeader ndebug) before + extent (sizeofHeader ndebug) found))
    (hsame : ∀ x, x < a + extent (sizeofHeader ndebug) before ∨
      a + extent (sizeofHeader ndebug) before + extent (sizeofHeader ndebug) found ≤ x →
        mem' x = mem x) :
    Blocks ndebug mem' a (before ++ found' ++ after) c := by
  refine h.replace hfound fun p size hp htells => htells.congr fun x hx hxp => hsame x ?_
  rcases hp with hp | hp
  · exact Or.inl (by omega)
  · exact Or.inr (by omega)

/-- A block before blocks that are written later. -/
theorem blocks_cons {cur : Nat} {size : Int} {rest : List Int}
    (htells : TellsSize ndebug mem cur size)
    (hrest : Blocks ndebug mem' (cur + sizeofHeader ndebug + size.natAbs) rest last)
    (hsame : ∀ x < cur + sizeofHeader ndebug + size.natAbs, mem' x = mem x) :
    Blocks ndebug mem' cur (size :: rest) last :=
  ⟨htells.congr fun x _ hx => hsame x (by omega), hrest⟩

/-- A walk along the blocks is in bounds until it has passed the last one. -/
theorem inBounds_iff {cur : Nat} {rest : List Int} (h : Blocks ndebug mem cur rest last)
    (hfirst : first ≤ cur) : inBounds first last cur = true ↔ rest ≠ [] := by
  have hend := h.end_eq
  have hpos := sizeofHeader_pos ndebug
  simp only [inBounds, hfirst, decide_true, Bool.true_and, decide_eq_true_eq]
  cases rest with
  | nil => simp [hend, extent]
  | cons size rest =>
      rw [extent] at hend
      exact iff_of_true (by omega) (by simp)

/-- The next header. -/
theorem nextHdr_eq {cur : Nat} {size : Int} (h : TellsSize ndebug mem cur size) :
    nextHdr ndebug mem cur = cur + sizeofHeader ndebug + size.natAbs := by
  rw [nextHdr, h.1]

/-- The words outside of a header are kept when it is written. -/
theorem writeHeader_of_outside {h x : Nat} {size : Int} (hx : x < h ∨ h + sizeofHeader ndebug ≤ x) :
    setMagic ndebug (Function.update mem h size) h x = mem x := by
  have hpos := sizeofHeader_pos ndebug
  rw [setMagic]
  split
  · exact Function.update_of_ne (by omega) _ _
  · rename_i hdebug
    have hword := word_lt_sizeofHeader (Bool.eq_false_iff.mpr hdebug)
    rw [Function.update_of_ne (by omega)]
    exact Function.update_of_ne (by omega) _ _

/-- A header that is written tells its size. -/
theorem tellsSize_writeHeader (mem : LongMemory) (h : Nat) (size : Int) :
    TellsSize ndebug (setMagic ndebug (Function.update mem h size) h) h size := by
  have hword : 0 < WORD_SIZE := by decide
  refine ⟨?_, fun hdebug => ?_⟩
  · rw [setMagic]
    split
    · exact Function.update_self _ _ _
    · rw [Function.update_of_ne (by omega)]
      exact Function.update_self _ _ _
  · rw [setMagic, hdebug, if_neg Bool.false_ne_true]
    exact Function.update_self _ _ _

/-! ## Finding -/

/-- Nothing but a run without blocks has no length. -/
theorem extent_eq_zero_iff {run : List Int} : extent (sizeofHeader ndebug) run = 0 ↔ run = [] := by
  cases run with
  | nil => simp [extent]
  | cons size run =>
      have hpos := sizeofHeader_pos ndebug
      rw [extent]
      exact iff_of_false (by omega) (by simp)

/-- **The loop of `FindFitAndCommit` is first fit.** -/
theorem findFit_eq {requestSize need : Nat}
    (hneed : (requestSize + MIN_SPLIT_BYTES ndebug) % 2 ^ 64 = need)
    {cur runStart : Nat} {skipped run rest : List Int}
    (h : Blocks ndebug mem cur rest last)
    (hcur : cur = first + extent (sizeofHeader ndebug) (skipped ++ run))
    (hstart : run ≠ [] → runStart = first + extent (sizeofHeader ndebug) skipped) :
    findFit ndebug mem first last requestSize cur runStart (extent (sizeofHeader ndebug) run) =
      (firstFit (sizeofHeader ndebug) need skipped run rest).map fun (before, found, _) =>
        (first + extent (sizeofHeader ndebug) before, extent (sizeofHeader ndebug) found) := by
  induction rest generalizing cur runStart skipped run with
  | nil =>
      have hfirst : first ≤ cur := by omega
      have hin := inBounds_iff h hfirst
      rw [findFit, dif_neg (by simp [hin]), firstFit]
      rfl
  | cons size rest ih =>
      have hfirst : first ≤ cur := by omega
      have hin := (inBounds_iff h hfirst).mpr (by simp)
      obtain ⟨htells, hrest⟩ := h
      have hnext := nextHdr_eq htells
      have hsize := htells.1
      rw [findFit, dif_pos hin, firstFit, hsize]
      by_cases hpos : size > 0
      · have hgrow : extent (sizeofHeader ndebug) (run ++ [size]) =
            extent (sizeofHeader ndebug) run + (sizeofHeader ndebug + size.toNat) := by
          rw [extent_append, extent_singleton]
          omega
        -- a run starts at the current header if it has no blocks so far
        have hstart' : (if extent (sizeofHeader ndebug) run = 0 then cur else runStart) =
            first + extent (sizeofHeader ndebug) skipped := by
          split
          · rename_i hzero
            rw [hcur, extent_append, hzero, Nat.add_zero]
          · rename_i hsome
            exact hstart fun hnil => hsome (extent_eq_zero_iff.mpr hnil)
        simp only [hpos, if_true, hneed, hstart', ← hgrow, ge_iff_le]
        split
        · rfl
        · rw [hnext]
          apply ih hrest _ fun _ => rfl
          rw [hcur, ← List.append_assoc, extent_append (skipped ++ run), extent_singleton]
          omega
      · simp only [hpos, if_false]
        rw [hnext]
        apply ih hrest _ fun hnil => absurd rfl hnil
        rw [hcur, List.append_nil, extent_append (skipped ++ run), extent_singleton]
        omega

/-! ## Committing -/

/-- A size below `2 ^ 63` keeps its value as a `long`. -/
theorem toLong_eq {x : Nat} (hx : x < 2 ^ 63) : toLong x = x := by
  have hlow : -((2 ^ 64 : Nat) : Int) ≤ x * 2 := by omega
  have hhigh : (x : Int) * 2 < (2 ^ 64 : Nat) := by omega
  exact Int.bmod_eq_of_le_mul_two hlow hhigh

/-- What `CommitAlloc` makes of a run of free blocks: the block for the request, and the
rest of the run where it is large enough. -/
def committed (ndebug : Bool) (runTotalBytes requestSize : Nat) : List Int :=
  let fullPayload : Int := (runTotalBytes - sizeofHeader ndebug : Nat)
  if fullPayload - requestSize ≥ MIN_SPLIT_BYTES ndebug then
    [-requestSize, fullPayload - requestSize - sizeofHeader ndebug]
  else [-fullPayload]

/-- They take the place of the run. -/
theorem extent_committed {total requestSize : Nat}
    (hlong : requestSize + MIN_SPLIT_BYTES ndebug ≤ total) :
    extent (sizeofHeader ndebug) (committed ndebug total requestSize) = total := by
  have hsplit := minSplitBytes_eq ndebug
  rw [committed]
  split
  · simp only [extent]
    omega
  · simp only [extent]
    omega

/-- **`CommitAlloc`** on a run of free blocks writes no word outside of it, and leaves the
blocks of the request and the rest. -/
theorem commitAlloc_blocks (mem : LongMemory) (p : Nat) {total requestSize : Nat}
    (hrequest : 0 < requestSize) (hlong : requestSize + MIN_SPLIT_BYTES ndebug ≤ total)
    (htotal : total < 2 ^ 63) (hp : p + total ≤ 2 ^ 64) :
    Blocks ndebug (commitAlloc ndebug mem p total requestSize).1 p
        (committed ndebug total requestSize) (p + total) ∧
      ∀ x, x < p ∨ p + total ≤ x →
        (commitAlloc ndebug mem p total requestSize).1 x = mem x := by
  have hsplit := minSplitBytes_eq ndebug
  have hfull : toLong (total - sizeofHeader ndebug) = (total - sizeofHeader ndebug : Nat) :=
    toLong_eq (by omega)
  have hnew : (p + sizeofHeader ndebug + requestSize) % 2 ^ 64 =
      p + sizeofHeader ndebug + requestSize := Nat.mod_eq_of_lt (by omega)
  simp only [commitAlloc, committed, hfull, toLong_eq (show requestSize < 2 ^ 63 by omega), hnew]
  split
  · have hrest : p + sizeofHeader ndebug + (-(requestSize : Int)).natAbs =
        p + sizeofHeader ndebug + requestSize := by omega
    refine ⟨⟨tellsSize_writeHeader _ _ _, ?_, ?_⟩, fun x hx => ?_⟩
    · rw [hrest]
      refine (tellsSize_writeHeader mem _ _).congr fun x hx _ => ?_
      exact writeHeader_of_outside (Or.inr (by omega))
    · show _ = _
      omega
    · rw [writeHeader_of_outside (by omega)]
      exact writeHeader_of_outside (by omega)
  · refine ⟨⟨tellsSize_writeHeader _ _ _, ?_⟩, fun x hx => ?_⟩
    · show _ = _
      omega
    · exact writeHeader_of_outside (by omega)

/-- The request gets a block that is long enough. -/
theorem used_committed {p total requestSize : Nat} (hrequest : 0 < requestSize)
    (hlong : requestSize + MIN_SPLIT_BYTES ndebug ≤ total) :
    ∃ n, requestSize ≤ n ∧
      used (sizeofHeader ndebug) p (committed ndebug total requestSize) =
        [(p + sizeofHeader ndebug, n)] := by
  have hsplit := minSplitBytes_eq ndebug
  rw [committed]
  split
  · refine ⟨requestSize, Nat.le_refl _, ?_⟩
    rw [used, if_pos (by omega), used, if_neg (by omega), Int.natAbs_neg, Int.natAbs_natCast]
    rfl
  · refine ⟨total - sizeofHeader ndebug, by omega, ?_⟩
    rw [used, if_pos (by omega), Int.natAbs_neg, Int.natAbs_natCast]
    rfl

/-! ## Whole words -/

/-- A size that a header may have. -/
def WholeWords (size : Int) : Prop := size ≠ 0 ∧ (WORD_SIZE : Int) ∣ size

/-- A header is a whole number of words. -/
theorem dvd_sizeofHeader (ndebug : Bool) : WORD_SIZE ∣ sizeofHeader ndebug := by
  cases ndebug <;> decide

/-- Blocks of whole words are whole words together. -/
theorem dvd_extent {blocks : List Int} (hwhole : ∀ size ∈ blocks, WholeWords size) :
    WORD_SIZE ∣ extent (sizeofHeader ndebug) blocks := by
  induction blocks with
  | nil => exact Nat.dvd_zero _
  | cons size blocks ih =>
      have hsize := (hwhole size List.mem_cons_self).2
      have hrest := ih fun size' h => hwhole size' (List.mem_cons_of_mem size h)
      rw [extent]
      exact Nat.dvd_add (Nat.dvd_add (dvd_sizeofHeader ndebug) (Int.ofNat_dvd_left.mp hsize)) hrest

/-- The mark does not count. -/
theorem WholeWords.neg {size : Int} (h : WholeWords size) : WholeWords (-size) :=
  ⟨neg_ne_zero.mpr h.1, Int.dvd_neg.mpr h.2⟩

/-- Two free blocks make one. -/
theorem WholeWords.join {size size' : Int} (hsize : 0 < size) (hsize' : 0 < size')
    (h : WholeWords size) (h' : WholeWords size') :
    WholeWords (size + (sizeofHeader ndebug + size')) := by
  have hheader := dvd_sizeofHeader ndebug
  exact ⟨by omega, Int.dvd_add h.2 (Int.dvd_add (Int.natCast_dvd_natCast.mpr hheader) h'.2)⟩

/-- What is committed has sizes of whole words. -/
theorem wholeWords_committed {total requestSize : Nat} (hrequest : 0 < requestSize)
    (hlong : requestSize + MIN_SPLIT_BYTES ndebug ≤ total) (hdvd : WORD_SIZE ∣ requestSize)
    (htotal : WORD_SIZE ∣ total) :
    ∀ size ∈ committed ndebug total requestSize, WholeWords size := by
  have hsplit := minSplitBytes_eq ndebug
  have hfull : (WORD_SIZE : Int) ∣ (total - sizeofHeader ndebug : Nat) :=
    Int.natCast_dvd_natCast.mpr (Nat.dvd_sub htotal (dvd_sizeofHeader ndebug))
  have hheader : (WORD_SIZE : Int) ∣ sizeofHeader ndebug :=
    Int.natCast_dvd_natCast.mpr (dvd_sizeofHeader ndebug)
  have hasked : (WORD_SIZE : Int) ∣ requestSize := Int.natCast_dvd_natCast.mpr hdvd
  rw [committed]
  intro size hsize
  split at hsize
  · rcases List.mem_cons.mp hsize with rfl | hsize
    · exact ⟨by omega, Int.dvd_neg.mpr hasked⟩
    · rw [List.mem_singleton.mp hsize]
      exact ⟨by omega, Int.dvd_sub (Int.dvd_sub hfull hasked) hheader⟩
  · rw [List.mem_singleton.mp hsize]
    exact ⟨by omega, Int.dvd_neg.mpr hfull⟩

/-! ## Freeing and writing -/

/-- **`VSAFree`** of a used block passes the assertions, and turns its sign. -/
theorem vsaFree_blocks {a c : Nat} {before after : List Int} {size : Int}
    (h : Blocks ndebug mem a (before ++ [size] ++ after) c) (hsize : size < 0) :
    ∃ mem', vsaFree ndebug mem
        (some (a + extent (sizeofHeader ndebug) before + sizeofHeader ndebug)) = some mem' ∧
      Blocks ndebug mem' a (before ++ [-size] ++ after) c ∧
      ∀ x, x < a + extent (sizeofHeader ndebug) before → mem' x = mem x := by
  obtain ⟨hmem, hmagic⟩ := h.tells_middle
  refine ⟨setMagic ndebug (Function.update mem _ (-size)) _, ?_, ?_, fun x hx =>
    writeHeader_of_outside (Or.inl hx)⟩
  · simp only [vsaFree, Nat.add_sub_cancel, hmem]
    exact if_neg fun hfails => hfails.2 ⟨hsize, hmagic hfails.1⟩
  · refine blocks_replace h ⟨tellsSize_writeHeader mem _ _, ?_⟩ fun x hx =>
      writeHeader_of_outside ?_
    · show _ = _
      rw [extent_singleton]
      omega
    · rw [extent_singleton] at hx
      omega

/-- Blocks stay when a word of a payload is written. -/
theorem blocks_write {a c address : Nat} {before after : List Int} {size value : Int}
    (h : Blocks ndebug mem a (before ++ [size] ++ after) c)
    (hlow : a + extent (sizeofHeader ndebug) before + sizeofHeader ndebug ≤ address)
    (hhigh : address < a + extent (sizeofHeader ndebug) before + sizeofHeader ndebug +
      size.natAbs) :
    Blocks ndebug (Function.update mem address value) a (before ++ [size] ++ after) c := by
  refine blocks_replace h ⟨h.tells_middle.congr fun x _ hx => ?_, ?_⟩ fun x hx => ?_
  · exact Function.update_of_ne (by omega) _ _
  · show _ = _
    rw [extent_singleton]
    omega
  · rw [extent_singleton] at hx
    exact Function.update_of_ne (by omega) _ _

/-! ## Joining -/

/-- **The inner loop of `Defrag`** adds the free blocks that it passes to one header. -/
theorem mergeLoop_eq {curr next : Nat} {rest : List Int} (h : Blocks ndebug mem next rest last)
    (hfirst : first ≤ next) (hcurr : curr < next) :
    mergeLoop ndebug first last curr mem next =
      Function.update mem curr
        (mem curr + extent (sizeofHeader ndebug) (rest.takeWhile isFree)) := by
  induction rest generalizing mem next with
  | nil =>
      have hin := inBounds_iff h hfirst
      rw [mergeLoop, dif_neg (by simp [hin])]
      simp [extent]
  | cons size rest ih =>
      have hin := (inBounds_iff h hfirst).mpr (List.cons_ne_nil size rest)
      obtain ⟨htells, hrest⟩ := h
      rw [mergeLoop, htells.1]
      by_cases hsize : 0 < size
      · have hother : Function.update mem curr (mem curr + (sizeofHeader ndebug + size)) next =
            size := by
          rw [Function.update_of_ne (by omega)]
          exact htells.1
        have hrest' := blocks_congr hrest fun x hx _ =>
          Function.update_of_ne (show x ≠ curr by omega)
            (mem curr + (sizeofHeader ndebug + size)) mem
        rw [dif_pos ⟨hin, hsize⟩]
        simp only [nextHdr, hother]
        rw [ih hrest' (by omega) (by omega), Function.update_self, Function.update_idem,
          List.takeWhile_cons_of_pos (isFree_iff.mpr hsize), extent]
        congr 1
        omega
      · rw [dif_neg fun hfree => hsize hfree.2,
          List.takeWhile_cons_of_neg fun hfree => hsize (isFree_iff.mp hfree)]
        simp [extent]

/-- `Defrag` passes a used block. -/
theorem defragLoop_of_used {cur : Nat} {size : Int} {rest : List Int}
    (h : Blocks ndebug mem cur (size :: rest) last) (hfirst : first ≤ cur) (hsize : ¬ 0 < size) :
    defragLoop ndebug first last mem cur =
      defragLoop ndebug first last mem (cur + sizeofHeader ndebug + size.natAbs) := by
  have hin := (inBounds_iff h hfirst).mpr (List.cons_ne_nil size rest)
  rw [defragLoop, dif_pos hin, h.1.1, if_neg hsize]
  show defragLoop ndebug first last mem (nextHdr ndebug mem cur) = _
  rw [nextHdr_eq h.1]

/-- `Defrag` makes one block of a free block and the free ones behind it. -/
theorem defragLoop_of_free {cur : Nat} {size joined : Int} {rest : List Int}
    (h : Blocks ndebug mem cur (size :: rest) last) (hfirst : first ≤ cur) (hsize : 0 < size)
    (hjoined : joined = size + extent (sizeofHeader ndebug) (rest.takeWhile isFree)) :
    defragLoop ndebug first last mem cur =
        defragLoop ndebug first last (Function.update mem cur joined)
          (cur + sizeofHeader ndebug + joined.natAbs) ∧
      Blocks ndebug (Function.update mem cur joined) cur (joined :: rest.dropWhile isFree)
        last := by
  have hin := (inBounds_iff h hfirst).mpr (List.cons_ne_nil size rest)
  have hpos := sizeofHeader_pos ndebug
  obtain ⟨htells, hrest⟩ := h
  have hother : ∀ x, x ≠ cur → Function.update mem cur joined x = mem x :=
    fun x hx => Function.update_of_ne hx joined mem
  have htells' : TellsSize ndebug (Function.update mem cur joined) cur joined := by
    refine ⟨Function.update_self _ _ _, fun hdebug => ?_⟩
    have hword : 0 < WORD_SIZE := by decide
    exact (hother _ (by omega)).trans (htells.2 hdebug)
  refine ⟨?_, htells', ?_⟩
  · have hnext := nextHdr_eq htells
    rw [defragLoop, dif_pos hin, if_pos (by rwa [htells.1]), hnext,
      mergeLoop_eq hrest (by omega) (by omega), htells.1, ← hjoined]
    show defragLoop ndebug first last _ (nextHdr ndebug (Function.update mem cur joined) cur) = _
    rw [nextHdr_eq htells']
  · rw [← List.takeWhile_append_dropWhile (p := isFree) (l := rest), chain_append] at hrest
    have hbehind : cur + sizeofHeader ndebug + joined.natAbs = cur + sizeofHeader ndebug +
        size.natAbs + extent (sizeofHeader ndebug) (rest.takeWhile isFree) := by
      omega
    rw [hbehind]
    exact blocks_congr hrest.2 fun x hx _ => hother x (by omega)

/-- **The loop of `Defrag`** joins the blocks from the current one on. -/
theorem defragLoop_blocks {cur : Nat} {rest : List Int} (h : Blocks ndebug mem cur rest last)
    (hfirst : first ≤ cur) :
    Blocks ndebug (defragLoop ndebug first last mem cur) cur
        (coalesce (sizeofHeader ndebug) rest) last ∧
      ∀ x < cur, defragLoop ndebug first last mem cur x = mem x := by
  induction hlength : rest.length using Nat.strong_induction_on generalizing mem cur rest with
  | _ length ih =>
      cases rest with
      | nil =>
          have hin := inBounds_iff h hfirst
          rw [defragLoop, dif_neg (by simp [hin])]
          exact ⟨h, fun _ _ => rfl⟩
      | cons size rest =>
          rw [List.length_cons] at hlength
          by_cases hsize : 0 < size
          case pos =>
            have hle := List.length_dropWhile_le isFree rest
            obtain ⟨hloop, htells, hrest⟩ := defragLoop_of_free h hfirst hsize rfl
            -- the block that is made of the run is written for good
            obtain ⟨hblocks, hsame⟩ := ih _ (by omega) hrest (by omega) rfl
            rw [hloop, coalesce_cons_of_pos hsize]
            refine ⟨blocks_cons htells hblocks hsame, fun x hx => ?_⟩
            rw [hsame x (by omega)]
            exact Function.update_of_ne (by omega) _ _
          case neg =>
            obtain ⟨hblocks, hsame⟩ := ih _ (by omega) h.2 (by omega) rfl
            rw [defragLoop_of_used h hfirst hsize, coalesce_cons_of_neg hsize]
            exact ⟨blocks_cons h.1 hblocks hsame, fun x hx => hsame x (by omega)⟩

/-- **`Defrag` keeps the words of a used block**, of its header and of its payload. -/
theorem defragLoop_kept {cur p n x : Nat} {rest : List Int} (h : Blocks ndebug mem cur rest last)
    (hfirst : first ≤ cur) (hused : (p, n) ∈ used (sizeofHeader ndebug) cur rest)
    (hlow : p ≤ x + sizeofHeader ndebug) (hhigh : x < p + n) :
    defragLoop ndebug first last mem cur x = mem x := by
  induction hlength : rest.length using Nat.strong_induction_on generalizing mem cur rest with
  | _ length ih =>
      cases rest with
      | nil => cases hused
      | cons size rest =>
          rw [List.length_cons] at hlength
          by_cases hsize : 0 < size
          case pos =>
            have hpos := sizeofHeader_pos ndebug
            have hle := List.length_dropWhile_le isFree rest
            obtain ⟨hloop, htells, hrest⟩ := defragLoop_of_free h hfirst hsize rfl
            have hfree : ∀ y ∈ size :: rest.takeWhile isFree, 0 < y := by
              intro y hy
              rcases List.mem_cons.mp hy with rfl | hy
              · exact hsize
              · exact isFree_iff.mp (List.mem_takeWhile_imp hy)
            have hsplit : size :: rest =
                (size :: rest.takeWhile isFree) ++ rest.dropWhile isFree := by
              rw [List.cons_append, List.takeWhile_append_dropWhile]
            have hbehind : cur + extent (sizeofHeader ndebug) (size :: rest.takeWhile isFree) =
                cur + sizeofHeader ndebug + (size + (extent (sizeofHeader ndebug)
                  (rest.takeWhile isFree) : Int)).natAbs := by
              rw [extent]
              omega
            -- the used blocks are those behind the run
            rw [hsplit, used_append, used_of_free _ hfree, List.nil_append, hbehind] at hused
            have hinside := (used_inside hused).1
            rw [hloop, ih _ (by omega) hrest (by omega) hused rfl]
            exact Function.update_of_ne (by omega) _ _
          case neg =>
            rw [defragLoop_of_used h hfirst hsize]
            rw [used, List.mem_append] at hused
            rcases hused with hused | hused
            · split at hused
              · obtain ⟨rfl, rfl⟩ := Prod.ext_iff.mp (List.mem_singleton.mp hused)
                exact (defragLoop_blocks h.2 (by omega)).2 x hhigh
              · cases hused
            · exact ih _ (by omega) h.2 (by omega) hused rfl

/-- Where no two free blocks are adjacent, `Defrag` writes nothing. -/
theorem defragLoop_eq_self {cur : Nat} {rest : List Int} (h : Blocks ndebug mem cur rest last)
    (hfirst : first ≤ cur)
    (halternates : ∀ before after size size', rest = before ++ size :: size' :: after →
      ¬ (0 < size ∧ 0 < size')) :
    defragLoop ndebug first last mem cur = mem := by
  induction rest generalizing cur with
  | nil =>
      have hin := inBounds_iff h hfirst
      rw [defragLoop, dif_neg (by simp [hin])]
  | cons size rest ih =>
      have hrest := ih h.2 (by omega) fun before after x y hxy =>
        halternates (size :: before) after x y (by rw [hxy, List.cons_append])
      by_cases hsize : 0 < size
      case pos =>
        -- the block behind a free one is used
        have hnone : rest.takeWhile isFree = [] := by
          cases rest with
          | nil => rfl
          | cons size' rest =>
              refine List.takeWhile_cons_of_neg fun hfree => ?_
              exact halternates [] rest size size' rfl ⟨hsize, isFree_iff.mp hfree⟩
        have hjoined : size = size + extent (sizeofHeader ndebug) (rest.takeWhile isFree) := by
          rw [hnone]
          simp [extent]
        have hsame : Function.update mem cur size = mem := by
          rw [← h.1.1]
          exact Function.update_eq_self cur mem
        rw [(defragLoop_of_free h hfirst hsize hjoined).1, hsame]
        exact hrest
      case neg =>
        rw [defragLoop_of_used h hfirst hsize]
        exact hrest

/-! ## Measuring -/

/-- **The loop of `VSALargestChunkAvailable`** measures the largest free block. -/
theorem largestLoop_eq {cur largest : Nat} {rest : List Int}
    (h : Blocks ndebug mem cur rest last) (hfirst : first ≤ cur) :
    largestLoop ndebug first last mem cur largest = max largest (largestFree rest) := by
  induction rest generalizing cur largest with
  | nil =>
      have hin := inBounds_iff h hfirst
      rw [largestLoop, dif_neg (by simp [hin]), largestFree, Nat.max_zero]
  | cons size rest ih =>
      have hin := (inBounds_iff h hfirst).mpr (List.cons_ne_nil size rest)
      obtain ⟨htells, hrest⟩ := h
      have hmax : (if size > 0 ∧ size.toNat > largest then size.toNat else largest) =
          max largest size.toNat := by
        split <;> omega
      rw [largestLoop, dif_pos hin, nextHdr_eq htells, htells.1, hmax, ih hrest (by omega),
        largestFree, Nat.max_assoc]

/-! ## The walk -/

/-- **The walk along the headers**: it stays inside the region, reads the sizes one after
the other, and ends exactly at the end of the region. -/
theorem blocks_walk {a c : Nat} {blocks : List Int} (h : Blocks ndebug mem a blocks c) :
    (nextHdr ndebug mem)^[blocks.length] a = c ∧
      ∀ i < blocks.length, a ≤ (nextHdr ndebug mem)^[i] a ∧
        (nextHdr ndebug mem)^[i] a + sizeofHeader ndebug ≤ c ∧
        mem ((nextHdr ndebug mem)^[i] a) ∈ blocks := by
  induction blocks generalizing a with
  | nil => exact ⟨h, fun i hi => absurd hi (Nat.not_lt_zero i)⟩
  | cons size blocks ih =>
      have hend := h.end_eq
      rw [extent] at hend
      obtain ⟨htells, hrest⟩ := h
      obtain ⟨hlast, hwalk⟩ := ih hrest
      have hnext := nextHdr_eq htells
      rw [← hnext] at hlast hwalk
      refine ⟨hlast, fun i hi => ?_⟩
      cases i with
      | zero =>
          refine ⟨Nat.le_refl a, ?_, ?_⟩
          · show a + sizeofHeader ndebug ≤ c
            omega
          · rw [Function.iterate_zero_apply, htells.1]
            exact List.mem_cons_self
      | succ i =>
          obtain ⟨hlow, hhigh, hmem⟩ := hwalk i (Nat.lt_of_succ_lt_succ hi)
          rw [Function.iterate_succ_apply]
          exact ⟨by omega, hhigh, List.mem_cons_of_mem size hmem⟩

/-- The header behind the first blocks. -/
theorem blocks_iterate {a c : Nat} {before after : List Int}
    (h : Blocks ndebug mem a (before ++ after) c) :
    (nextHdr ndebug mem)^[before.length] a = a + extent (sizeofHeader ndebug) before :=
  (blocks_walk (chain_append.mp h).1).1

/-! ## The operations -/

/-- The end of the pool is where the first word says. -/
theorem endPool_congr {vsa : Nat} (hsame : mem' vsa = mem vsa) :
    endPool mem' vsa = endPool mem vsa := by
  rw [endPool, hsame, endPool]

/-- The first word is before the first header. -/
theorem lt_firstHdr (vsa : Nat) : vsa < firstHdr vsa := by
  have hpos : 0 < SIZEOF_VSA := by decide
  rw [firstHdr]
  omega

/-- **`VSALargestChunkAvailable`** joins the blocks, and measures the largest free one. -/
theorem vsaLargestChunkAvailable_blocks {vsa : Nat} {blocks : List Int}
    (h : Blocks ndebug mem (firstHdr vsa) blocks (endPool mem vsa)) :
    Blocks ndebug (vsaLargestChunkAvailable ndebug mem vsa).1 (firstHdr vsa)
        (coalesce (sizeofHeader ndebug) blocks) (endPool mem vsa) ∧
      (∀ x < firstHdr vsa, (vsaLargestChunkAvailable ndebug mem vsa).1 x = mem x) ∧
      (vsaLargestChunkAvailable ndebug mem vsa).2 =
        largestFree (coalesce (sizeofHeader ndebug) blocks) := by
  obtain ⟨hblocks, hsame⟩ := defragLoop_blocks h (Nat.le_refl (firstHdr vsa))
  refine ⟨hblocks, hsame, ?_⟩
  have hend : endPool (defrag ndebug mem vsa) vsa = endPool mem vsa :=
    endPool_congr (hsame vsa (lt_firstHdr vsa))
  simp only [vsaLargestChunkAvailable, hend]
  rw [defrag, largestLoop_eq hblocks (Nat.le_refl _), Nat.zero_max]

/-- `VSAAlloc` commits the first run that is long enough. -/
theorem vsaAlloc_eq {vsa request need : Nat} {blocks : List Int}
    (h : Blocks ndebug mem (firstHdr vsa) blocks (endPool mem vsa))
    (hrequest : 0 < alignUp request)
    (hneed : (alignUp request + MIN_SPLIT_BYTES ndebug) % 2 ^ 64 = need) :
    vsaAlloc ndebug mem vsa request =
      match firstFit (sizeofHeader ndebug) need [] [] blocks with
      | none => (mem, none)
      | some (before, found, _) =>
          let header := firstHdr vsa + extent (sizeofHeader ndebug) before
          ((commitAlloc ndebug mem header (extent (sizeofHeader ndebug) found)
            (alignUp request)).1, some (header + sizeofHeader ndebug)) := by
  have hfind : findFit ndebug mem (firstHdr vsa) (endPool mem vsa) (alignUp request)
      (firstHdr vsa) 0 (extent (sizeofHeader ndebug) []) =
        (firstFit (sizeofHeader ndebug) need [] [] blocks).map fun (before, found, _) =>
          (firstHdr vsa + extent (sizeofHeader ndebug) before,
            extent (sizeofHeader ndebug) found) :=
    findFit_eq hneed h rfl fun hnil => absurd rfl hnil
  rw [extent] at hfind
  simp only [vsaAlloc, findFitAndCommit]
  rw [if_neg (Nat.ne_of_gt hrequest), hfind]
  cases firstFit (sizeofHeader ndebug) need [] [] blocks <;> rfl

/-- **`VSAAlloc`** finds nothing and keeps the memory, or makes a block of a run. -/
theorem vsaAlloc_blocks {vsa request : Nat} {blocks : List Int}
    (h : Blocks ndebug mem (firstHdr vsa) blocks (endPool mem vsa))
    (hneed : alignUp request + MIN_SPLIT_BYTES ndebug < 2 ^ 64)
    (hend : endPool mem vsa ≤ 2 ^ 64)
    (hlength : extent (sizeofHeader ndebug) blocks < 2 ^ 63) :
    vsaAlloc ndebug mem vsa request = (mem, none) ∨
      0 < alignUp request ∧ ∃ before found after mem',
        Fits (sizeofHeader ndebug) (alignUp request + MIN_SPLIT_BYTES ndebug)
          blocks before found after ∧
        vsaAlloc ndebug mem vsa request = (mem', some (firstHdr vsa +
          extent (sizeofHeader ndebug) before + sizeofHeader ndebug)) ∧
        Blocks ndebug mem' (firstHdr vsa) (before ++ committed ndebug
          (extent (sizeofHeader ndebug) found) (alignUp request) ++ after) (endPool mem vsa) ∧
        ∀ x < firstHdr vsa, mem' x = mem x := by
  rcases Nat.eq_zero_or_pos (alignUp request) with hzero | hrequest
  · refine Or.inl ?_
    simp only [vsaAlloc, hzero, if_true]
  · have halloc := vsaAlloc_eq h hrequest (Nat.mod_eq_of_lt hneed)
    cases hfirst : firstFit (sizeofHeader ndebug) (alignUp request + MIN_SPLIT_BYTES ndebug) [] []
        blocks with
    | none =>
        rw [hfirst] at halloc
        exact Or.inl halloc
    | some result =>
        obtain ⟨before, found, after⟩ := result
        rw [hfirst] at halloc
        have hfits := firstFit_fits (fun _ hx => absurd hx List.not_mem_nil) hfirst
        have hregion := h.end_eq
        have hparts := congrArg (extent (sizeofHeader ndebug)) hfits.split
        rw [extent_append, extent_append] at hparts
        simp only [List.nil_append] at hfits hparts
        obtain ⟨hblocks, hsame⟩ := commitAlloc_blocks mem
          (firstHdr vsa + extent (sizeofHeader ndebug) before) hrequest hfits.long
          (by omega) (by omega)
        refine Or.inr ⟨hrequest, before, found, after, _, hfits, halloc, ?_, fun x hx =>
          hsame x (Or.inl (by omega))⟩
        rw [← hfits.split] at h
        exact blocks_replace h hblocks hsame

end Alloc
end InfinityLabs
