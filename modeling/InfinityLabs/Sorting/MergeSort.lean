import InfinityLabs.Lib.Cells
import InfinityLabs.Lib.CInts
import InfinityLabs.Lib.ListParts
import InfinityLabs.Lib.MergeRuns

/-!
# The two merge sorts

`projects/sorting/src/sorts.c`: `IMergeSort` doubles the width of the runs, `RecMergeSort` halves
the array.  Both merge neighbours through one temporary buffer, with bounds that are inclusive.
-/

namespace InfinityLabs
namespace Sorting
namespace MergeSort

open Lib

/-! ## The functions -/

/-- The array and the temporary buffer. -/
structure Buffers where
  arr : List Int
  tmp : List Int

/-- `MS_OK`. -/
def MS_OK : Int := 0

/-- `MS_ERR`. -/
def MS_ERR : Int := -1

/-- `tmp[k] = arr[i]`. -/
def copyElement (s : Buffers) (k i : Nat) : Except Fault Buffers := do
  let x ← readCell s.arr i
  let tmp ← writeCell s.tmp k x
  .ok { s with tmp }

/-- The loop of `Merge` over two sections; it leaves the rest of one of them. -/
def mergeSections (mid right i j k : Nat) (s : Buffers) :
    Except Fault (Nat × Nat × Nat × Buffers) :=
  if h : i ≤ mid ∧ j ≤ right then do
    let x ← readCell s.arr i
    let y ← readCell s.arr j
    if x < y then
      let s ← copyElement s k i
      mergeSections mid right (i + 1) j (k + 1) s
    else
      let s ← copyElement s k j
      mergeSections mid right i (j + 1) (k + 1) s
  else .ok (i, j, k, s)
termination_by (mid + 1 - i) + (right + 1 - j)

/-- A loop of `Merge` that copies the rest of a section. -/
def copyRest (last i k : Nat) (s : Buffers) : Except Fault (Nat × Buffers) :=
  if h : i ≤ last then do
    let s ← copyElement s k i
    copyRest last (i + 1) (k + 1) s
  else .ok (k, s)
termination_by last + 1 - i

/-- The three loops of `Merge`. -/
def fillTmp (mid right i j k : Nat) (s : Buffers) : Except Fault (Nat × Buffers) := do
  let (i, j, k, s) ← mergeSections mid right i j k s
  let (k, s) ← copyRest mid i k s
  copyRest right j k s

/-- `memcpy` of `k` elements of the buffer to the array. -/
def memcpy (left k : Nat) (s : Buffers) : Except Fault Buffers :=
  if k ≤ s.tmp.length ∧ left + k ≤ s.arr.length then
    .ok { s with arr := s.arr.take left ++ (s.tmp.take k ++ s.arr.drop (left + k)) }
  else .error .outOfBounds

/-- `Merge`. -/
def merge (left mid right : Nat) (s : Buffers) : Except Fault Buffers := do
  let (k, s) ← fillTmp mid right left ((mid + 1) % 2 ^ 64) 0 s
  memcpy left k s

/-- The inner loop of `IMergeSort`; `fuel` bounds its passes. -/
def mergePass (n step : Nat) : Nat → Nat → Buffers → Except Fault Buffers
  | 0, _, _ => .error .outOfFuel
  | fuel + 1, i, s =>
      if (i + step) % 2 ^ 64 < n then do
        let mid := (i + step - 1) % 2 ^ 64
        let last := (i + 2 * step - 1) % 2 ^ 64
        -- the second section is cut short at the end of the array
        let s ← merge i mid (if last < n then last else n - 1) s
        mergePass n step fuel ((i + 2 * step) % 2 ^ 64) s
      else .ok s

/-- The outer loop of `IMergeSort`; `fuel` bounds its passes and those of the inner loop. -/
def mergePasses (n : Nat) : Nat → Nat → Buffers → Except Fault Buffers
  | 0, _, _ => .error .outOfFuel
  | fuel + 1, step, s =>
      if step < n then do
        let s ← mergePass n step fuel 0 s
        mergePasses n fuel (step * 2 % 2 ^ 64) s
      else .ok s

/-- `IMergeSort`, with what `malloc` returns. -/
def iMergeSort (arr : List Int) (tmp : Option (List Int)) (fuel : Nat) : Except Fault (List Int) :=
  if arr.length < 2 then .ok arr
  else
    match tmp with
    | none => .ok arr
    | some tmp => do
        let s ← mergePasses arr.length fuel 1 { arr, tmp }
        .ok s.arr

/-- `RecMergeSortHelper`; `fuel` bounds the depth of its calls. -/
def recMergeSortHelper : Nat → Nat → Nat → Buffers → Except Fault (Int × Buffers)
  | 0, _, _, _ => .error .outOfFuel
  | fuel + 1, left, right, s =>
      if left < right then do
        -- the bounds are inclusive: the middle belongs to the first half
        let mid := (left + (right - left) / 2) % 2 ^ 64
        let (ret, s) ← recMergeSortHelper fuel left mid s
        if ret ≠ MS_OK then .ok (MS_ERR, s)
        else
          let (ret, s) ← recMergeSortHelper fuel ((mid + 1) % 2 ^ 64) right s
          if ret ≠ MS_OK then .ok (MS_ERR, s)
          else
            let s ← merge left mid right s
            .ok (MS_OK, s)
      else .ok (MS_OK, s)

/-- `RecMergeSort`, with what `malloc` returns. -/
def recMergeSort (arr : List Int) (tmp : Option (List Int)) (fuel : Nat) :
    Except Fault (Int × List Int) :=
  if arr.length < 2 then .ok (MS_ERR, arr)
  else
    match tmp with
    | none => .ok (MS_ERR, arr)
    | some tmp => do
        let (ret, s) ← recMergeSortHelper fuel 0 (arr.length - 1) { arr, tmp }
        .ok (ret, s.arr)

/-! ## One merge -/

variable {arr l r a b c out junk rest tmp : List Int} {i j n : Nat}

/-- The merge of two sections; the second goes first where they are equal. -/
def mergeLists (a b : List Int) : List Int := List.merge b a (fun y x => decide (y ≤ x))

/-- An element is copied to the next cell of the buffer. -/
theorem copyElement_eq {x y : Int} {k : Nat} (hx : readCell arr i = .ok x) (hk : k = out.length) :
    copyElement { arr, tmp := out ++ y :: rest } k i =
      .ok { arr, tmp := (out ++ [x]) ++ rest } := by
  rw [copyElement, hx, ok_bind, writeCell_split y x hk, ok_bind, List.append_assoc,
    List.singleton_append]

/-- The rest of a section is copied. -/
theorem copyRest_eq (out : List Int) {last : Nat} (hc : Holds arr i c)
    (hlast : i + c.length = last + 1) (hjunk : junk.length = c.length) :
    copyRest last i out.length { arr, tmp := out ++ (junk ++ rest) } =
      .ok (out.length + c.length, { arr, tmp := out ++ (c ++ rest) }) := by
  induction c generalizing i out junk with
  | nil =>
      obtain rfl := List.length_eq_zero_iff.mp hjunk
      rw [List.length_nil] at hlast
      rw [copyRest, dif_neg (by omega)]
      rfl
  | cons x c ih =>
      obtain ⟨y, junk, rfl⟩ := List.exists_cons_of_length_eq_add_one hjunk
      rw [List.length_cons] at hlast
      rw [List.length_cons, List.length_cons, Nat.add_right_cancel_iff] at hjunk
      have hrest := ih (out ++ [x]) hc.tail (by omega) hjunk
      rw [copyRest, dif_pos (by omega), List.cons_append, copyElement_eq hc.readCell rfl, ok_bind]
      rw [List.length_append, List.length_singleton] at hrest
      rw [hrest, List.length_cons]
      simp [Nat.add_comm, Nat.add_left_comm]

/-- When one section is used up, the rest of the other is copied. -/
theorem fillTmp_of_nil (out : List Int) {mid right : Nat} (ha : Holds arr i a) (hb : Holds arr j b)
    (hmid : i + a.length = mid + 1) (hright : j + b.length = right + 1) (hnil : a = [] ∨ b = [])
    (hjunk : junk.length = a.length + b.length) :
    fillTmp mid right i j out.length { arr, tmp := out ++ (junk ++ rest) } =
      .ok (out.length + (a.length + b.length),
        { arr, tmp := out ++ (mergeLists a b ++ rest) }) := by
  have hmerge : mergeLists a b = a ++ b := by
    rcases hnil with rfl | rfl <;> simp [mergeLists]
  have hstop : ¬ (i ≤ mid ∧ j ≤ right) := by
    rcases hnil with rfl | rfl <;> simp at hmid hright <;> omega
  obtain ⟨junkA, junkB, rfl, hjunkA⟩ :=
    exists_append_of_le (show a.length ≤ junk.length by omega)
  rw [List.length_append] at hjunk
  have hrestA : copyRest mid i out.length { arr, tmp := out ++ (junkA ++ (junkB ++ rest)) } = _ :=
    copyRest_eq out ha hmid hjunkA
  have hrestB : copyRest right j (out ++ a).length { arr, tmp := out ++ a ++ (junkB ++ rest) } =
      _ :=
    copyRest_eq (out ++ a) hb hright (by omega)
  rw [List.length_append, List.append_assoc] at hrestB
  rw [fillTmp, mergeSections, dif_neg hstop, ok_bind]
  dsimp only
  rw [List.append_assoc, hrestA, ok_bind]
  dsimp only
  rw [hrestB, hmerge, Nat.add_assoc, List.append_assoc, List.append_assoc]

/-- The element of the first section comes first when it is smaller. -/
theorem mergeLists_cons_of_lt {x y : Int} (h : x < y) :
    mergeLists (x :: a) (y :: b) = x :: mergeLists a (y :: b) := by
  rw [mergeLists, List.merge, if_neg (by simpa using h)]
  rfl

/-- The element of the second section comes first otherwise. -/
theorem mergeLists_cons_of_le {x y : Int} (h : y ≤ x) :
    mergeLists (x :: a) (y :: b) = y :: mergeLists (x :: a) b := by
  rw [mergeLists, List.merge, if_pos (by simpa using h)]
  rfl

/-- One step of the loop over two sections. -/
theorem fillTmp_succ {x y z : Int} {mid right k : Nat} (ha : Holds arr i (x :: a))
    (hb : Holds arr j (y :: b)) (hi : i ≤ mid) (hj : j ≤ right) (hk : k = out.length) :
    fillTmp mid right i j k { arr, tmp := out ++ z :: rest } =
      if x < y then fillTmp mid right (i + 1) j (k + 1) { arr, tmp := (out ++ [x]) ++ rest }
      else fillTmp mid right i (j + 1) (k + 1) { arr, tmp := (out ++ [y]) ++ rest } := by
  rw [fillTmp, mergeSections, dif_pos ⟨hi, hj⟩, ha.readCell, ok_bind, hb.readCell, ok_bind]
  by_cases hxy : x < y
  case pos =>
    rw [if_pos hxy, if_pos hxy, copyElement_eq ha.readCell hk, ok_bind]
    rfl
  case neg =>
    rw [if_neg hxy, if_neg hxy, copyElement_eq hb.readCell hk, ok_bind]
    rfl

/-- The buffer receives the two sections, merged. -/
theorem fillTmp_eq {mid right k : Nat} (ha : Holds arr i a) (hb : Holds arr j b)
    (hmid : i + a.length = mid + 1) (hright : j + b.length = right + 1)
    (hjunk : junk.length = a.length + b.length) (hk : k = out.length) :
    fillTmp mid right i j k { arr, tmp := out ++ (junk ++ rest) } =
      .ok (k + (a.length + b.length), { arr, tmp := out ++ (mergeLists a b ++ rest) }) := by
  -- by induction on what is left of both sections
  induction hlength : a.length + b.length generalizing i j k a b out junk with
  | zero =>
      subst hk
      have hnil : a = [] := List.length_eq_zero_iff.mp (by omega)
      rw [← hlength]
      exact fillTmp_of_nil out ha hb hmid hright (Or.inl hnil) hjunk
  | succ m ih =>
      match a, b with
      | [], b =>
          subst hk
          rw [← hlength]
          exact fillTmp_of_nil out ha hb hmid hright (Or.inl rfl) hjunk
      | a, [] =>
          subst hk
          rw [← hlength]
          exact fillTmp_of_nil out ha hb hmid hright (Or.inr rfl) hjunk
      | x :: a, y :: b =>
          obtain ⟨z, junk, rfl⟩ := List.exists_cons_of_length_eq_add_one (hjunk.trans hlength)
          simp only [List.length_cons] at hlength hjunk hmid hright
          have hout : ∀ w : Int, k + 1 = (out ++ [w]).length := fun w => by simp [hk]
          have hcount : k + (m + 1) = k + 1 + m := by omega
          rw [List.cons_append, fillTmp_succ ha hb (by omega) (by omega) hk, hcount]
          by_cases hxy : x < y
          case pos =>
            have hrest : fillTmp mid right (i + 1) j (k + 1)
                { arr, tmp := (out ++ [x]) ++ (junk ++ rest) } = .ok (k + 1 + m,
                  { arr, tmp := (out ++ [x]) ++ (mergeLists a (y :: b) ++ rest) }) := by
              have hyb : (y :: b).length = b.length + 1 := List.length_cons
              exact ih ha.tail hb (by omega) (by omega) (by omega) (hout x) (by omega)
            rw [if_pos hxy, mergeLists_cons_of_lt hxy, hrest, List.append_assoc]
            rfl
          case neg =>
            have hrest : fillTmp mid right i (j + 1) (k + 1)
                { arr, tmp := (out ++ [y]) ++ (junk ++ rest) } = .ok (k + 1 + m,
                  { arr, tmp := (out ++ [y]) ++ (mergeLists (x :: a) b ++ rest) }) := by
              have hxa : (x :: a).length = a.length + 1 := List.length_cons
              exact ih ha hb.tail (by omega) (by omega) (by omega) (hout y) (by omega)
            rw [if_neg hxy, mergeLists_cons_of_le (by omega), hrest, List.append_assoc]
            rfl

theorem length_mergeLists (a b : List Int) : (mergeLists a b).length = a.length + b.length := by
  rw [mergeLists, List.length_merge, Nat.add_comm]

/-- `Merge` merges two sections that follow each other. -/
theorem merge_eq {left mid right : Nat} (hleft : left = l.length)
    (hmid : left + a.length = mid + 1) (hright : mid + 1 + b.length = right + 1)
    (hword : mid + 1 < 2 ^ 64) (htmp : a.length + b.length ≤ tmp.length) :
    ∃ tmp', tmp'.length = tmp.length ∧
      merge left mid right { arr := l ++ (a ++ (b ++ r)), tmp } =
        .ok { arr := l ++ (mergeLists a b ++ r), tmp := tmp' } := by
  have hcount := length_mergeLists a b
  have ha : Holds (l ++ (a ++ (b ++ r))) left a := holds_append hleft
  have hb : Holds (l ++ (a ++ (b ++ r))) (mid + 1) b := by
    rw [← List.append_assoc]
    exact holds_append (by rw [List.length_append]; omega)
  obtain ⟨junk, rest, rfl, hjunk⟩ := exists_append_of_le htmp
  have hfill : fillTmp mid right left (mid + 1) 0
      { arr := l ++ (a ++ (b ++ r)), tmp := [] ++ (junk ++ rest) } = _ :=
    fillTmp_eq ha hb hmid hright hjunk rfl
  have hinside : 0 + (a.length + b.length) ≤ (mergeLists a b ++ rest).length ∧
      left + (0 + (a.length + b.length)) ≤ (l ++ (a ++ (b ++ r))).length := by
    simp only [List.length_append]
    omega
  have hbefore : (l ++ (a ++ (b ++ r))).take left = l := by rw [hleft, List.take_left]
  have hbehind : (l ++ (a ++ (b ++ r))).drop (left + (a.length + b.length)) = r := by
    rw [hleft, ← List.drop_drop, List.drop_left, ← List.append_assoc, ← List.length_append,
      List.drop_left]
  refine ⟨mergeLists a b ++ rest, by rw [List.length_append, List.length_append]; omega, ?_⟩
  rw [List.nil_append] at hfill
  rw [merge, Nat.mod_eq_of_lt hword, hfill, ok_bind]
  dsimp only
  rw [List.nil_append, memcpy, if_pos hinside, Nat.zero_add, hbefore, hbehind, ← hcount,
    List.take_left]

/-! ## The order of the elements -/

/-- The order of `int`. -/
def intOrder : Comparator Int where
  cmp x y := x - y
  swap := by omega
  trans := by omega

theorem ordered_iff : intOrder.Ordered arr ↔ arr.Pairwise (· ≤ ·) := by
  have hle : ∀ x y : Int, intOrder.cmp x y ≤ 0 ↔ x ≤ y := fun x y => by
    show x - y ≤ 0 ↔ x ≤ y
    omega
  unfold Comparator.Ordered
  simp only [hle]

/-- Ordered sections are merged into an ordered one. -/
theorem mergeLists_merges : Merges intOrder mergeLists where
  perm a b := (List.merge_perm_append _).trans List.perm_append_comm
  ordered a b ha hb := by
    rw [ordered_iff] at ha hb ⊢
    have hmerge : (mergeLists a b).Pairwise fun x y => decide (x ≤ y) = true := by
      refine List.pairwise_merge ?_ ?_ b a (by simpa using hb) (by simpa using ha)
      · intro x y z hxy hyz
        rw [decide_eq_true_eq] at hxy hyz ⊢
        omega
      · intro x y
        rw [Bool.or_eq_true, decide_eq_true_eq, decide_eq_true_eq]
        omega
    simpa using hmerge

/-! ## The widths of the iterative sort -/

/-- A pass of the inner loop leaves `arr'`, whatever the buffer holds. -/
def Passes (n step fuel : Nat) (arr : List Int) (i : Nat) (arr' : List Int) : Prop :=
  ∀ tmp : List Int, tmp.length = n → ∃ tmp' : List Int, tmp'.length = n ∧
    mergePass n step fuel i { arr, tmp } = .ok { arr := arr', tmp := tmp' }

/-- The outer loop leaves `arr'`, whatever the buffer holds. -/
def Sorts (n fuel : Nat) (arr : List Int) (step : Nat) (arr' : List Int) : Prop :=
  ∀ tmp : List Int, tmp.length = n → ∃ tmp' : List Int, tmp'.length = n ∧
    mergePasses n fuel step { arr, tmp } = .ok { arr := arr', tmp := tmp' }

/-- The inner loop merges the runs two by two. -/
theorem passLoop {step : Nat} (hstep : step < n) (hpos : 0 < step) (hmemory : 4 * n < 2 ^ 64) :
    PassLoop mergeLists n step (Passes n step) where
  stop := by
    intro fuel i arr hi hend tmp htmp
    have hstop : ¬ (i + step) % 2 ^ 64 < n := by omega
    refine ⟨tmp, htmp, ?_⟩
    rw [mergePass, if_neg hstop]
  next := by
    intro fuel l a b r arr' hlength ha hb hshort hrest tmp htmp
    have hbPos := List.length_pos_iff.mpr hb
    simp only [List.length_append] at hlength
    have hgo : (l.length + step) % 2 ^ 64 < n := by omega
    have hmid : (l.length + step - 1) % 2 ^ 64 = l.length + step - 1 := by omega
    have hlast : (l.length + 2 * step - 1) % 2 ^ 64 = l.length + 2 * step - 1 := by omega
    have hnext : (l.length + 2 * step) % 2 ^ 64 = l.length + 2 * step := by omega
    have hright : (if l.length + 2 * step - 1 < n then l.length + 2 * step - 1 else n - 1) + 1 =
        l.length + a.length + b.length := by
      rcases hshort with hwhole | ⟨hle, rfl⟩
      · rw [if_pos (by omega)]
        omega
      · -- the last run may be short
        rw [List.length_nil] at hlength
        by_cases hlt : l.length + 2 * step - 1 < n
        case pos =>
          rw [if_pos hlt]
          omega
        case neg =>
          rw [if_neg hlt]
          omega
    have hword : l.length + step - 1 + 1 < 2 ^ 64 := by omega
    obtain ⟨tmp₁, htmp₁, hmerge⟩ := merge_eq (l := l) (a := a) (b := b) (r := r) rfl (by omega)
      (by rw [hright]; omega) hword (show a.length + b.length ≤ tmp.length by omega)
    obtain ⟨tmp₂, htmp₂, hpass⟩ := hrest tmp₁ (htmp₁.trans htmp)
    refine ⟨tmp₂, htmp₂, ?_⟩
    rw [mergePass, if_pos hgo]
    dsimp only
    rw [hmid, hlast, hnext, hmerge, ok_bind, hpass]

/-- The outer loop doubles the width. -/
theorem passesLoop (hmemory : 4 * n < 2 ^ 64) : PassesLoop n (Passes n) (Sorts n) where
  stop := by
    intro fuel step arr hdone tmp htmp
    refine ⟨tmp, htmp, ?_⟩
    rw [mergePasses, if_neg (by omega)]
  next := by
    intro fuel step arr arr₁ arr₂ hgo hpass hrest tmp htmp
    obtain ⟨tmp₁, htmp₁, hpass⟩ := hpass tmp htmp
    obtain ⟨tmp₂, htmp₂, hpasses⟩ := hrest tmp₁ htmp₁
    have hdouble : step * 2 % 2 ^ 64 = 2 * step := by omega
    refine ⟨tmp₂, htmp₂, ?_⟩
    rw [mergePasses, if_pos hgo, hpass, ok_bind, hdouble, hpasses]

/-- `IMergeSort` sorts the array. -/
theorem iMergeSort_sorts (hlength : 2 ≤ arr.length) (hmemory : 4 * arr.length < 2 ^ 64) :
    ∃ sorted, IsSortOf sorted arr ∧ ∀ tmp : List Int, tmp.length = arr.length → ∀ fuel,
      2 * arr.length < fuel → iMergeSort arr (some tmp) fuel = .ok sorted := by
  obtain ⟨sorted, hperm, hordered, hpasses⟩ := (passesLoop hmemory).exists_passes
    (fun w hpos hw => passLoop hw hpos hmemory) mergeLists_merges Nat.one_pos (.one arr) rfl
  refine ⟨sorted, ⟨hperm, ordered_iff.mp hordered⟩, fun tmp htmp fuel hfuel => ?_⟩
  obtain ⟨tmp', -, hrun⟩ := hpasses fuel (by omega) (by omega) tmp htmp
  rw [iMergeSort, if_neg (by omega), hrun, ok_bind]

/-! ## The halves of the recursive sort -/

/-- A section of at least two elements falls into the halves that the recursion visits. -/
theorem exists_halves {s : List Int} {left right : Nat} (hlength : left + s.length = right + 1)
    (hgo : left < right) : ∃ a b, s = a ++ b ∧ a ≠ [] ∧ b ≠ [] ∧
      a.length = (right - left) / 2 + 1 := by
  obtain ⟨a, b, rfl, ha⟩ := exists_append_of_le
    (show (right - left) / 2 + 1 ≤ s.length by omega)
  rw [List.length_append] at hlength
  refine ⟨a, b, rfl, ?_, ?_, ha⟩
  · exact List.ne_nil_of_length_pos (by omega)
  · exact List.ne_nil_of_length_pos (by omega)

/-- A call of the recursion succeeds and leaves `sorted` in the place of a section, whatever the
buffer holds. -/
def LeavesSection (fuel left right : Nat) (l section_ r sorted : List Int) : Prop :=
  ∀ tmp : List Int, section_.length ≤ tmp.length → ∃ tmp' : List Int, tmp'.length = tmp.length ∧
    recMergeSortHelper fuel left right { arr := l ++ (section_ ++ r), tmp } =
      .ok (MS_OK, { arr := l ++ (sorted ++ r), tmp := tmp' })

/-- The halves are sorted one after the other, and merged. -/
theorem LeavesSection.join {fuel left mid right : Nat} {a' b' : List Int} (hleft : left = l.length)
    (hgo : left < right) (hmid : mid = left + (right - left) / 2) (hword : right + 1 < 2 ^ 64)
    (ha : LeavesSection fuel left mid l a (b ++ r) a')
    (hb : LeavesSection fuel (mid + 1) right (l ++ a') b r b')
    (haLength : a'.length = a.length) (hbLength : b'.length = b.length)
    (haEnd : left + a.length = mid + 1) (hbEnd : mid + 1 + b.length = right + 1) :
    LeavesSection (fuel + 1) left right l (a ++ b) r (mergeLists a' b') := by
  intro tmp htmp
  rw [List.length_append] at htmp
  have hmidWord : (left + (right - left) / 2) % 2 ^ 64 = mid := by omega
  have hnextWord : (mid + 1) % 2 ^ 64 = mid + 1 := by omega
  obtain ⟨tmp₁, htmp₁, hfirst⟩ := ha tmp (by omega)
  obtain ⟨tmp₂, htmp₂, hsecond⟩ := hb tmp₁ (by omega)
  obtain ⟨tmp₃, htmp₃, hmerge⟩ := merge_eq (l := l) (a := a') (b := b') (r := r) hleft
    (haLength.symm ▸ haEnd) (hbLength.symm ▸ hbEnd) (by omega)
    (show a'.length + b'.length ≤ tmp₂.length by omega)
  rw [List.append_assoc, List.append_assoc] at hsecond
  refine ⟨tmp₃, by omega, ?_⟩
  rw [recMergeSortHelper, if_pos hgo]
  dsimp only
  rw [hmidWord, hnextWord, List.append_assoc, hfirst, ok_bind]
  dsimp only
  rw [if_neg (by simp), hsecond, ok_bind]
  dsimp only
  rw [if_neg (by simp), hmerge, ok_bind]

/-- Two sorted halves, merged. -/
theorem isSortOf_mergeLists {a' b' : List Int} (ha : IsSortOf a' a) (hb : IsSortOf b' b) :
    IsSortOf (mergeLists a' b') (a ++ b) where
  perm := (mergeLists_merges.perm a' b').trans (ha.perm.append hb.perm)
  ordered := ordered_iff.mp
    (mergeLists_merges.ordered a' b' (ordered_iff.mpr ha.ordered) (ordered_iff.mpr hb.ordered))

/-- The recursion sorts a section and leaves the others. -/
theorem recMergeSortHelper_sorts {s : List Int} {left right : Nat} (hleft : left = l.length)
    (hne : s ≠ []) (hlength : left + s.length = right + 1) (hword : right + 1 < 2 ^ 64) :
    ∃ sorted, IsSortOf sorted s ∧ ∀ r fuel, s.length ≤ fuel →
      LeavesSection fuel left right l s r sorted := by
  induction hk : s.length using Nat.strongRecOn generalizing l s left right with
  | ind k ih =>
  subst hk
  have hpos := List.length_pos_iff.mpr hne
  by_cases hgo : left < right
  case neg =>
    -- a section of one element
    obtain ⟨x, rfl⟩ := List.length_eq_one_iff.mp (show s.length = 1 by omega)
    refine ⟨[x], ⟨.refl _, List.pairwise_singleton _ x⟩, fun r fuel hfuel tmp _ => ?_⟩
    rw [List.length_singleton] at hfuel
    obtain ⟨fuel, rfl⟩ : ∃ k, fuel = k + 1 := ⟨fuel - 1, by omega⟩
    exact ⟨tmp, rfl, by rw [recMergeSortHelper, if_neg hgo]⟩
  case pos =>
    obtain ⟨a, b, rfl, ha, hb, hahalf⟩ := exists_halves hlength hgo
    have haPos := List.length_pos_iff.mpr ha
    have hbPos := List.length_pos_iff.mpr hb
    rw [List.length_append] at hlength ih
    have haEnd : left + a.length = left + (right - left) / 2 + 1 := by omega
    have hbEnd : left + (right - left) / 2 + 1 + b.length = right + 1 := by omega
    obtain ⟨a', ha', hrunA⟩ := ih a.length (by omega) hleft ha haEnd (by omega) rfl
    have hbStart : left + (right - left) / 2 + 1 = (l ++ a').length := by
      rw [List.length_append, ha'.perm.length_eq]
      omega
    obtain ⟨b', hb', hrunB⟩ := ih b.length (by omega) hbStart hb hbEnd hword rfl
    refine ⟨mergeLists a' b', isSortOf_mergeLists ha' hb', fun r fuel hfuel => ?_⟩
    rw [List.length_append] at hfuel
    obtain ⟨fuel, rfl⟩ : ∃ k, fuel = k + 1 := ⟨fuel - 1, by omega⟩
    exact (hrunA (b ++ r) fuel (by omega)).join hleft hgo rfl hword
      (hrunB r fuel (by omega)) ha'.perm.length_eq hb'.perm.length_eq haEnd hbEnd

/-- `RecMergeSort` sorts the array and reports success. -/
theorem recMergeSort_sorts (hlength : 2 ≤ arr.length) (hmemory : 4 * arr.length < 2 ^ 64) :
    ∃ sorted, IsSortOf sorted arr ∧ ∀ tmp : List Int, tmp.length = arr.length → ∀ fuel,
      arr.length ≤ fuel → recMergeSort arr (some tmp) fuel = .ok (MS_OK, sorted) := by
  have hne : arr ≠ [] := List.ne_nil_of_length_pos (by omega)
  obtain ⟨sorted, hsorted, hrun⟩ := recMergeSortHelper_sorts (l := []) rfl hne
    (show 0 + arr.length = arr.length - 1 + 1 by omega) (by omega)
  refine ⟨sorted, hsorted, fun tmp htmp fuel hfuel => ?_⟩
  obtain ⟨tmp', -, hrun⟩ := hrun [] fuel hfuel tmp (by omega)
  rw [List.length_nil, List.nil_append, List.nil_append, List.append_nil, List.append_nil] at hrun
  rw [recMergeSort, if_neg (by omega), hrun, ok_bind]

/-- Both sorts leave the elements of the array in their order, whatever the buffer of `malloc`
holds. -/
theorem mergeSorts_agree (arr : IntBuffer) (hlength : 2 ≤ arr.elements.length) :
    ∃ sorted, IsSortOf sorted arr.elements ∧
      ∀ tmp : List Int, tmp.length = arr.elements.length → ∀ fuel, 2 * arr.elements.length < fuel →
        iMergeSort arr.elements (some tmp) fuel = .ok sorted ∧
          recMergeSort arr.elements (some tmp) fuel = .ok (MS_OK, sorted) := by
  obtain ⟨sorted, hsorted, hiterative⟩ := iMergeSort_sorts hlength arr.inMemory
  obtain ⟨sorted', hsorted', hrecursive⟩ := recMergeSort_sorts hlength arr.inMemory
  obtain rfl := hsorted'.unique hsorted
  refine ⟨sorted', hsorted', fun tmp htmp fuel hfuel => ?_⟩
  exact ⟨hiterative tmp htmp fuel hfuel, hrecursive tmp htmp fuel (by omega)⟩

/-- Five numbers, so that the last run is short and the halves are uneven. -/
def fiveNumbers : IntBuffer where
  elements := [3, -1, 4, -1, -5]
  isInt := by decide
  inMemory := by decide

/-- They are sorted. -/
theorem mergeSorts_agree_fiveNumbers :
    ∃ sorted, IsSortOf sorted fiveNumbers.elements ∧
      ∀ tmp : List Int, tmp.length = fiveNumbers.elements.length →
        ∀ fuel, 2 * fiveNumbers.elements.length < fuel →
          iMergeSort fiveNumbers.elements (some tmp) fuel = .ok sorted ∧
            recMergeSort fiveNumbers.elements (some tmp) fuel = .ok (MS_OK, sorted) :=
  mergeSorts_agree fiveNumbers (by decide)

end MergeSort
end Sorting
end InfinityLabs
