import InfinityLabs.Lib.Cells
import InfinityLabs.Lib.Chunks
import InfinityLabs.Lib.ListParts
import InfinityLabs.Lib.MergeRuns
import Mathlib.Algebra.Group.Nat.Defs
import Mathlib.Tactic.Common

/-!
# The multi-threaded quick sort

`projects/sorting/src/mt_q_sort.c`: the array is cut into one chunk per thread, every thread sorts
its chunk, and the chunks are merged in passes of doubling width.
-/

namespace InfinityLabs
namespace Sorting
namespace MtQuickSort

open Lib

/-! ## Strings -/

/-- A string, without the byte that ends it. -/
structure CString where
  chars : List UInt8
  noNul : 0 ∉ chars

/-- `strcmp`: the difference of the first bytes that differ. -/
def strcmp : List UInt8 → List UInt8 → Int
  | [], [] => 0
  | [], y :: _ => -(y.toNat : Int)
  | x :: _, [] => x.toNat
  | x :: s, y :: t => if x = y then strcmp s t else (x.toNat : Int) - y.toNat

/-- The sign turns with the arguments. -/
theorem strcmp_swap (s t : List UInt8) : strcmp s t = -strcmp t s := by
  induction s generalizing t with
  | nil => cases t <;> simp [strcmp]
  | cons x s ih =>
      cases t with
      | nil => simp [strcmp]
      | cons y t =>
          unfold strcmp
          by_cases hxy : x = y
          case pos => rw [if_pos hxy, if_pos hxy.symm, ih]
          case neg =>
            rw [if_neg hxy, if_neg (Ne.symm hxy)]
            omega

/-- A byte that does not end a string is positive. -/
theorem toNat_pos_of_notMem {x : UInt8} {s : List UInt8} (h : 0 ∉ x :: s) : 0 < x.toNat := by
  apply Nat.pos_of_ne_zero
  intro hx
  exact h (List.mem_cons.mpr (Or.inl (UInt8.toNat_inj.mp hx.symm)))

theorem strcmp_trans {s t u : List UInt8} (hs : 0 ∉ s) (ht : 0 ∉ t) (hu : 0 ∉ u)
    (hst : strcmp s t ≤ 0) (htu : strcmp t u ≤ 0) : strcmp s u ≤ 0 := by
  induction s generalizing t u with
  | nil => cases u <;> simp [strcmp]
  | cons x s ih =>
      cases t with
      | nil =>
          have hx := toNat_pos_of_notMem hs
          simp only [strcmp] at hst
          omega
      | cons y t =>
          cases u with
          | nil =>
              have hy := toNat_pos_of_notMem ht
              simp only [strcmp] at htu
              omega
          | cons z u =>
              have hrest := ih (t := t) (u := u) (fun h => hs (List.mem_cons_of_mem x h))
                (fun h => ht (List.mem_cons_of_mem y h)) fun h => hu (List.mem_cons_of_mem z h)
              unfold strcmp at hst htu ⊢
              by_cases hxy : x = y <;> by_cases hyz : y = z
              · subst hxy hyz
                simp only [if_true] at hst htu ⊢
                exact hrest hst htu
              · subst hxy
                simp only [hyz, if_false] at htu ⊢
                exact htu
              · subst hyz
                simp only [hxy, if_false] at hst ⊢
                exact hst
              · have hxy' : x.toNat ≠ y.toNat := fun h => hxy (UInt8.toNat_inj.mp h)
                have hxz : x ≠ z := by
                  rintro rfl
                  simp only [hxy, hyz, if_false] at hst htu
                  omega
                simp only [hxy, hyz, hxz, if_false] at hst htu ⊢
                omega

/-- Strings in the order of `strcmp`. -/
def stringOrder : Comparator CString where
  cmp s t := strcmp s.chars t.chars
  swap s t := by
    rw [strcmp_swap]
    omega
  trans s t u := strcmp_trans s.noNul t.noNul u.noNul

/-! ## The chunks -/

variable {Ptr : Type}

/-- `thread_data_t`; every thread works on the same array. -/
structure ThreadData where
  startIndex : Nat
  endIndex : Nat
  deriving DecidableEq, Repr

/-- What `MTQuickSort` gives to thread `i`. -/
def threadData (length numOfThreads i : Nat) : ThreadData where
  startIndex := i * (length / numOfThreads) % 2 ^ 64
  endIndex :=
    if i = numOfThreads - 1 then length else (i + 1) * (length / numOfThreads) % 2 ^ 64

/-- `ThreadSort`: `qsort` rearranges the chunk of the thread. -/
def threadSort (qsort : List Ptr → List Ptr) (data : ThreadData) (arr : List Ptr) :
    Except Fault (List Ptr) :=
  if data.startIndex ≤ data.endIndex ∧ data.endIndex ≤ arr.length then
    .ok (arr.take data.startIndex ++
      (qsort ((arr.drop data.startIndex).take (data.endIndex - data.startIndex)) ++
        arr.drop data.endIndex))
  else .error .outOfBounds

/-! ## Merging -/

/-- `StringCompare`, and the test in `Merge`. -/
def stringCompare (text : Ptr → CString) (a b : Ptr) : Int :=
  strcmp (text a).chars (text b).chars

/-- `temp[k++] = x`, for a buffer of `capacity` pointers. -/
def push (capacity : Nat) (temp : List Ptr) (x : Ptr) : Except Fault (List Ptr) :=
  if temp.length < capacity then .ok (temp ++ [x]) else .error .outOfBounds

/-- The loop that merges two sections; it leaves the rest of one of them. -/
def mergeSections (text : Ptr → CString) (arr : List Ptr) (capacity mid last : Nat)
    (i j : Nat) (temp : List Ptr) : Except Fault (Nat × Nat × List Ptr) :=
  if h : i < mid ∧ j < last then do
    let x ← readCell arr i
    let y ← readCell arr j
    if stringCompare text x y ≤ 0 then
      let temp ← push capacity temp x
      mergeSections text arr capacity mid last (i + 1) j temp
    else
      let temp ← push capacity temp y
      mergeSections text arr capacity mid last i (j + 1) temp
  else .ok (i, j, temp)
termination_by (mid - i) + (last - j)

/-- A loop that copies a section from `i` up to `stop`. -/
def copySection (arr : List Ptr) (capacity i stop : Nat) (temp : List Ptr) :
    Except Fault (List Ptr) :=
  (List.range' i (stop - i)).foldlM (fun temp i => do
    let x ← readCell arr i
    push capacity temp x) temp

/-- The loop that copies `temp` back to the array. -/
def copyBack (temp : List Ptr) (start count : Nat) (arr : List Ptr) : Except Fault (List Ptr) :=
  (List.range' 0 count).foldlM (fun arr i => do
    let x ← readCell temp i
    writeCell arr (start + i) x) arr

/-- The three loops that fill `temp`. -/
def fillTemp (text : Ptr → CString) (arr : List Ptr) (capacity mid last : Nat)
    (i j : Nat) (temp : List Ptr) : Except Fault (List Ptr) := do
  let s ← mergeSections text arr capacity mid last i j temp
  let temp ← copySection arr capacity s.1 mid s.2.2
  copySection arr capacity s.2.1 last temp

/-- `Merge`, with its allocation granted. -/
def merge (text : Ptr → CString) (arr : List Ptr) (start mid last : Nat) :
    Except Fault (List Ptr) := do
  let temp ← fillTemp text arr (last - start) mid last start mid []
  copyBack temp start (last - start) arr

/-- The inner loop of `MergeSortedParts`; `fuel` bounds its passes. -/
def mergePass (text : Ptr → CString) (length step : Nat) :
    Nat → List Ptr → Nat → Except Fault (List Ptr)
  | 0, _, _ => .error .outOfFuel
  | fuel + 1, arr, i =>
      if (i + step) % 2 ^ 64 < length then do
        let next := (i + 2 * step % 2 ^ 64) % 2 ^ 64
        let arr ← merge text arr i ((i + step) % 2 ^ 64) (if next < length then next else length)
        mergePass text length step fuel arr next
      else .ok arr

/-- The outer loop of `MergeSortedParts`; `fuel` bounds its passes and those of the inner loop. -/
def mergePasses (text : Ptr → CString) (length : Nat) :
    Nat → List Ptr → Nat → Except Fault (List Ptr)
  | 0, _, _ => .error .outOfFuel
  | fuel + 1, arr, step =>
      if step < length then do
        let arr ← mergePass text length step fuel arr 0
        mergePasses text length fuel arr (2 * step % 2 ^ 64)
      else .ok arr

/-- `MergeSortedParts`. -/
def mergeSortedParts (text : Ptr → CString) (fuel : Nat) (arr : List Ptr)
    (length numOfThreads : Nat) : Except Fault (List Ptr) :=
  if numOfThreads = 1 then .ok arr else mergePasses text length fuel arr (length / numOfThreads)

/-- `MTQuickSort`, with its allocations granted and its threads created.  They are done in
`order`: each works on its own chunk only. -/
def mtQuickSort (text : Ptr → CString) (qsort : List Ptr → List Ptr) (fuel : Nat)
    (arr : List Ptr) (numOfThreads : Nat) (order : List Nat) : Except Fault (List Ptr) := do
  let sorted ← order.foldlM
    (fun a i => threadSort qsort (threadData arr.length numOfThreads i) a) arr
  mergeSortedParts text fuel sorted arr.length numOfThreads

/-! ## One merge -/

section Merge

variable (text : Ptr → CString) {arr a b c l r t : List Ptr} {capacity i j : Nat}

/-- The test that `Merge` makes. -/
def le (x y : Ptr) : Bool :=
  decide (stringCompare text x y ≤ 0)

/-- A pointer is put into a buffer with room. -/
theorem push_of_lt {x : Ptr} (h : t.length < capacity) :
    push capacity t x = .ok (t ++ [x]) :=
  if_pos h

/-- A section is copied whole. -/
theorem copySection_eq (hc : Holds arr i c) (hcapacity : t.length + c.length ≤ capacity) :
    copySection arr capacity i (i + c.length) t = .ok (t ++ c) := by
  unfold copySection
  rw [Nat.add_sub_cancel_left]
  induction c generalizing i t with
  | nil => simp [pure, Except.pure]
  | cons x c ih =>
      rw [List.length_cons] at hcapacity
      have hrest := ih (i := i + 1) (t := t ++ [x]) hc.tail (by simp; omega)
      rw [List.length_cons, List.range'_succ, List.foldlM_cons, hc.readCell, ok_bind,
        push_of_lt (by omega), ok_bind, hrest]
      simp

/-- When one section is used up, the rest of the other is copied. -/
theorem fillTemp_of_nil (ha : Holds arr i a) (hb : Holds arr j b) (hnil : a = [] ∨ b = [])
    (hcapacity : t.length + (a.length + b.length) ≤ capacity) :
    fillTemp text arr capacity (i + a.length) (j + b.length) i j t =
      .ok (t ++ List.merge a b (le text)) := by
  have hmerge : List.merge a b (le text) = a ++ b := by
    rcases hnil with rfl | rfl <;> simp
  have hstop : ¬ (i < i + a.length ∧ j < j + b.length) := by
    rcases hnil with rfl | rfl <;> simp
  unfold fillTemp mergeSections
  rw [dif_neg hstop, ok_bind]
  dsimp only
  rw [copySection_eq ha (by omega), ok_bind, copySection_eq hb (by simp; omega), hmerge,
    List.append_assoc]

/-- `temp` receives the two sections, merged. -/
theorem fillTemp_eq (ha : Holds arr i a) (hb : Holds arr j b)
    (hcapacity : t.length + (a.length + b.length) ≤ capacity) :
    fillTemp text arr capacity (i + a.length) (j + b.length) i j t =
      .ok (t ++ List.merge a b (le text)) := by
  induction hlength : a.length + b.length generalizing i j a b t with
  | zero =>
      have hnil : a = [] := List.length_eq_zero_iff.mp (by omega)
      exact fillTemp_of_nil text ha hb (Or.inl hnil) hcapacity
  | succ k ih =>
      match a, b with
      | [], b => exact fillTemp_of_nil text ha hb (Or.inl rfl) hcapacity
      | a, [] => exact fillTemp_of_nil text ha hb (Or.inr rfl) hcapacity
      | x :: a, y :: b =>
          simp only [List.length_cons] at hlength hcapacity
          have hgo : i < i + (x :: a).length ∧ j < j + (y :: b).length := by simp
          unfold fillTemp
          rw [mergeSections, dif_pos hgo, ha.readCell, ok_bind, hb.readCell, ok_bind,
            push_of_lt (by omega), ok_bind, push_of_lt (by omega), ok_bind]
          by_cases hxy : stringCompare text x y ≤ 0
          case pos =>
            have hrest := ih (t := t ++ [x]) ha.tail hb (by simp; omega) (by simp; omega)
            have hle : le text x y = true := by simpa [le] using hxy
            rw [if_pos hxy, List.merge, if_pos hle]
            simpa [fillTemp, Nat.add_assoc, Nat.add_comm 1] using hrest
          case neg =>
            have hrest := ih (t := t ++ [y]) ha hb.tail (by simp; omega) (by simp; omega)
            have hle : ¬ le text x y = true := by simpa [le] using hxy
            rw [if_neg hxy, List.merge, if_neg hle]
            simpa [fillTemp, Nat.add_assoc, Nat.add_comm 1] using hrest

/-- `temp` replaces a section of the same length. -/
theorem copyBack_eq (hlength : b.length = a.length) :
    copyBack b l.length a.length (l ++ (a ++ r)) = .ok (l ++ (b ++ r)) := by
  have hloop : ∀ {k : Nat} {l a c : List Ptr}, Holds b k c → c.length = a.length → ∀ start,
      start + k = l.length → (List.range' k a.length).foldlM (fun arr i => do
        let x ← readCell b i
        writeCell arr (start + i) x) (l ++ (a ++ r)) = .ok (l ++ (c ++ r)) := by
    intro k l a c hc hlength start hstart
    induction a generalizing k l c with
    | nil =>
        rw [List.length_eq_zero_iff.mp hlength]
        rfl
    | cons y a ih =>
        cases c with
        | nil => simp at hlength
        | cons x c =>
            have hrest := ih (l := l ++ [x]) hc.tail (by simpa using hlength) (by simp; omega)
            rw [List.length_cons, List.range'_succ, List.foldlM_cons, hc.readCell, ok_bind,
              List.cons_append, writeCell_split y x hstart, ok_bind]
            simpa using hrest
  have hwhole : Holds b 0 b := List.prefix_rfl
  exact hloop hwhole hlength l.length rfl

/-- `Merge` merges two sections that follow each other. -/
theorem merge_eq {start mid last : Nat} (hstart : start = l.length)
    (hmid : mid = start + a.length) (hlast : last = mid + b.length) :
    merge text (l ++ (a ++ (b ++ r))) start mid last =
      .ok (l ++ (List.merge a b (le text) ++ r)) := by
  subst hstart hmid hlast
  have ha : Holds (l ++ (a ++ (b ++ r))) l.length a := holds_append rfl
  have hb : Holds (l ++ (a ++ (b ++ r))) (l.length + a.length) b := by
    rw [← List.append_assoc]
    exact holds_append (by simp)
  have hcount : l.length + a.length + b.length - l.length = (a ++ b).length := by
    rw [List.length_append]
    omega
  unfold merge
  rw [fillTemp_eq text ha hb (by simp; omega), ok_bind, List.nil_append, hcount,
    ← List.append_assoc a]
  exact copyBack_eq (by simp)

end Merge

/-! ## The passes -/

section Passes

variable (text : Ptr → CString) {arr l : List Ptr} {length step : Nat}

/-- Pointers in the order of their strings. -/
def pointerOrder : Comparator Ptr :=
  stringOrder.comap text

theorem le_iff (x y : Ptr) : le text x y = true ↔ (pointerOrder text).cmp x y ≤ 0 :=
  decide_eq_true_iff

theorem le_trans (x y z : Ptr) (hxy : le text x y = true) (hyz : le text y z = true) :
    le text x z = true := by
  rw [le_iff] at hxy hyz ⊢
  exact (pointerOrder text).trans x y z hxy hyz

theorem le_total (x y : Ptr) : (le text x y || le text y x) = true := by
  have hswap := (pointerOrder text).swap y x
  rw [Bool.or_eq_true, le_iff, le_iff]
  omega

theorem ordered_iff : (pointerOrder text).Ordered arr ↔ arr.Pairwise fun x y => le text x y := by
  unfold Comparator.Ordered
  simp only [le_iff]

/-- Ordered lists are merged into an ordered one. -/
theorem merge_merges : Merges (pointerOrder text) fun a b => List.merge a b (le text) where
  perm _ _ := List.merge_perm_append (le text)
  ordered a b ha hb := by
    rw [ordered_iff] at ha hb ⊢
    exact List.pairwise_merge (le_trans text) (le_total text) a b ha hb

/-- A pass with two sections to merge merges them and goes on behind them. -/
theorem mergePass_succ {a b r : List Ptr} (hlength : length = (l ++ (a ++ (b ++ r))).length)
    (hmemory : 8 * length < 2 ^ 64) (ha : a.length = step) (hb : b ≠ [])
    (hshort : b.length = step ∨ b.length ≤ step ∧ r = []) (fuel : Nat) :
    mergePass text length step (fuel + 1) (l ++ (a ++ (b ++ r))) l.length =
      mergePass text length step fuel (l ++ (List.merge a b (le text) ++ r))
        (l.length + 2 * step) := by
  have hpos := List.length_pos_iff.mpr hb
  simp only [List.length_append] at hlength
  have hmid : (l.length + step) % 2 ^ 64 = l.length + a.length := by omega
  have hnext : (l.length + 2 * step % 2 ^ 64) % 2 ^ 64 = l.length + 2 * step := by omega
  have hlast : (if l.length + 2 * step < length then l.length + 2 * step else length) =
      l.length + a.length + b.length := by
    rcases hshort with hb' | ⟨hb', rfl⟩
    · by_cases hlt : l.length + 2 * step < length
      case pos => rw [if_pos hlt]; omega
      case neg => rw [if_neg hlt]; omega
    · rw [List.length_nil] at hlength
      by_cases hlt : l.length + 2 * step < length
      case pos => omega
      case neg => rw [if_neg hlt]; omega
  have hgo : l.length + a.length < length := by omega
  rw [mergePass, hmid, if_pos hgo, hnext]
  dsimp only
  rw [hlast, merge_eq text rfl rfl rfl, ok_bind]

/-- The inner loop merges the runs two by two. -/
theorem passLoop (hshort : step < length) (hmemory : 8 * length < 2 ^ 64) :
    PassLoop (fun a b => List.merge a b (le text)) length step
      fun fuel arr i arr' => mergePass text length step fuel arr i = .ok arr' where
  stop := by
    intro fuel i arr hi hend
    have hstop : ¬ (i + step) % 2 ^ 64 < length := by omega
    rw [mergePass, if_neg hstop]
  next := by
    intro fuel l a b r arr' hlength ha hb hwidth hrest
    rw [mergePass_succ text hlength hmemory ha hb hwidth]
    exact hrest

/-- The outer loop doubles the width. -/
theorem passesLoop (hmemory : 8 * length < 2 ^ 64) :
    PassesLoop length (fun step fuel arr i arr' => mergePass text length step fuel arr i = .ok arr')
      fun fuel arr step arr' => mergePasses text length fuel arr step = .ok arr' where
  stop := by
    intro fuel step arr hdone
    rw [mergePasses, if_neg (by omega)]
  next := by
    intro fuel step arr arr₁ arr₂ hgo hpass hrest
    have hdouble : 2 * step % 2 ^ 64 = 2 * step := by omega
    rw [mergePasses, if_pos hgo, hpass, ok_bind, hdouble, hrest]

/-- With a step of zero the inner loop does not end. -/
theorem mergePass_zero (hlength : 0 < length) (fuel : Nat) :
    mergePass text length 0 fuel arr 0 = .error .outOfFuel := by
  induction fuel with
  | zero => rfl
  | succ fuel ih =>
      have hmerge : merge text arr 0 0 0 = .ok arr := by
        simpa using merge_eq text (a := []) (b := []) (l := []) (r := arr) rfl rfl rfl
      simp [mergePass, hlength, hmerge, ih]

/-- With a step of zero the passes do not end. -/
theorem mergePasses_zero (hlength : 0 < length) (fuel : Nat) :
    mergePasses text length fuel arr 0 = .error .outOfFuel := by
  cases fuel with
  | zero => rfl
  | succ fuel =>
      rw [mergePasses, if_pos hlength, mergePass_zero text hlength]
      rfl

end Passes

/-! ## The threads -/

section Threads

variable {qsort : List Ptr → List Ptr} {length numOfThreads i : Nat} {order : List Nat}
  {parts : List (List Ptr)}

/-- The bounds that a thread is given are those of its chunk. -/
theorem threadData_eq (hi : i < numOfThreads) (hmemory : length < 2 ^ 64) :
    threadData length numOfThreads i =
      ⟨chunkStart length numOfThreads i, chunkEnd length numOfThreads i⟩ := by
  unfold threadData
  rw [chunkStart_mod hi hmemory, chunkEnd_mod hi hmemory]

/-- A thread sorts its own part. -/
theorem threadSort_flatten (hi : i < numOfThreads) (hmemory : length < 2 ^ 64)
    (hwidths : parts.map List.length = chunkWidths length numOfThreads) :
    threadSort qsort (threadData length numOfThreads i) parts.flatten =
      .ok (parts.modify i qsort).flatten := by
  obtain ⟨pre, p, post, rfl, rfl, hstart, hend⟩ := exists_part hi hwidths
  have htake : (pre.flatten ++ (p ++ post.flatten)).take pre.flatten.length = pre.flatten :=
    List.take_left
  have hpart : ((pre.flatten ++ (p ++ post.flatten)).drop pre.flatten.length).take
      (pre.flatten.length + p.length - pre.flatten.length) = p := by
    simp
  have hdrop : (pre.flatten ++ (p ++ post.flatten)).drop (pre.flatten.length + p.length) =
      post.flatten := by
    simp [List.drop_append]
  rw [threadData_eq hi hmemory, modify_split, hstart, hend]
  unfold threadSort
  rw [if_pos (by simp)]
  simp only [List.flatten_append, List.flatten_cons, htake, hpart, hdrop]

/-- The threads together sort the parts of `order`. -/
theorem foldlM_threadSort (hmemory : length < 2 ^ 64)
    (hqsort : ∀ l, (qsort l).length = l.length) (horder : ∀ i ∈ order, i < numOfThreads)
    (hwidths : parts.map List.length = chunkWidths length numOfThreads) :
    order.foldlM (fun a i => threadSort qsort (threadData length numOfThreads i) a)
        parts.flatten =
      .ok (order.foldl (fun ps i => ps.modify i qsort) parts).flatten := by
  induction order generalizing parts with
  | nil => rfl
  | cons i order ih =>
      have hkept : (parts.modify i qsort).map List.length = parts.map List.length := by
        apply List.ext_getElem?
        intro j
        rw [List.getElem?_map, List.getElem?_map, List.getElem?_modify]
        cases hj : parts[j]? <;> by_cases hij : i = j <;> simp [hij, hqsort]
      rw [List.foldlM_cons, threadSort_flatten (horder i List.mem_cons_self) hmemory hwidths,
        ok_bind]
      exact ih (fun j hj => horder j (List.mem_cons_of_mem i hj)) (hkept.trans hwidths)

/-- Every part is sorted once, whatever the order. -/
theorem foldl_modify_eq_map (horder : order.Perm (List.range parts.length)) :
    order.foldl (fun ps i => ps.modify i qsort) parts = parts.map qsort := by
  have hfold : ∀ (order : List Nat) (parts : List (List Ptr)), order.Nodup → ∀ j : Nat,
      (order.foldl (fun ps i => ps.modify i qsort) parts)[j]? =
        if j ∈ order then parts[j]?.map qsort else parts[j]? := by
    intro order
    induction order with
    | nil => simp
    | cons i order ih =>
        intro parts hnodup j
        obtain ⟨hi, hnodup⟩ := List.nodup_cons.mp hnodup
        rw [List.foldl_cons, ih _ hnodup, List.getElem?_modify]
        by_cases hij : i = j
        case pos => subst hij; simp [hi]
        case neg => simp [hij, Ne.symm hij]
  apply List.ext_getElem?
  intro j
  rw [hfold order parts (horder.nodup_iff.mpr List.nodup_range), List.getElem?_map]
  by_cases hj : j < parts.length
  case pos => rw [if_pos (horder.mem_iff.mpr (List.mem_range.mpr hj))]
  case neg => simp [List.getElem?_eq_none (Nat.not_lt.mp hj)]

end Threads

/-! ## The sort -/

/-- A call that meets the assertions of `MTQuickSort`. -/
structure Call (Ptr : Type) where
  arr : List Ptr
  numOfThreads : Nat
  arr_pos : 0 < arr.length
  threads_pos : 0 < numOfThreads
  inMemory : 8 * arr.length < 2 ^ 64

namespace Call

variable (call : Call Ptr) (text : Ptr → CString) (qsort : List Ptr → List Ptr)

/-- What thread `i` is given. -/
def chunk (i : Nat) : ThreadData :=
  threadData call.arr.length call.numOfThreads i

/-- Every index of the array lies in the chunk of exactly one thread. -/
def ChunksCover : Prop :=
  (∀ i, i < call.numOfThreads → (call.chunk i).startIndex ≤ (call.chunk i).endIndex ∧
    (call.chunk i).endIndex ≤ call.arr.length) ∧
  ∀ k, k < call.arr.length → ∃ i, (i < call.numOfThreads ∧ (call.chunk i).startIndex ≤ k ∧
      k < (call.chunk i).endIndex) ∧
    ∀ j, j < call.numOfThreads → (call.chunk j).startIndex ≤ k → k < (call.chunk j).endIndex →
      j = i

/-- In whatever order the threads are done, the call ends and leaves the pointers in the order of
their strings. -/
def Sorts : Prop :=
  ∀ order : List Nat, order.Perm (List.range call.numOfThreads) →
    ∃ sorted, sorted.Perm call.arr ∧ (pointerOrder text).Ordered sorted ∧
      ∃ passes, ∀ fuel, passes ≤ fuel →
        mtQuickSort text qsort fuel call.arr call.numOfThreads order = .ok sorted

variable {call text qsort}

theorem chunk_eq {i : Nat} (hi : i < call.numOfThreads) : call.chunk i =
    ⟨chunkStart call.arr.length call.numOfThreads i,
      chunkEnd call.arr.length call.numOfThreads i⟩ := by
  have hmemory := call.inMemory
  exact threadData_eq hi (by omega)

theorem chunksCover : call.ChunksCover := by
  refine ⟨fun i hi => ?_, fun k hk => ?_⟩
  · rw [chunk_eq hi]
    exact ⟨chunkStart_le_chunkEnd hi, chunkEnd_le hi⟩
  · have hstart : ∀ i < call.numOfThreads, (call.chunk i).startIndex =
        chunkStart call.arr.length call.numOfThreads i := fun i hi => by rw [chunk_eq hi]
    have hend : ∀ i < call.numOfThreads, (call.chunk i).endIndex =
        chunkEnd call.arr.length call.numOfThreads i := fun i hi => by rw [chunk_eq hi]
    exact exists_unique_chunk call.threads_pos hstart hend hk

/-- The parts but the last are ordered runs of one width. -/
theorem inRuns_flatten {C : Comparator Ptr} {w last n : Nat} {parts : List (List Ptr)} (hw : 0 < w)
    (hwidths : parts.map List.length = List.replicate n w ++ [last])
    (hordered : ∀ p ∈ parts, C.Ordered p) : InRuns C w parts.flatten := by
  induction n generalizing parts with
  | zero =>
      match parts, hwidths with
      | [p], _ =>
          rw [List.flatten_singleton]
          exact .of_ordered hw (hordered p List.mem_cons_self)
  | succ n ih =>
      match parts, hwidths with
      | p :: parts, hwidths =>
          simp only [List.map_cons, List.replicate_succ, List.cons_append,
            List.cons.injEq] at hwidths
          rw [List.flatten_cons]
          exact .cons hwidths.1 (hordered p List.mem_cons_self)
            (ih hwidths.2 fun q hq => hordered q (List.mem_cons_of_mem p hq))

/-- Sorting the parts rearranges the whole. -/
theorem flatten_map_perm {parts : List (List Ptr)} (hqsort : ∀ l, (qsort l).Perm l) :
    (parts.map qsort).flatten.Perm parts.flatten := by
  induction parts with
  | nil => exact .refl _
  | cons p parts ih =>
      rw [List.map_cons, List.flatten_cons, List.flatten_cons]
      exact (hqsort p).append ih

/-- The threads leave ordered runs of the width of a chunk. -/
theorem exists_chunked
    (hqsort : ∀ l, (qsort l).Perm l ∧ (pointerOrder text).Ordered (qsort l)) {order : List Nat}
    (horder : order.Perm (List.range call.numOfThreads)) :
    ∃ chunked : List Ptr, chunked.Perm call.arr ∧
      (0 < call.arr.length / call.numOfThreads →
        InRuns (pointerOrder text) (call.arr.length / call.numOfThreads) chunked) ∧
      order.foldlM (fun a i => threadSort qsort (threadData call.arr.length call.numOfThreads i) a)
        call.arr = .ok chunked := by
  have hmemory := call.inMemory
  have hthreads := call.threads_pos
  obtain ⟨parts, hflatten, hwidths⟩ :=
    exists_parts (chunkWidths call.arr.length call.numOfThreads) call.arr (sum_chunkWidths hthreads)
  have hcount : parts.length = call.numOfThreads := length_parts hthreads hwidths
  have hlengths : (parts.map qsort).map List.length = parts.map List.length := by
    simp [fun l => (hqsort l).1.length_eq]
  refine ⟨(parts.map qsort).flatten, ?_, fun hpos => ?_, ?_⟩
  · rw [← hflatten]
    exact flatten_map_perm fun l => (hqsort l).1
  · apply inRuns_flatten hpos (hlengths.trans hwidths)
    intro p hp
    obtain ⟨q, -, rfl⟩ := List.mem_map.mp hp
    exact (hqsort q).2
  · have hbound : ∀ i ∈ order, i < call.numOfThreads :=
      fun i hi => List.mem_range.mp (horder.mem_iff.mp hi)
    have hthreadsRun : order.foldlM
        (fun a i => threadSort qsort (threadData call.arr.length call.numOfThreads i) a)
        parts.flatten = .ok (order.foldl (fun ps i => ps.modify i qsort) parts).flatten :=
      foldlM_threadSort (by omega) (fun l => (hqsort l).1.length_eq) hbound hwidths
    rw [foldl_modify_eq_map (hcount ▸ horder), hflatten] at hthreadsRun
    exact hthreadsRun

/-- Without an element for every thread the call does not end. -/
theorem mtQuickSort_of_lt
    (hqsort : ∀ l, (qsort l).Perm l ∧ (pointerOrder text).Ordered (qsort l)) {order : List Nat}
    (horder : order.Perm (List.range call.numOfThreads))
    (hlt : call.arr.length < call.numOfThreads) (fuel : Nat) :
    mtQuickSort text qsort fuel call.arr call.numOfThreads order = .error .outOfFuel := by
  have harr := call.arr_pos
  obtain ⟨chunked, -, -, hthreads⟩ := exists_chunked hqsort horder
  unfold mtQuickSort mergeSortedParts
  rw [hthreads, ok_bind, if_neg (by omega), Nat.div_eq_of_lt hlt]
  exact mergePasses_zero text harr fuel

/-- With an element for every thread the call sorts. -/
theorem sorts_of_le (hqsort : ∀ l, (qsort l).Perm l ∧ (pointerOrder text).Ordered (qsort l))
    (hle : call.numOfThreads ≤ call.arr.length) : call.Sorts text qsort := by
  intro order horder
  have hmemory := call.inMemory
  have hwidth : 0 < call.arr.length / call.numOfThreads := Nat.div_pos hle call.threads_pos
  obtain ⟨chunked, hperm, hruns, hthreads⟩ := exists_chunked hqsort horder
  have hlength := hperm.length_eq
  unfold mtQuickSort mergeSortedParts
  by_cases hone : call.numOfThreads = 1
  case pos =>
    refine ⟨chunked, hperm, (hruns hwidth).ordered ?_, 0, fun fuel _ => ?_⟩
    · simp [hone, hlength]
    · rw [hthreads, ok_bind, if_pos hone]
  case neg =>
    obtain ⟨sorted, hpermSorted, hordered, hpasses⟩ := (passesLoop text hmemory).exists_passes
      (fun _ _ hshort => passLoop text hshort hmemory) (merge_merges text) hwidth (hruns hwidth)
      hlength.symm
    refine ⟨sorted, hpermSorted.trans hperm, hordered, 2 * call.arr.length + 2,
      fun fuel hfuel => ?_⟩
    rw [hthreads, ok_bind, if_neg hone]
    exact hpasses fuel (by omega) (by omega)

/-- The chunks always cover the array; the call ends and sorts just when there are no more threads
than pointers. -/
theorem chunksCover_and_sorts_iff
    (hqsort : ∀ l, (qsort l).Perm l ∧ (pointerOrder text).Ordered (qsort l)) :
    call.ChunksCover ∧ call.Sorts text qsort ↔ call.numOfThreads ≤ call.arr.length := by
  constructor
  · rintro ⟨-, hsorts⟩
    by_contra hle
    obtain ⟨sorted, -, -, passes, hrun⟩ := hsorts _ (.refl _)
    have hends := hrun passes (Nat.le_refl passes)
    rw [mtQuickSort_of_lt hqsort (.refl _) (Nat.not_le.mp hle)] at hends
    cases hends
  · intro hle
    exact ⟨chunksCover, sorts_of_le hqsort hle⟩

/-- A `qsort` for strings. -/
def mergeQsort (l : List CString) : List CString :=
  l.mergeSort (le id)

theorem mergeQsort_sorts (l : List CString) :
    (mergeQsort l).Perm l ∧ (pointerOrder id).Ordered (mergeQsort l) := by
  refine ⟨List.mergeSort_perm l (le id), ?_⟩
  rw [ordered_iff]
  exact List.pairwise_mergeSort (le_trans id) (le_total id) l

/-- Two strings, the greater one first, and two threads. -/
def twoStrings : Call CString where
  arr := [⟨[98], by decide⟩, ⟨[97], by decide⟩]
  numOfThreads := 2
  arr_pos := by decide
  threads_pos := by decide
  inMemory := by decide

theorem twoStrings_sorts :
    twoStrings.ChunksCover ∧ twoStrings.Sorts id mergeQsort ↔
      twoStrings.numOfThreads ≤ twoStrings.arr.length :=
  chunksCover_and_sorts_iff mergeQsort_sorts

/-- One string and two threads. -/
def oneString : Call CString where
  arr := [⟨[97], by decide⟩]
  numOfThreads := 2
  arr_pos := by decide
  threads_pos := by decide
  inMemory := by decide

/-- One string is not sorted by two threads. -/
theorem oneString_not_sorted : ¬ (oneString.ChunksCover ∧ oneString.Sorts id mergeQsort) := by
  rintro ⟨-, hsorts⟩
  obtain ⟨sorted, -, -, passes, hrun⟩ := hsorts _ (.refl _)
  have hends := hrun passes (Nat.le_refl passes)
  rw [mtQuickSort_of_lt mergeQsort_sorts (.refl _) (by decide)] at hends
  cases hends

end Call

end MtQuickSort
end Sorting
end InfinityLabs
