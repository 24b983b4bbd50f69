import InfinityLabs.Lib.Cells
import InfinityLabs.Lib.CInts
import InfinityLabs.Lib.ListParts
import Mathlib.Data.List.Induction

/-!
# Sorting by comparisons

`projects/sorting/src/cmp_sorting.c`: bubble sort with its early exit, selection sort and insertion
sort over the cells of one array.
-/

namespace InfinityLabs
namespace Sorting

open Lib

/-! ## The functions -/

/-- `Swap`. -/
def swap (arr : List Int) (a b : Nat) : Except Fault (List Int) := do
  let temp ← readCell arr a
  let y ← readCell arr b
  let arr ← writeCell arr a y
  writeCell arr b temp

/-- A pass of the inner loop of `BubbleSort`. -/
def bubbleStep (s : List Int × Bool) (j : Nat) : Except Fault (List Int × Bool) := do
  let x ← readCell s.1 j
  let y ← readCell s.1 (j + 1)
  if x > y then
    let arr ← swap s.1 j (j + 1)
    .ok (arr, true)
  else .ok s

/-- The outer loop of `BubbleSort` over its indices, as long as there was a swap. -/
def bubbleLoop (size : Nat) : List Nat → List Int × Bool → Except Fault (List Int)
  | [], (arr, _) => .ok arr
  | i :: rest, (arr, isSwap) =>
      if isSwap then do
        let s ← (List.range' 0 (size - i - 1)).foldlM bubbleStep (arr, false)
        bubbleLoop size rest s
      -- the pass before has found the array in order
      else .ok arr

/-- `BubbleSort`. -/
def bubbleSort (arr : List Int) : Except Fault (List Int) :=
  if arr.length < 2 then .ok arr
  else bubbleLoop arr.length (List.range' 0 (arr.length - 1)) (arr, true)

/-- A pass of the inner loop of `SelectionSort`. -/
def selectStep (arr : List Int) (minIndex j : Nat) : Except Fault Nat := do
  let x ← readCell arr j
  let min ← readCell arr minIndex
  .ok (if x < min then j else minIndex)

/-- A pass of the outer loop of `SelectionSort`. -/
def selectionStep (size : Nat) (arr : List Int) (i : Nat) : Except Fault (List Int) := do
  let minIndex ← (List.range' (i + 1) (size - (i + 1))).foldlM (selectStep arr) i
  if minIndex ≠ i then swap arr i minIndex else .ok arr

/-- `SelectionSort`. -/
def selectionSort (arr : List Int) : Except Fault (List Int) :=
  if arr.length < 2 then .ok arr
  else (List.range' 0 (arr.length - 1)).foldlM (selectionStep arr.length) arr

/-- The inner loop of `InsertionSort`, with the index that it leaves. -/
def insertLoop (key : Int) : Nat → List Int → Except Fault (Nat × List Int)
  | 0, arr => .ok (0, arr)
  | j + 1, arr => do
      let x ← readCell arr j
      if x > key then
        let arr ← writeCell arr (j + 1) x
        insertLoop key j arr
      else .ok (j + 1, arr)

/-- A pass of the outer loop of `InsertionSort`. -/
def insertionStep (arr : List Int) (i : Nat) : Except Fault (List Int) := do
  let key ← readCell arr i
  let (j, arr) ← insertLoop key i arr
  writeCell arr j key

/-- `InsertionSort`. -/
def insertionSort (arr : List Int) : Except Fault (List Int) :=
  if arr.length < 2 then .ok arr
  else (List.range' 1 (arr.length - 1)).foldlM insertionStep arr

/-! ## Bubble sort -/

variable {arr l r p q : List Int} {x y : Int}

/-- Cells of one array change places. -/
theorem swap_split (p q r : List Int) (x y : Int) :
    swap (p ++ x :: (q ++ y :: r)) p.length (p.length + (q.length + 1)) =
      .ok (p ++ y :: (q ++ x :: r)) := by
  have hassoc : ∀ a b : Int, p ++ a :: (q ++ b :: r) = (p ++ a :: q) ++ b :: r := fun a b => by
    rw [List.append_assoc, List.cons_append]
  have hlength : ∀ a : Int, p.length + (q.length + 1) = (p ++ a :: q).length := fun a => by
    rw [List.length_append, List.length_cons]
  have hread := readCell_split (l := p ++ x :: q) (r := r) y (hlength x)
  have hwrite := writeCell_split (l := p ++ y :: q) (r := r) y x (hlength y)
  rw [swap, readCell_split x rfl, ok_bind, hassoc x y, hread, ok_bind, ← hassoc x y,
    writeCell_split x y rfl, ok_bind, hassoc y y, hwrite, hassoc y x]

/-- What comes last behind lower elements is the largest. -/
theorem le_of_mem_concat {lower : List Int} {max : Int} (hle : ∀ z ∈ lower, z ≤ max)
    (hx : x ∈ lower ++ [max]) : x ≤ max := by
  rcases List.mem_append.mp hx with hmem | hmem
  · exact hle x hmem
  · exact Int.le_of_eq (List.mem_singleton.mp hmem)

/-- A pass carries the largest element to its end; without a swap the elements are in order. -/
theorem bubblePass_eq (p q r : List Int) (x : Int) (isSwap : Bool) :
    ∃ lower max swapped, (List.range' p.length q.length).foldlM bubbleStep
        (p ++ x :: (q ++ r), isSwap) = .ok (p ++ (lower ++ max :: r), swapped) ∧
      (lower ++ [max]).Perm (x :: q) ∧ (∀ z ∈ lower, z ≤ max) ∧
      (swapped = false → isSwap = false ∧ lower ++ [max] = x :: q ∧
        (x :: q).Pairwise (· ≤ ·)) := by
  induction q generalizing p x isSwap with
  | nil =>
      exact ⟨[], x, isSwap, rfl, .refl _, by simp,
        fun h => ⟨h, rfl, List.pairwise_singleton _ x⟩⟩
  | cons y q ih =>
      have hnext : readCell (p ++ x :: (y :: q ++ r)) (p.length + 1) = .ok y := by
        have hassoc : p ++ x :: (y :: q ++ r) = (p ++ [x]) ++ y :: (q ++ r) := by simp
        rw [hassoc, readCell_split y (by simp)]
      have hlength : ∀ a : Int, (p ++ [a]).length = p.length + 1 := fun a => by simp
      rw [List.length_cons, List.range'_succ, List.foldlM_cons, bubbleStep]
      dsimp only
      rw [readCell_split x rfl, ok_bind, hnext, ok_bind]
      by_cases hgt : x > y
      case pos =>
        -- `y` stays behind, and `x` is carried on
        obtain ⟨lower, max, swapped, hloop, hperm, hle, hsame⟩ := ih (p ++ [y]) x true
        have hswap : swap (p ++ x :: (y :: q ++ r)) p.length (p.length + 1) =
            .ok ((p ++ [y]) ++ x :: (q ++ r)) := by
          rw [List.append_assoc]
          exact swap_split p [] (q ++ r) x y
        rw [if_pos hgt, hswap, ok_bind, ok_bind, ← hlength y, hloop]
        have hmax := le_of_mem_concat hle (hperm.mem_iff.mpr List.mem_cons_self)
        refine ⟨y :: lower, max, swapped, by simp, ?_, List.forall_mem_cons.mpr ⟨by omega, hle⟩,
          fun h => absurd (hsame h).1 (by decide)⟩
        exact (hperm.cons y).trans (List.Perm.swap x y q)
      case neg =>
        -- `x` stays behind, and `y` is carried on
        obtain ⟨lower, max, swapped, hloop, hperm, hle, hsame⟩ := ih (p ++ [x]) y isSwap
        have hstep : p ++ x :: (y :: q ++ r) = (p ++ [x]) ++ y :: (q ++ r) := by simp
        rw [if_neg hgt, ok_bind, hstep, ← hlength x, hloop]
        have hmax := le_of_mem_concat hle (hperm.mem_iff.mpr List.mem_cons_self)
        refine ⟨x :: lower, max, swapped, by simp, hperm.cons x,
          List.forall_mem_cons.mpr ⟨by omega, hle⟩, fun h => ?_⟩
        obtain ⟨hflag, heq, hordered⟩ := hsame h
        refine ⟨hflag, by rw [List.cons_append, heq], ?_⟩
        refine List.pairwise_cons.mpr ⟨List.forall_mem_cons.mpr ⟨by omega, fun z hz => ?_⟩, hordered⟩
        have hyz := List.rel_of_pairwise_cons hordered hz
        omega

/-- The elements in front of an ordered end are not above it. -/
structure SplitsAt (l s : List Int) : Prop where
  ordered : s.Pairwise (· ≤ ·)
  below : ∀ x ∈ l, ∀ y ∈ s, x ≤ y

/-- Ordered elements in front of such an end make an ordered array. -/
theorem SplitsAt.append {s : List Int} (h : SplitsAt l s) (hl : l.Pairwise (· ≤ ·)) :
    (l ++ s).Pairwise (· ≤ ·) :=
  List.pairwise_append.mpr ⟨hl, h.ordered, h.below⟩

/-- The passes sort what is in front of the ordered end. -/
theorem bubbleLoop_eq {size i n : Nat} {s : List Int} {isSwap : Bool}
    (hlength : l.length = n + 1) (hsize : size = i + n + 1) (h : SplitsAt l s)
    (hstop : isSwap = false → l.Pairwise (· ≤ ·)) :
    ∃ sorted, bubbleLoop size (List.range' i n) (l ++ s, isSwap) = .ok sorted ∧
      IsSortOf sorted (l ++ s) := by
  induction n generalizing i l s isSwap with
  | zero =>
      obtain ⟨x, rfl⟩ := List.length_eq_one_iff.mp hlength
      exact ⟨_, rfl, .refl _, h.append (List.pairwise_singleton _ x)⟩
  | succ n ih =>
      rw [List.range'_succ]
      cases isSwap with
      | false => exact ⟨l ++ s, rfl, .refl _, h.append (hstop rfl)⟩
      | true =>
          obtain ⟨x, q, rfl⟩ := List.exists_cons_of_ne_nil (List.ne_nil_of_length_eq_add_one hlength)
          rw [List.length_cons, Nat.add_right_cancel_iff] at hlength
          obtain ⟨lower, max, swapped, hpass, hperm, hle, hsame⟩ := bubblePass_eq [] q s x false
          have hcount : size - i - 1 = q.length := by omega
          have hmem : ∀ z ∈ lower ++ [max], z ∈ x :: q := fun z hz => hperm.subset hz
          have hsplit : SplitsAt lower (max :: s) :=
            { ordered := List.pairwise_cons.mpr ⟨h.below max (hmem max (by simp)), h.ordered⟩
              below := fun z hz => List.forall_mem_cons.mpr
                ⟨hle z hz, h.below z (hmem z (List.mem_append_left _ hz))⟩ }
          have hlower : lower.length = n + 1 := by
            have hlengths := hperm.length_eq
            rw [List.length_append, List.length_singleton, List.length_cons] at hlengths
            omega
          have hstop' : swapped = false → lower.Pairwise (· ≤ ·) := fun hswapped => by
            obtain ⟨-, heq, hordered⟩ := hsame hswapped
            rw [← heq] at hordered
            exact (List.pairwise_append.mp hordered).1
          have hsize' : size = i + 1 + n + 1 := by omega
          obtain ⟨sorted, hloop, hsorted⟩ := ih hlower hsize' hsplit hstop'
          refine ⟨sorted, ?_, hsorted.of_perm ?_⟩
          · rw [bubbleLoop, if_pos rfl, hcount]
            exact (congrArg (· >>= _) hpass).trans hloop
          · rw [List.append_cons]
            exact hperm.append_right s

/-- Arrays of less than two elements are in order. -/
theorem isSortOf_of_length_lt (h : arr.length < 2) : IsSortOf arr arr := by
  refine ⟨.refl arr, ?_⟩
  match arr, h with
  | [], _ => exact .nil
  | [x], _ => exact List.pairwise_singleton _ x

/-- `BubbleSort` sorts. -/
theorem bubbleSort_eq (arr : List Int) :
    ∃ sorted, bubbleSort arr = .ok sorted ∧ IsSortOf sorted arr := by
  by_cases hshort : arr.length < 2
  case pos => exact ⟨arr, if_pos hshort, isSortOf_of_length_lt hshort⟩
  case neg =>
    have hempty : SplitsAt arr [] := ⟨.nil, fun _ _ y hy => absurd hy List.not_mem_nil⟩
    have hlength : arr.length = arr.length - 1 + 1 := by omega
    have hstart : true = false → arr.Pairwise (· ≤ ·) := fun h => absurd h (by decide)
    obtain ⟨sorted, hloop, hsorted⟩ :=
      bubbleLoop_eq hlength (by omega : arr.length = 0 + (arr.length - 1) + 1) hempty hstart
    rw [List.append_nil] at hloop hsorted
    exact ⟨sorted, by rw [bubbleSort, if_neg hshort, hloop], hsorted⟩

/-! ## Selection sort -/

/-- The inner loop finds a smallest element. -/
theorem selectLoop_eq {i : Nat} (p q : List Int) (hx : (p ++ q)[i]? = some x) (hi : i < p.length) :
    ∃ minIndex min, (List.range' p.length q.length).foldlM (selectStep (p ++ q)) i = .ok minIndex ∧
      (p ++ q)[minIndex]? = some min ∧ i ≤ minIndex ∧ min ≤ x ∧ ∀ z ∈ q, min ≤ z := by
  induction q generalizing p i x with
  | nil => exact ⟨i, x, rfl, hx, Nat.le_refl i, Int.le_refl x, by simp⟩
  | cons y q ih =>
      have hassoc : p ++ y :: q = (p ++ [y]) ++ q := by simp
      have hlength : (p ++ [y]).length = p.length + 1 := by simp
      rw [List.length_cons, List.range'_succ, List.foldlM_cons, selectStep, readCell_split y rfl,
        ok_bind, readCell_of_getElem? hx, ok_bind, ok_bind]
      by_cases hlt : y < x
      case pos =>
        have hy : ((p ++ [y]) ++ q)[p.length]? = some y := by
          rw [← hassoc, getElem?_split]
        obtain ⟨minIndex, min, hloop, hmin, hle, hminY, hall⟩ := ih (p ++ [y]) hy (by omega)
        rw [if_pos hlt, hassoc, ← hlength, hloop]
        exact ⟨minIndex, min, rfl, hmin, by omega, by omega, List.forall_mem_cons.mpr ⟨hminY, hall⟩⟩
      case neg =>
        rw [hassoc] at hx
        obtain ⟨minIndex, min, hloop, hmin, hle, hminX, hall⟩ := ih (p ++ [y]) hx (by omega)
        rw [if_neg hlt, hassoc, ← hlength, hloop]
        exact ⟨minIndex, min, rfl, hmin, hle, hminX, List.forall_mem_cons.mpr ⟨by omega, hall⟩⟩

/-- A smallest element of the rest goes to the end of the ordered front. -/
theorem selectionStep_eq (s q : List Int) (x : Int) :
    ∃ min rest, selectionStep (s.length + (q.length + 1)) (s ++ x :: q) s.length =
        .ok (s ++ min :: rest) ∧
      (min :: rest).Perm (x :: q) ∧ ∀ z ∈ rest, min ≤ z := by
  have hassoc : s ++ x :: q = (s ++ [x]) ++ q := by simp
  have hlength : (s ++ [x]).length = s.length + 1 := by simp
  have hx : ((s ++ [x]) ++ q)[s.length]? = some x := by rw [← hassoc, getElem?_split]
  obtain ⟨minIndex, min, hloop, hmin, hle, hminX, hall⟩ :=
    selectLoop_eq (s ++ [x]) q hx (by omega)
  have hcount : s.length + (q.length + 1) - (s.length + 1) = q.length := by omega
  rw [hlength, ← hassoc] at hloop
  rw [selectionStep, hcount, hloop, ok_bind]
  rw [← hassoc] at hmin
  rcases Nat.lt_or_eq_of_le hle with hlt | rfl
  case inr =>
    -- the first of the rest is a smallest element, and nothing is swapped
    rw [getElem?_split, Option.some.injEq] at hmin
    subst hmin
    exact ⟨x, q, by rw [if_neg (not_not_intro rfl)], .refl _, hall⟩
  case inl =>
    obtain ⟨k, rfl⟩ : ∃ k, minIndex = s.length + (k + 1) := ⟨minIndex - (s.length + 1), by omega⟩
    rw [List.getElem?_append_right (by omega), Nat.add_sub_cancel_left,
      List.getElem?_cons_succ] at hmin
    obtain ⟨a, b, rfl, rfl⟩ := exists_append_cons_of_getElem? hmin
    refine ⟨min, a ++ x :: b, ?_, ?_, ?_⟩
    · rw [if_pos (by omega), swap_split]
    · refine (List.perm_middle.cons min).trans ((List.Perm.swap x min _).trans ?_)
      exact (List.perm_middle.symm).cons x
    · intro z hz
      rcases List.mem_append.mp hz with hmem | hmem
      · exact hall z (List.mem_append_left _ hmem)
      · rcases List.mem_cons.mp hmem with rfl | hmem
        · exact hminX
        · exact hall z (List.mem_append_right _ (List.mem_cons_of_mem _ hmem))

/-- The passes sort what is behind the ordered front. -/
theorem selectionLoop_eq {n : Nat} {s : List Int} (hlength : l.length = n + 1)
    (hs : s.Pairwise (· ≤ ·)) (hbelow : ∀ x ∈ s, ∀ y ∈ l, x ≤ y) :
    ∃ sorted, (List.range' s.length n).foldlM (selectionStep (s.length + (n + 1))) (s ++ l) =
        .ok sorted ∧ IsSortOf sorted (s ++ l) := by
  induction n generalizing s l with
  | zero =>
      obtain ⟨x, rfl⟩ := List.length_eq_one_iff.mp hlength
      exact ⟨_, rfl, .refl _, List.pairwise_append.mpr ⟨hs, List.pairwise_singleton _ x, hbelow⟩⟩
  | succ n ih =>
      obtain ⟨x, q, rfl⟩ := List.exists_cons_of_ne_nil (List.ne_nil_of_length_eq_add_one hlength)
      rw [List.length_cons, Nat.add_right_cancel_iff] at hlength
      obtain ⟨min, rest, hstep, hperm, hmin⟩ := selectionStep_eq s q x
      have hmem : ∀ z ∈ min :: rest, z ∈ x :: q := fun z hz => hperm.subset hz
      have hrest : rest.length = n + 1 := by
        have hlengths := hperm.length_eq
        rw [List.length_cons, List.length_cons] at hlengths
        omega
      have hfront : (s ++ [min]).Pairwise (· ≤ ·) :=
        List.pairwise_append.mpr ⟨hs, List.pairwise_singleton _ min, fun z hz y hy =>
          hbelow z hz y (hmem y (by rw [List.mem_singleton.mp hy]; exact List.mem_cons_self))⟩
      have hbelow' : ∀ z ∈ s ++ [min], ∀ y ∈ rest, z ≤ y := fun z hz y hy => by
        rcases List.mem_append.mp hz with hz | hz
        · exact hbelow z hz y (hmem y (List.mem_cons_of_mem min hy))
        · rw [List.mem_singleton.mp hz]
          exact hmin y hy
      obtain ⟨sorted, hloop, hsorted⟩ := ih hrest hfront hbelow'
      have hnext : (s ++ [min]).length = s.length + 1 := by simp
      have hsize : s.length + 1 + (n + 1) = s.length + (n + 1 + 1) := by omega
      rw [hnext, hsize, List.append_assoc, List.singleton_append] at hloop
      rw [hlength] at hstep
      refine ⟨sorted, ?_, hsorted.of_perm ?_⟩
      · rw [List.range'_succ, List.foldlM_cons, hstep, ok_bind, hloop]
      · rw [List.append_assoc, List.singleton_append]
        exact hperm.append_left s

/-- `SelectionSort` sorts. -/
theorem selectionSort_eq (arr : List Int) :
    ∃ sorted, selectionSort arr = .ok sorted ∧ IsSortOf sorted arr := by
  by_cases hshort : arr.length < 2
  case pos => exact ⟨arr, if_pos hshort, isSortOf_of_length_lt hshort⟩
  case neg =>
    have hlength : arr.length = arr.length - 1 + 1 := by omega
    obtain ⟨sorted, hloop, hsorted⟩ :=
      selectionLoop_eq hlength .nil fun x hx => absurd hx List.not_mem_nil
    rw [List.length_nil, Nat.zero_add, ← hlength, List.nil_append] at hloop
    exact ⟨sorted, by rw [selectionSort, if_neg hshort, hloop], hsorted⟩

/-! ## Insertion sort -/

/-- The inner loop moves the elements above the key by one cell. -/
theorem insertLoop_eq (key : Int) (a t : List Int) (hole : Int) :
    ∃ a₁ a₂ hole', insertLoop key a.length (a ++ hole :: t) =
        .ok (a₁.length, a₁ ++ hole' :: (a₂ ++ t)) ∧
      a = a₁ ++ a₂ ∧ (∀ z ∈ a₂, key < z) ∧ ∀ z ∈ a₁.getLast?, z ≤ key := by
  induction a using List.reverseRecOn generalizing hole t with
  | nil => exact ⟨[], [], hole, rfl, rfl, by simp, by simp⟩
  | append_singleton a x ih =>
      have hassoc : (a ++ [x]) ++ hole :: t = a ++ x :: (hole :: t) := by simp
      have hlength : (a ++ [x]).length = a.length + 1 := by simp
      by_cases hgt : x > key
      case pos =>
        obtain ⟨a₁, a₂, hole', hloop, rfl, habove, hlast⟩ := ih (x :: t) x
        refine ⟨a₁, a₂ ++ [x], hole', ?_, by simp, ?_, hlast⟩
        · have hwrite := writeCell_split (l := a₁ ++ a₂ ++ [x]) (r := t) hole x hlength.symm
          rw [hlength, hassoc, insertLoop, readCell_split x rfl, ok_bind, if_pos hgt, ← hassoc,
            hwrite, ok_bind, List.append_assoc, List.singleton_append, hloop]
          simp
        · intro z hz
          rcases List.mem_append.mp hz with hz | hz
          · exact habove z hz
          · rw [List.mem_singleton.mp hz]
            exact hgt
      case neg =>
        refine ⟨a ++ [x], [], hole, ?_, by simp, by simp, ?_⟩
        · rw [hlength, hassoc, insertLoop, readCell_split x rfl, ok_bind, if_neg hgt]
          simp
        · intro z hz
          obtain rfl : x = z := by simpa using hz
          omega

/-- A pass puts the next element to its place in the ordered front. -/
theorem insertionStep_eq {s : List Int} (hs : s.Pairwise (· ≤ ·)) (key : Int) (r : List Int) :
    ∃ s', insertionStep (s ++ key :: r) s.length = .ok (s' ++ r) ∧ IsSortOf s' (s ++ [key]) := by
  obtain ⟨a₁, a₂, hole, hloop, rfl, habove, hlast⟩ := insertLoop_eq key s r key
  obtain ⟨ha₁, ha₂, hacross⟩ := List.pairwise_append.mp hs
  have hbelow : ∀ z ∈ a₁, z ≤ key := by
    rcases List.eq_nil_or_concat a₁ with rfl | ⟨a, x, rfl⟩
    · simp
    · rw [List.concat_eq_append] at ha₁ hlast ⊢
      have hx := hlast x (by simp)
      intro z hz
      rcases List.mem_append.mp hz with hz | hz
      · have hzx := (List.pairwise_append.mp ha₁).2.2 z hz x (List.mem_singleton_self x)
        omega
      · rw [List.mem_singleton.mp hz]
        exact hx
  refine ⟨a₁ ++ key :: a₂, ?_, ?_, ?_⟩
  · rw [insertionStep, readCell_split key rfl, ok_bind, hloop, ok_bind]
    dsimp only
    rw [writeCell_split hole key rfl, List.append_assoc, List.cons_append]
  · rw [List.append_assoc]
    exact (List.perm_append_singleton key a₂).symm.append_left a₁
  · refine List.pairwise_append.mpr ⟨ha₁, List.pairwise_cons.mpr
      ⟨fun z hz => Int.le_of_lt (habove z hz), ha₂⟩, fun z hz y hy => ?_⟩
    rcases List.mem_cons.mp hy with rfl | hy
    · exact hbelow z hz
    · exact hacross z hz y hy

/-- The passes bring the rest into the ordered front. -/
theorem insertionLoop_eq {s : List Int} (hs : s.Pairwise (· ≤ ·)) (r : List Int) :
    ∃ sorted, (List.range' s.length r.length).foldlM insertionStep (s ++ r) = .ok sorted ∧
      IsSortOf sorted (s ++ r) := by
  induction r generalizing s with
  | nil => exact ⟨s ++ [], rfl, .refl _, by rwa [List.append_nil]⟩
  | cons key r ih =>
      obtain ⟨s', hstep, hs'⟩ := insertionStep_eq hs key r
      obtain ⟨sorted, hloop, hsorted⟩ := ih hs'.ordered
      have hlength : s'.length = s.length + 1 := by
        rw [hs'.perm.length_eq, List.length_append, List.length_singleton]
      refine ⟨sorted, ?_, hsorted.of_perm ?_⟩
      · rw [List.length_cons, List.range'_succ, List.foldlM_cons, hstep, ok_bind, ← hlength, hloop]
      · rw [List.append_cons]
        exact hs'.perm.append_right r

/-- `InsertionSort` sorts. -/
theorem insertionSort_eq (arr : List Int) :
    ∃ sorted, insertionSort arr = .ok sorted ∧ IsSortOf sorted arr := by
  by_cases hshort : arr.length < 2
  case pos => exact ⟨arr, if_pos hshort, isSortOf_of_length_lt hshort⟩
  case neg =>
    obtain ⟨x, r, rfl⟩ := List.exists_cons_of_ne_nil
      (List.ne_nil_of_length_pos (by omega : 0 < arr.length))
    obtain ⟨sorted, hloop, hsorted⟩ := insertionLoop_eq (List.pairwise_singleton _ x) r
    exact ⟨sorted, by rw [insertionSort, if_neg hshort]; exact hloop, hsorted⟩

/-- `BubbleSort`, `SelectionSort` and `InsertionSort` stay inside the array and leave the same one,
which is sorted. -/
theorem cmpSorts_agree (arr : IntBuffer) :
    ∃ sorted, IsSortOf sorted arr.elements ∧ bubbleSort arr.elements = .ok sorted ∧
      selectionSort arr.elements = .ok sorted ∧ insertionSort arr.elements = .ok sorted := by
  obtain ⟨bubbled, hbubble, hbubbled⟩ := bubbleSort_eq arr.elements
  obtain ⟨selected, hselection, hselected⟩ := selectionSort_eq arr.elements
  obtain ⟨inserted, hinsertion, hinserted⟩ := insertionSort_eq arr.elements
  obtain rfl := hselected.unique hbubbled
  obtain rfl := hinserted.unique hselected
  exact ⟨inserted, hinserted, hbubble, hselection, hinsertion⟩

example : bubbleSort [3, -2, 3, 0] = .ok [-2, 0, 3, 3] := by decide

end Sorting
end InfinityLabs
