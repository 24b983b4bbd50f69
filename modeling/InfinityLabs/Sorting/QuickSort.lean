import InfinityLabs.Lib.Cells
import InfinityLabs.Lib.Comparator
import InfinityLabs.Lib.ListParts
import Mathlib.Algebra.Group.Nat.Defs
import Mathlib.Tactic.Common

/-!
# QuickSort

`projects/sorting/src/sorts.c`: the generic quick sort.  It knows its elements as runs of
`elem_size` bytes only and moves them by swapping their bytes one by one.
-/

namespace InfinityLabs
namespace Sorting

open Lib

/-- The bytes of one element. -/
def Element (n : Nat) : Type :=
  { bytes : List UInt8 // bytes.length = n }

/-- An array of elements in memory. -/
structure ElementArray where
  elemSize : Nat
  elements : List (Element elemSize)
  elemSize_pos : 0 < elemSize
  inMemory : elements.length * elemSize < 2 ^ 64

/-- The bytes of elements that follow each other. -/
def bytesOf {n : Nat} (elements : List (Element n)) : List UInt8 :=
  elements.flatMap Subtype.val

/-- Where an element begins, counted in bytes from the base of the array. -/
def offset (i n : Nat) : Nat :=
  i * n % 2 ^ 64

/-- The element that begins at a byte. -/
def readElement (mem : List UInt8) (start n : Nat) : Except Fault (Element n) :=
  if h : start + n ≤ mem.length then
    .ok ⟨(mem.drop start).take n, by simp only [List.length_take, List.length_drop]; omega⟩
  else .error .outOfBounds

/-- One pass of the loop of `SwapBytes`. -/
def swapByte (a b : Nat) (mem : List UInt8) (i : Nat) : Except Fault (List UInt8) := do
  let tmpByte ← readCell mem (a + i)
  let byte ← readCell mem (b + i)
  let mem ← writeCell mem (a + i) byte
  writeCell mem (b + i) tmpByte

/-- `SwapBytes`; the pointers are offsets into the array, so none of them is `NULL`. -/
def swapBytes (mem : List UInt8) (a b n : Nat) : Except Fault (List UInt8) :=
  if a = b then .ok mem else (List.range' 0 n).foldlM (swapByte a b) mem

/-- One pass of the loop of `Partition`, which carries the bytes and `store`. -/
def partitionPass {n : Nat} (cmp : Element n → Element n → Int) (right : Nat)
    (s : List UInt8 × Nat) (i : Nat) : Except Fault (List UInt8 × Nat) := do
  let current ← readElement s.1 (offset i n) n
  let pivot ← readElement s.1 (offset right n) n
  if cmp current pivot < 0 then
    let mem ← swapBytes s.1 (offset i n) (offset s.2 n) n
    .ok (mem, (s.2 + 1) % 2 ^ 64)
  else .ok s

/-- `Partition`: the bytes and the place of the pivot. -/
def partition {n : Nat} (cmp : Element n → Element n → Int) (mem : List UInt8)
    (left right : Nat) : Except Fault (List UInt8 × Nat) := do
  let s ← (List.range' left (right - left)).foldlM (partitionPass cmp right) (mem, left)
  let mem ← swapBytes s.1 (offset s.2 n) (offset right n) n
  .ok (mem, s.2)

/-- `QuickSortRec`; `fuel` bounds the depth of its calls. -/
def quickSortRec {n : Nat} (cmp : Element n → Element n → Int) :
    Nat → List UInt8 → Nat → Nat → Except Fault (List UInt8)
  | 0, _, _, _ => .error .outOfFuel
  | fuel + 1, mem, left, right =>
      if right ≤ left then .ok mem
      else do
        let s ← partition cmp mem left right
        let mem ← (if 0 < s.2 then quickSortRec cmp fuel s.1 left (s.2 - 1) else .ok s.1 :
          Except Fault (List UInt8))
        quickSortRec cmp fuel mem ((s.2 + 1) % 2 ^ 64) right

/-- `QuickSort` of an array and a comparison function, neither of them `NULL`. -/
def quickSort {n : Nat} (cmp : Element n → Element n → Int) (fuel : Nat) (mem : List UInt8)
    (nItems : Nat) : Except Fault (List UInt8) :=
  if nItems ≤ 2 ∨ n = 0 then .ok mem else quickSortRec cmp fuel mem 0 (nItems - 1)

/-! ## Bytes and elements -/

section Bytes

variable {n : Nat}

@[simp] theorem bytesOf_nil : bytesOf ([] : List (Element n)) = [] :=
  rfl

@[simp] theorem bytesOf_append (l r : List (Element n)) :
    bytesOf (l ++ r) = bytesOf l ++ bytesOf r :=
  List.flatMap_append

@[simp] theorem bytesOf_cons (x : Element n) (l : List (Element n)) :
    bytesOf (x :: l) = x.val ++ bytesOf l :=
  List.flatMap_cons

/-- Every element has `n` bytes. -/
theorem length_bytesOf (l : List (Element n)) : (bytesOf l).length = l.length * n := by
  induction l with
  | nil => simp
  | cons x l ih =>
      rw [bytesOf_cons, List.length_append, ih, x.2, List.length_cons, Nat.succ_mul, Nat.add_comm]

/-- The bytes tell the elements apart. -/
theorem bytesOf_injective (hn : 0 < n) {l r : List (Element n)} (h : bytesOf l = bytesOf r) :
    l = r := by
  have hlength := congrArg List.length h
  rw [length_bytesOf, length_bytesOf] at hlength
  induction l generalizing r with
  | nil =>
      cases r with
      | nil => rfl
      | cons y r => simp [Nat.succ_mul] at hlength; omega
  | cons x l ih =>
      cases r with
      | nil => simp [Nat.succ_mul] at hlength; omega
      | cons y r =>
          rw [bytesOf_cons, bytesOf_cons] at h
          obtain ⟨hhead, htail⟩ := List.append_inj h (x.2.trans y.2.symm)
          have hrest := congrArg List.length htail
          rw [length_bytesOf, length_bytesOf] at hrest
          rw [Subtype.ext hhead, ih htail hrest]

/-- The offset of an element of the array. -/
theorem offset_eq {l : List (Element n)} {i last : Nat} (hi : i = l.length) (hlast : i ≤ last)
    (hmemory : last * n < 2 ^ 64) : offset i n = (bytesOf l).length := by
  unfold offset
  rw [length_bytesOf, ← hi]
  exact Nat.mod_eq_of_lt (Nat.lt_of_le_of_lt (Nat.mul_le_mul_right n hlast) hmemory)

/-- An element of the array is read. -/
theorem readElement_bytesOf {l r : List (Element n)} {x : Element n} {start : Nat}
    (hstart : start = (bytesOf l).length) :
    readElement (bytesOf (l ++ x :: r)) start n = .ok x := by
  have hx := x.2
  unfold readElement
  rw [dif_pos (by simp [hstart, hx])]
  congr 1
  apply Subtype.ext
  simp [hstart, hx]

/-! ## Swapping -/

/-- It does not matter which of two bytes comes first. -/
theorem swapByte_comm (a b : Nat) : swapByte a b = swapByte b a := by
  funext mem i
  unfold swapByte readCell writeCell
  cases hx : mem[a + i]? with
  | none => cases mem[b + i]? <;> rfl
  | some x =>
      cases hy : mem[b + i]? with
      | none => rfl
      | some y =>
          obtain ⟨hlta, hxa⟩ := List.getElem?_eq_some_iff.mp hx
          obtain ⟨hltb, hyb⟩ := List.getElem?_eq_some_iff.mp hy
          simp only [ok_bind, hlta, hltb, if_true, List.length_set]
          by_cases hab : a = b
          case pos => grind
          case neg => rw [List.set_comm _ _ (by omega)]

theorem swapBytes_comm (mem : List UInt8) (a b : Nat) :
    swapBytes mem a b n = swapBytes mem b a n := by
  unfold swapBytes
  rw [swapByte_comm]
  by_cases hab : a = b
  case pos => rw [if_pos hab, if_pos hab.symm]
  case neg => rw [if_neg hab, if_neg (Ne.symm hab)]

/-- One byte goes to the other place, and the other comes back. -/
theorem swapByte_split {p m r : List UInt8} {x y : UInt8} {a b i : Nat} (ha : a + i = p.length)
    (hb : b + i = p.length + (m.length + 1)) :
    swapByte a b (p ++ x :: (m ++ y :: r)) i = .ok (p ++ y :: (m ++ x :: r)) := by
  have hread : readCell (p ++ x :: (m ++ y :: r)) (b + i) = .ok y := by
    have hsplit := readCell_split (l := p ++ x :: m) (r := r) y (i := b + i) (by simp [hb])
    simpa using hsplit
  have hwrite : writeCell (p ++ y :: (m ++ y :: r)) (b + i) x = .ok (p ++ y :: (m ++ x :: r)) := by
    have hsplit := writeCell_split (l := p ++ y :: m) (r := r) y x (i := b + i) (by simp [hb])
    simpa using hsplit
  unfold swapByte
  rw [readCell_split x ha, ok_bind, hread, ok_bind, writeCell_split x y ha, ok_bind, hwrite]

/-- The loop swaps as many bytes as it has passes. -/
theorem foldlM_swapByte {p q r u v : List UInt8} {a b i : Nat} (hlength : u.length = v.length)
    (ha : a + i = p.length) (hb : b + i = p.length + (u.length + q.length)) :
    (List.range' i u.length).foldlM (swapByte a b) (p ++ (u ++ (q ++ (v ++ r)))) =
      .ok (p ++ (v ++ (q ++ (u ++ r)))) := by
  induction u generalizing p q v i with
  | nil =>
      rw [List.length_eq_zero_iff.mp hlength.symm]
      rfl
  | cons x u ih =>
      cases v with
      | nil => simp at hlength
      | cons y v =>
          have hstep : swapByte a b (p ++ x :: (u ++ q ++ y :: (v ++ r))) i =
              .ok (p ++ y :: (u ++ q ++ x :: (v ++ r))) := by
            apply swapByte_split ha
            simp only [List.length_cons, List.length_append] at hb ⊢
            omega
          have hrest := ih (p := p ++ [y]) (q := q ++ [x]) (v := v) (i := i + 1)
            (by simpa using hlength) (by simp; omega) (by simp at hb ⊢; omega)
          rw [List.length_cons, List.range'_succ, List.foldlM_cons]
          simp only [List.cons_append, List.append_assoc, List.nil_append] at hstep hrest ⊢
          rw [hstep, ok_bind, hrest]

/-- Two elements change their places. -/
theorem swapBytes_elements {l m r : List (Element n)} {x y : Element n} {i j : Nat}
    (hi : i = l.length) (hj : j = l.length + (m.length + 1)) (hn : 0 < n)
    (hmemory : j * n < 2 ^ 64) :
    swapBytes (bytesOf (l ++ x :: (m ++ y :: r))) (offset i n) (offset j n) n =
      .ok (bytesOf (l ++ y :: (m ++ x :: r))) := by
  have hx := x.2
  have hy := y.2
  have ha : offset i n = (bytesOf l).length := offset_eq hi (by omega) hmemory
  have hb : offset j n = (bytesOf (l ++ x :: m)).length :=
    offset_eq (by simp [hj]) (Nat.le_refl j) hmemory
  have hlength : (bytesOf (l ++ x :: m)).length =
      (bytesOf l).length + (x.val.length + (bytesOf m).length) := by
    simp
  have hloop := foldlM_swapByte (p := bytesOf l) (q := bytesOf m) (r := bytesOf r)
    (u := x.val) (v := y.val) (a := offset i n) (b := offset j n) (i := 0) (by omega) ha
    (by omega)
  unfold swapBytes
  rw [if_neg (by omega)]
  simp only [bytesOf_append, bytesOf_cons]
  rw [← hloop, hx]

/-- An element changes its place with itself. -/
theorem swapBytes_self (mem : List UInt8) (a : Nat) : swapBytes mem a a n = .ok mem :=
  if_pos rfl

/-- An element goes before a block of others, one of which takes its place. -/
theorem exists_swapBytes_front {l m r : List (Element n)} {x : Element n} {i j : Nat}
    (hi : i = l.length) (hj : j = l.length + m.length) (hn : 0 < n) (hmemory : j * n < 2 ^ 64) :
    ∃ m', swapBytes (bytesOf (l ++ (m ++ x :: r))) (offset i n) (offset j n) n =
        .ok (bytesOf (l ++ x :: (m' ++ r))) ∧ m'.Perm m := by
  cases m with
  | nil =>
      have hij : i = j := by simp [hi, hj]
      rw [hij, swapBytes_self]
      exact ⟨[], rfl, .refl _⟩
  | cons y m =>
      have hswap := swapBytes_elements (l := l) (m := m) (r := r) (x := y) (y := x) hi hj hn hmemory
      refine ⟨m ++ [y], ?_, List.perm_append_singleton y m⟩
      simpa using hswap

/-! ## Partition -/

variable {C : Comparator (Element n)} {l m s r : List (Element n)} {x p : Element n}
  {i right : Nat}

/-- A pass reads the current element and the pivot. -/
theorem partitionPass_eq (hi : i = l.length + m.length)
    (hright : right = i + (s.length + 1)) (hmemory : right * n < 2 ^ 64) (store : Nat) :
    partitionPass C.cmp right (bytesOf (l ++ (m ++ x :: (s ++ p :: r))), store) i =
      if C.cmp x p < 0 then do
        let mem ← swapBytes (bytesOf (l ++ (m ++ x :: (s ++ p :: r)))) (offset i n)
          (offset store n) n
        .ok (mem, (store + 1) % 2 ^ 64)
      else .ok (bytesOf (l ++ (m ++ x :: (s ++ p :: r))), store) := by
  have hcurrent : readElement (bytesOf (l ++ (m ++ x :: (s ++ p :: r))))
      (offset i n) n = .ok x := by
    rw [← List.append_assoc l]
    apply readElement_bytesOf
    exact offset_eq (by simp [hi]) (by omega) hmemory
  have hpivot : readElement (bytesOf (l ++ (m ++ x :: (s ++ p :: r))))
      (offset right n) n = .ok p := by
    have hread := readElement_bytesOf (l := l ++ (m ++ x :: s)) (r := r) (x := p)
      (offset_eq (by simp; omega) (Nat.le_refl right) hmemory)
    simpa using hread
  unfold partitionPass
  rw [hcurrent, ok_bind, hpivot, ok_bind]

/-- An element below the pivot goes before those that are not. -/
theorem exists_partitionPass_low (hn : 0 < n) (hi : i = l.length + m.length)
    (hright : right = i + (s.length + 1)) (hmemory : right * n < 2 ^ 64)
    (hx : C.cmp x p < 0) :
    ∃ m', partitionPass C.cmp right
          (bytesOf (l ++ (m ++ x :: (s ++ p :: r))), l.length) i =
        .ok (bytesOf (l ++ x :: (m' ++ (s ++ p :: r))), l.length + 1) ∧
      m'.Perm m := by
  have hi_mul : i * n ≤ right * n := Nat.mul_le_mul_right n (by omega)
  have hright_mul : right * 1 ≤ right * n := Nat.mul_le_mul_left right hn
  obtain ⟨m', hswap, hperm⟩ := exists_swapBytes_front (r := s ++ p :: r) (x := x)
    (i := l.length) rfl hi hn (by omega)
  refine ⟨m', ?_, hperm⟩
  rw [partitionPass_eq hi hright hmemory, if_pos hx, swapBytes_comm, hswap, ok_bind,
    Nat.mod_eq_of_lt (by omega)]

/-- The passes of `Partition` bring what is below the pivot to the front. -/
theorem exists_foldlM_partitionPass (hn : 0 < n) (hi : i = l.length + m.length)
    (hright : right = i + s.length) (hmemory : right * n < 2 ^ 64)
    (hhighs : ∀ y ∈ m, 0 ≤ C.cmp y p) :
    ∃ lows m',
      (List.range' i s.length).foldlM (partitionPass C.cmp right)
          (bytesOf (l ++ (m ++ (s ++ p :: r))), l.length) =
        .ok (bytesOf (l ++ (lows ++ (m' ++ p :: r))), l.length + lows.length) ∧
      (lows ++ m').Perm (m ++ s) ∧ (∀ y ∈ lows, C.cmp y p < 0) ∧
      ∀ y ∈ m', 0 ≤ C.cmp y p := by
  induction s generalizing l m i with
  | nil => exact ⟨[], m, rfl, by simp, by simp, hhighs⟩
  | cons x s ih =>
      rw [List.length_cons, List.range'_succ, List.foldlM_cons]
      rw [List.length_cons] at hright
      by_cases hx : C.cmp x p < 0
      case pos =>
        obtain ⟨m', hpass, hperm⟩ := exists_partitionPass_low hn hi hright hmemory hx
        have hlength := hperm.length_eq
        obtain ⟨lows, m'', hloop, hperm', hlows, hhighs''⟩ :=
          ih (l := l ++ [x]) (m := m') (i := i + 1) (by simp; omega) (by omega)
            fun y hy => hhighs y (hperm.mem_iff.mp hy)
        refine ⟨x :: lows, m'', ?_, ?_, ?_, hhighs''⟩
        · rw [List.cons_append, hpass, ok_bind]
          simpa [Nat.add_assoc, Nat.add_comm 1] using hloop
        · have hrest := (hperm'.trans (hperm.append_right s)).cons x
          exact hrest.trans List.perm_middle.symm
        · simpa using ⟨hx, hlows⟩
      case neg =>
        have hpass : partitionPass C.cmp right
            (bytesOf (l ++ (m ++ x :: (s ++ p :: r))), l.length) i =
              .ok (bytesOf (l ++ (m ++ x :: (s ++ p :: r))), l.length) := by
          rw [partitionPass_eq hi hright hmemory, if_neg hx]
        obtain ⟨lows, m', hloop, hperm, hlows, hhighs'⟩ :=
          ih (l := l) (m := m ++ [x]) (i := i + 1) (by simp; omega) (by omega)
            (forall_mem_concat hhighs (Int.not_lt.mp hx))
        refine ⟨lows, m', ?_, by simpa using hperm, hlows, hhighs'⟩
        rw [List.cons_append, hpass, ok_bind]
        simpa using hloop

/-- `Partition` puts the pivot between what is below it and what is not. -/
theorem exists_partition (hn : 0 < n) (hright : right = l.length + s.length)
    (hmemory : right * n < 2 ^ 64) :
    ∃ lows m', partition C.cmp (bytesOf (l ++ (s ++ p :: r))) l.length right =
        .ok (bytesOf (l ++ (lows ++ p :: (m' ++ r))), l.length + lows.length) ∧
      (lows ++ m').Perm s ∧ (∀ y ∈ lows, C.cmp y p < 0) ∧
      ∀ y ∈ m', 0 ≤ C.cmp y p := by
  obtain ⟨lows, m, hloop, hperm, hlows, hhighs⟩ :=
    exists_foldlM_partitionPass (C := C) (l := l) (m := []) (s := s) (r := r)
      (p := p) (i := l.length) hn rfl hright hmemory (by simp)
  have hlength := hperm.length_eq
  obtain ⟨m', hswap, hperm'⟩ := exists_swapBytes_front (l := l ++ lows) (m := m) (r := r)
    (x := p) (i := l.length + lows.length) (j := right) (by simp) (by simp at hlength ⊢; omega)
    hn hmemory
  refine ⟨lows, m', ?_, (hperm'.append_left lows).trans hperm, hlows,
    fun y hy => hhighs y (hperm'.mem_iff.mp hy)⟩
  have hpasses : right - l.length = s.length := by omega
  unfold partition
  rw [hpasses]
  simp only [List.append_assoc] at hswap
  rw [List.nil_append] at hloop
  rw [hloop, ok_bind]
  dsimp only
  rw [hswap, ok_bind]

/-! ## The recursion -/

/-- The call for the part before the pivot, left out when the pivot comes first. -/
theorem exists_lower_call {m : List (Element n)}
    (hsort : ∀ {left right : Nat} {l r : List (Element n)}, left = l.length →
      right + 1 = l.length + m.length → (right + 1) * n < 2 ^ 64 →
        ∃ m', m'.Perm m ∧ C.Ordered m' ∧ ∀ fuel, m.length < fuel →
          quickSortRec C.cmp fuel (bytesOf (l ++ (m ++ r))) left right =
            .ok (bytesOf (l ++ (m' ++ r))))
    (hmemory : (l.length + m.length) * n < 2 ^ 64) :
    ∃ m', m'.Perm m ∧ C.Ordered m' ∧ ∀ fuel, m.length < fuel →
      (if 0 < l.length + m.length then
          quickSortRec C.cmp fuel (bytesOf (l ++ (m ++ r))) l.length (l.length + m.length - 1)
        else .ok (bytesOf (l ++ (m ++ r)))) = .ok (bytesOf (l ++ (m' ++ r))) := by
  by_cases hpos : 0 < l.length + m.length
  case pos =>
    simp only [if_pos hpos]
    have hpred : l.length + m.length - 1 + 1 = l.length + m.length := by omega
    exact hsort rfl hpred (by rwa [hpred])
  case neg =>
    simp only [if_neg hpos]
    exact ⟨m, .refl _, Comparator.ordered_of_length_le_one (by omega), fun _ _ => rfl⟩

/-- The recursion sorts the elements between its two bounds and leaves the others. -/
theorem exists_quickSortRec (hn : 0 < n) {left : Nat} {l m r : List (Element n)}
    (hleft : left = l.length) (hright : right + 1 = l.length + m.length)
    (hmemory : (right + 1) * n < 2 ^ 64) :
    ∃ m', m'.Perm m ∧ C.Ordered m' ∧ ∀ fuel, m.length < fuel →
      quickSortRec C.cmp fuel (bytesOf (l ++ (m ++ r))) left right =
        .ok (bytesOf (l ++ (m' ++ r))) := by
  -- the parts on both sides of the pivot are shorter than the whole
  induction hm : m.length using Nat.strongRecOn generalizing left right l m r with
  | ind k ih =>
  subst hm
  by_cases hle : right ≤ left
  case pos =>
    refine ⟨m, .refl _, Comparator.ordered_of_length_le_one (by omega), fun fuel hfuel => ?_⟩
    obtain ⟨fuel, rfl⟩ := Nat.exists_eq_add_of_lt hfuel
    unfold quickSortRec
    rw [if_pos hle]
  case neg =>
    have hmul : right * n ≤ (right + 1) * n := Nat.mul_le_mul_right n (by omega)
    have hword : (right + 1) * 1 ≤ (right + 1) * n := Nat.mul_le_mul_left (right + 1) hn
    have hne : m ≠ [] := List.ne_nil_of_length_pos (by omega)
    obtain ⟨rest, pivot, rfl⟩ : ∃ rest pivot, m = rest ++ [pivot] :=
      ⟨m.dropLast, m.getLast hne, (List.dropLast_append_getLast hne).symm⟩
    rw [List.length_append, List.length_singleton] at hright ih
    obtain ⟨lows, highs, hpartition, hperm, hlows, hhighs⟩ :=
      exists_partition (C := C) (l := l) (s := rest) (r := r) (p := pivot) hn
        (show right = l.length + rest.length by omega) (by omega)
    have hlength := hperm.length_eq
    rw [List.length_append] at hlength
    have hlower_mul : (l.length + lows.length) * n ≤ right * n :=
      Nat.mul_le_mul_right n (by omega)
    obtain ⟨lows', hlowsPerm, hlowsOrdered, hlower⟩ :=
      exists_lower_call (C := C) (l := l) (m := lows) (r := pivot :: (highs ++ r))
        (fun hl hr hmem => ih lows.length (by omega) hl hr hmem rfl) (by omega)
    have hlowsLength := hlowsPerm.length_eq
    have hupperLeft : l.length + lows.length + 1 = (l ++ (lows' ++ [pivot])).length := by
      simp only [List.length_append, List.length_singleton]
      omega
    have hupperRight : right + 1 = (l ++ (lows' ++ [pivot])).length + highs.length := by omega
    obtain ⟨highs', hhighsPerm, hhighsOrdered, hupper⟩ :=
      ih highs.length (by omega) (r := r) hupperLeft hupperRight hmemory rfl
    refine ⟨lows' ++ pivot :: highs', ?_, ?_, fun fuel hfuel => ?_⟩
    · have hparts := List.perm_middle.trans ((hlowsPerm.append hhighsPerm).cons pivot)
      exact hparts.trans ((hperm.cons pivot).trans (List.perm_append_singleton pivot rest).symm)
    · apply hlowsOrdered.append_cons hhighsOrdered
      · exact fun y hy => Int.le_of_lt (hlows y (hlowsPerm.mem_iff.mp hy))
      · exact fun y hy => C.le_swap.mpr (hhighs y (hhighsPerm.mem_iff.mp hy))
    · subst hleft
      rw [List.length_append, List.length_singleton] at hfuel
      obtain ⟨fuel, rfl⟩ : ∃ k, fuel = k + 1 := ⟨fuel - 1, by omega⟩
      unfold quickSortRec
      rw [if_neg hle, List.append_assoc rest, List.singleton_append, hpartition, ok_bind]
      dsimp only
      rw [hlower fuel (by omega), ok_bind, Nat.mod_eq_of_lt (by omega)]
      simpa using hupper fuel (by omega)

end Bytes

/-! ## The whole array -/

namespace ElementArray

variable (arr : ElementArray) (C : Comparator (Element arr.elemSize))

/-- `QuickSort` ends, stays within the array and leaves its elements in order. -/
def SortedByQuickSort : Prop :=
  ∃ sorted : List (Element arr.elemSize), sorted.Perm arr.elements ∧ C.Ordered sorted ∧
    ∃ depth, ∀ fuel, depth ≤ fuel →
      quickSort C.cmp fuel (bytesOf arr.elements) arr.elements.length = .ok (bytesOf sorted)

variable {arr C}

/-- Two elements are left as they are. -/
theorem quickSort_pair {x y : Element arr.elemSize} (hpair : arr.elements = [x, y]) (fuel : Nat) :
    quickSort C.cmp fuel (bytesOf arr.elements) arr.elements.length =
      .ok (bytesOf arr.elements) := by
  unfold quickSort
  rw [if_pos (Or.inl (by simp [hpair]))]

/-- At least three elements are sorted. -/
theorem sortedByQuickSort_of_two_lt (hlength : 2 < arr.elements.length) :
    arr.SortedByQuickSort C := by
  have hn := arr.elemSize_pos
  have hlast : arr.elements.length - 1 + 1 = arr.elements.length := by omega
  obtain ⟨sorted, hperm, hordered, hrec⟩ := exists_quickSortRec (C := C) (l := [])
    (m := arr.elements) (r := []) hn rfl (by simpa using hlast)
    (by rw [hlast]; exact arr.inMemory)
  refine ⟨sorted, hperm, hordered, arr.elements.length + 1, fun fuel hfuel => ?_⟩
  unfold quickSort
  rw [if_neg (by omega)]
  simpa using hrec fuel hfuel

/-- An array is sorted except when it has two elements that stand in the wrong order. -/
theorem sortedByQuickSort_iff :
    arr.SortedByQuickSort C ↔ ∀ x y, arr.elements = [x, y] → C.cmp x y ≤ 0 := by
  constructor
  · rintro ⟨sorted, -, hordered, depth, hrun⟩ x y hpair
    have hsame := hrun depth (Nat.le_refl depth)
    rw [quickSort_pair hpair] at hsame
    obtain rfl := bytesOf_injective arr.elemSize_pos (Except.ok.inj hsame)
    rw [hpair] at hordered
    exact List.rel_of_pairwise_cons hordered List.mem_cons_self
  · intro hpair
    by_cases hlength : 2 < arr.elements.length
    case pos => exact sortedByQuickSort_of_two_lt hlength
    case neg =>
      refine ⟨arr.elements, .refl _, ?_, 0, fun fuel _ => ?_⟩
      · match helements : arr.elements with
        | [] => exact .nil
        | [x] => exact List.pairwise_singleton _ x
        | [x, y] => exact List.pairwise_pair.mpr (hpair x y helements)
        | x :: y :: z :: rest => simp [helements] at hlength
      · unfold quickSort
        rw [if_pos (Or.inl (by omega))]

/-- Two bytes, the greater one first. -/
def descendingPair : ElementArray where
  elemSize := 1
  elements := [⟨[2], rfl⟩, ⟨[1], rfl⟩]
  elemSize_pos := by decide
  inMemory := by decide

/-- One-byte elements in the order of their bytes. -/
def byteOrder : Comparator (Element 1) :=
  natural.comap fun x => (x.val.headD 0).toNat

/-- The two bytes are not sorted. -/
theorem descendingPair_not_sorted : ¬ descendingPair.SortedByQuickSort byteOrder := by
  rintro ⟨sorted, -, hordered, depth, hrun⟩
  have hleft : quickSort byteOrder.cmp depth (bytesOf descendingPair.elements)
      descendingPair.elements.length = .ok (bytesOf descendingPair.elements) := rfl
  have hsame := hleft.symm.trans (hrun depth (Nat.le_refl depth))
  obtain rfl := bytesOf_injective descendingPair.elemSize_pos (Except.ok.inj hsame)
  revert hordered
  unfold Comparator.Ordered
  decide

end ElementArray

end Sorting
end InfinityLabs
