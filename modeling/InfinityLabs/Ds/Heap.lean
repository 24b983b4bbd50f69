import InfinityLabs.Lib.BinaryHeap
import Mathlib.Tactic.Common

/-!
# The binary heap

`ds/src/heap.c`.  The vector of a heap is the array of its elements: `VectorPushBack`,
where its allocation succeeds, is `Array.push`, and `VectorPopBack` is `Array.pop`.  Every
access stands with the proof that it is inside the vector.  A failed assertion is `none`.
-/

namespace InfinityLabs
namespace Ds

open Lib.BinaryHeap

/-- A `heap_t`. -/
structure Heap (α : Type) where
  compare : α → α → Int
  vector : Array α

variable {α β : Type}

/-! ## Repairing the order -/

section

variable (compare : α → α → Int)

/-- `LargerChild`. -/
def largerChild (v : Array α) (parentIdx : Nat) : Nat :=
  if hleft : v.size ≤ left parentIdx then parentIdx
  else if hright : v.size ≤ right parentIdx then left parentIdx
  else if compare v[right parentIdx] v[left parentIdx] > 0 then right parentIdx
  else left parentIdx

/-- The larger child of a place with children is one of them. -/
theorem isChild_largerChild {v : Array α} {idx : Nat} (hleft : left idx < v.size) :
    IsChild idx (largerChild compare v idx) := by
  rw [isChild_iff, largerChild, dif_neg (Nat.not_le.mpr hleft)]
  split
  · exact Or.inl rfl
  · split
    · exact Or.inr rfl
    · exact Or.inl rfl

/-- The larger child of a place with children is inside the vector. -/
theorem largerChild_lt {v : Array α} {idx : Nat} (hleft : left idx < v.size) :
    largerChild compare v idx < v.size := by
  rw [largerChild, dif_neg (Nat.not_le.mpr hleft)]
  split
  · exact hleft
  · rename_i hright
    split
    · exact Nat.not_le.mp hright
    · exact hleft

/-- `HeapifyUp`. -/
def heapifyUp (v : Array α) (idx : Nat) (hidx : idx < v.size) : Array α :=
  if hpos : 0 < idx then
    have hparent : parent idx < v.size := Nat.lt_trans (isChild_parent hpos).lt hidx
    if compare v[idx] v[parent idx] > 0 then
      heapifyUp (v.swap idx (parent idx)) (parent idx) (by rwa [Array.size_swap])
    else v
  else v
termination_by idx
decreasing_by exact (isChild_parent hpos).lt

/-- `HeapifyDown`. -/
def heapifyDown (v : Array α) (idx : Nat) (hidx : idx < v.size) : Array α :=
  if hleft : left idx < v.size then
    have hlarger : largerChild compare v idx < v.size := largerChild_lt compare hleft
    if compare v[largerChild compare v idx] v[idx] > 0 then
      heapifyDown (v.swap idx (largerChild compare v idx)) (largerChild compare v idx)
        (by rwa [Array.size_swap])
    else v
  else v
termination_by v.size - idx
decreasing_by
  rw [Array.size_swap]
  exact Nat.sub_lt_sub_left hidx (isChild_largerChild compare hleft).lt

/-- The test of `HeapRemove` for the direction: `i` has a parent, and is above it. -/
def aboveParent (v : Array α) (i : Nat) (hi : i < v.size) : Bool :=
  if hpos : 0 < i then
    have hparent : parent i < v.size := Nat.lt_trans (isChild_parent hpos).lt hi
    decide (compare v[i] v[parent i] > 0)
  else false

end

/-! ## The operations -/

/-- `HeapCreate`. -/
def heapCreate (compare : α → α → Int) : Heap α := ⟨compare, #[]⟩

/-- `HeapIsEmpty`. -/
def heapIsEmpty (heap : Heap α) : Bool := heap.vector.size == 0

/-- `HeapSize`. -/
def heapSize (heap : Heap α) : Nat := heap.vector.size

/-- `HeapPeek`. -/
def heapPeek (heap : Heap α) : Option α := heap.vector[0]?

/-- `HeapPush`, where `VectorPushBack` returns 0. -/
def heapPush (heap : Heap α) (data : α) : Heap α :=
  let vector := heap.vector.push data
  { heap with vector := heapifyUp heap.compare vector (vector.size - 1) (by simp [vector]) }

/-- `HeapPop`. -/
def heapPop (heap : Heap α) : Option (Heap α) :=
  if hsize : 0 < heap.vector.size then
    let vector := (heap.vector.swap 0 (heap.vector.size - 1)).pop
    some { heap with
      vector := if hpos : 0 < vector.size then heapifyDown heap.compare vector 0 hpos
        else vector }
  else none

/-- The body of the loop of `HeapRemove` at the match `i`. -/
def removeAt (heap : Heap α) (i : Nat) (hi : i < heap.vector.size) : Heap α :=
  if hlast : i = heap.vector.size - 1 then { heap with vector := heap.vector.pop }
  else
    let vector := (heap.vector.swap i (heap.vector.size - 1)).pop
    have hi : i < vector.size := by
      simp only [vector, Array.size_pop, Array.size_swap]
      omega
    { heap with
      vector := if aboveParent heap.compare vector i hi then
          heapifyUp heap.compare vector i hi
        else heapifyDown heap.compare vector i hi }

/-- `HeapRemove`: the first element for which `is_match` returns 0. -/
def heapRemove (heap : Heap α) (data : β) (isMatch : α → β → Int) : Heap α × Option α :=
  match heap.vector.findFinIdx? fun elem => isMatch elem data == 0 with
  | none => (heap, none)
  | some i => (removeAt heap i i.isLt, some heap.vector[i])

/-!
## The operations keep the heap

`HeapifyUp` and `HeapifyDown` each end with the order restored, from the order around the
place that they start at, and only exchange elements.  Each operation of the heap follows
with its effect on the elements.
-/

open Lib Lib.BinaryHeap

variable {C : Comparator α}

/-! ## Repairing the order -/

/-- `HeapifyUp` keeps the elements. -/
theorem heapifyUp_perm (compare : α → α → Int) (v : Array α) (idx : Nat) (hidx : idx < v.size) :
    (heapifyUp compare v idx hidx).Perm v := by
  induction v, idx, hidx using heapifyUp.induct compare with
  | case1 v idx hidx hpos hparent habove ih =>
      rw [heapifyUp, dif_pos hpos, if_pos habove]
      exact ih.trans (Array.swap_perm hidx hparent)
  | case2 v idx hidx hpos hparent hnot =>
      rw [heapifyUp, dif_pos hpos, if_neg hnot]
  | case3 v idx hidx hzero =>
      rw [heapifyUp, dif_neg hzero]

/-- **`HeapifyUp` restores the order.** -/
theorem heapifyUp_order {v : Array α} {idx : Nat} (hidx : idx < v.size)
    (h : UpOrder C v idx) : HeapOrder C (heapifyUp C.cmp v idx hidx) := by
  induction v, idx, hidx using heapifyUp.induct C.cmp with
  | case1 v idx hidx hpos hparent habove ih =>
      rw [heapifyUp, dif_pos hpos, if_pos habove]
      apply ih
      apply h.swap (isChild_parent hpos) hidx hparent
      rw [leAt_iff hparent hidx, C.le_swap]
      exact Int.le_of_lt habove
  | case2 v idx hidx hpos hparent hnot =>
      rw [heapifyUp, dif_pos hpos, if_neg hnot]
      apply h.heapOrder
      rintro p ⟨-, rfl⟩
      rw [leAt_iff hidx hparent]
      exact Int.not_lt.mp hnot
  | case3 v idx hidx hzero =>
      rw [heapifyUp, dif_neg hzero]
      exact h.heapOrder fun p hp => absurd hp.1 hzero

/-- No child is above the larger child. -/
theorem leAt_largerChild {v : Array α} {idx : Nat} (hleft : left idx < v.size) {d : Nat}
    (hd : IsChild idx d) : LeAt C v d (largerChild C.cmp v idx) := by
  rw [largerChild, dif_neg (Nat.not_le.mpr hleft)]
  rcases isChild_iff.mp hd with rfl | rfl
  · split
    · exact leAt_refl _
    · rename_i hright
      split
      · rename_i habove
        rw [leAt_iff hleft (Nat.not_le.mp hright), C.le_swap]
        exact Int.le_of_lt habove
      · exact leAt_refl _
  · split
    · rename_i hright
      exact leAt_of_size_le hright _
    · rename_i hright
      have hright := Nat.not_le.mp hright
      split
      · exact leAt_refl _
      · rename_i hnot
        rw [leAt_iff hright hleft]
        exact Int.not_lt.mp hnot

/-- `HeapifyDown` keeps the elements. -/
theorem heapifyDown_perm (compare : α → α → Int) (v : Array α) (idx : Nat)
    (hidx : idx < v.size) : (heapifyDown compare v idx hidx).Perm v := by
  induction v, idx, hidx using heapifyDown.induct compare with
  | case1 v idx hidx hleft hlarger habove ih =>
      rw [heapifyDown, dif_pos hleft, if_pos habove]
      exact ih.trans (Array.swap_perm hidx hlarger)
  | case2 v idx hidx hleft hlarger hnot =>
      rw [heapifyDown, dif_pos hleft, if_neg hnot]
  | case3 v idx hidx hleaf =>
      rw [heapifyDown, dif_neg hleaf]

/-- **`HeapifyDown` restores the order.** -/
theorem heapifyDown_order {v : Array α} {idx : Nat} (hidx : idx < v.size)
    (h : DownOrder C v idx) : HeapOrder C (heapifyDown C.cmp v idx hidx) := by
  induction v, idx, hidx using heapifyDown.induct C.cmp with
  | case1 v idx hidx hleft hlarger habove ih =>
      rw [heapifyDown, dif_pos hleft, if_pos habove]
      apply ih
      apply h.swap (isChild_largerChild C.cmp hleft) hidx hlarger
      · exact fun d hd => leAt_largerChild hleft hd
      · rw [leAt_iff hidx hlarger, C.le_swap]
        exact Int.le_of_lt habove
  | case2 v idx hidx hleft hlarger hnot =>
      rw [heapifyDown, dif_pos hleft, if_neg hnot]
      apply h.heapOrder
      intro c hc
      apply (leAt_largerChild hleft hc).trans _ hlarger
      rw [leAt_iff hlarger hidx]
      exact Int.not_lt.mp hnot
  | case3 v idx hidx hleaf =>
      rw [heapifyDown, dif_neg hleaf]
      apply h.heapOrder
      intro c hc
      have hbehind : v.size ≤ c := by
        rcases isChild_iff.mp hc with rfl | rfl <;> simp only [left, right] at * <;> omega
      exact leAt_of_size_le hbehind _

/-! ## Taking an element out -/

/-- After the last element has taken the place of another one, every other place has what
it had, or nothing. -/
theorem mem_pop_swap {v : Array α} {i last : Nat} (hi : i < v.size) (hlast : last < v.size)
    (hend : last = v.size - 1) {j : Nat} (hj : j ≠ i) {x : α}
    (hx : x ∈ ((v.swap i last).pop)[j]?) : x ∈ v[j]? := by
  rw [Array.getElem?_pop, Array.size_swap] at hx
  split at hx
  · rename_i hlt
    rwa [getElem?_swap_apply hi hlast, Equiv.swap_apply_of_ne_of_ne hj (by omega)] at hx
  · cases hx

/-- An array without its last element. -/
theorem perm_pop {v : Array α} {last : Nat} (hlast : last < v.size) (hend : last = v.size - 1) :
    v.toList.Perm (v[last] :: v.pop.toList) := by
  have hne : v.toList ≠ [] := by
    intro hnil
    rw [← Array.length_toList, hnil] at hlast
    cases hlast
  have hget : v.toList.getLast hne = v[last] := by
    rw [List.getLast_eq_getElem]
    subst hend
    rfl
  calc v.toList = v.pop.toList ++ [v[last]] := by
        rw [Array.toList_pop, ← hget, List.dropLast_concat_getLast]
    _ |>.Perm (v[last] :: v.pop.toList) := List.perm_append_singleton _ _

/-- The element whose place the last one takes goes out. -/
theorem perm_pop_swap {v : Array α} {i last : Nat} (hi : i < v.size) (hlast : last < v.size)
    (hend : last = v.size - 1) :
    v.toList.Perm (v[i] :: ((v.swap i last).pop).toList) := by
  have hswap := Array.perm_iff_toList_perm.mp (Array.swap_perm hi hlast)
  have hpop := perm_pop (v := v.swap i last) (by rwa [Array.size_swap])
    (by rwa [Array.size_swap])
  rw [Array.getElem_swap_right] at hpop
  exact hswap.symm.trans hpop

/-! ## The operations -/

/-- A heap compares by `C` and is in order. -/
structure Heap.Wf (C : Comparator α) (heap : Heap α) : Prop where
  compare : heap.compare = C.cmp
  order : HeapOrder C heap.vector

/-- An empty heap is in order. -/
theorem wf_heapCreate : (heapCreate C.cmp).Wf C :=
  ⟨rfl, fun _ _ _ => leAt_of_size_le (Nat.zero_le _) _⟩

/-- `HeapPush` adds its element. -/
theorem heapPush_perm (heap : Heap α) (data : α) :
    (heapPush heap data).vector.toList.Perm (data :: heap.vector.toList) := by
  have hperm := Array.perm_iff_toList_perm.mp
    (heapifyUp_perm heap.compare (heap.vector.push data) ((heap.vector.push data).size - 1)
      (by simp))
  rw [Array.toList_push] at hperm
  exact hperm.trans (List.perm_append_singleton _ _)

/-- `HeapPush` keeps the order. -/
theorem Heap.Wf.push {heap : Heap α} (h : heap.Wf C) (data : α) : (heapPush heap data).Wf C := by
  obtain ⟨compare, v⟩ := heap
  obtain rfl : compare = C.cmp := h.compare
  refine ⟨rfl, heapifyUp_order _ ?_⟩
  have hlast : (v.push data).size - 1 = v.size := by rw [Array.size_push, Nat.add_sub_cancel]
  rw [hlast]
  -- the new place has no children, and every other one what it had
  have hbehind : ∀ c p, IsChild v.size c → LeAt C (v.push data) c p := by
    intro c p hc
    apply leAt_of_size_le
    rw [Array.size_push]
    exact hc.lt
  have hsame : ∀ j, j ≠ v.size → ∀ x ∈ (v.push data)[j]?, x ∈ v[j]? := by
    intro j hj x hx
    rwa [Array.getElem?_push, if_neg hj] at hx
  exact ⟨⟨fun p c hc hp hc' => (h.order p c hc).congr (hsame c hc') (hsame p hp),
    fun p c _ hc => hbehind c p hc⟩, fun c hc => hbehind c _ hc⟩

/-- **`HeapPeek` of a heap with elements is a maximal one.** -/
theorem Heap.Wf.peek {heap : Heap α} (h : heap.Wf C) {x : α} (hpeek : heapPeek heap = some x) :
    x ∈ heap.vector ∧ ∀ y ∈ heap.vector, C.cmp y x ≤ 0 := by
  refine ⟨Array.mem_of_getElem? hpeek, fun y hy => ?_⟩
  obtain ⟨i, hi, rfl⟩ := Array.getElem_of_mem hy
  exact h.order.le_root hi _ (Array.getElem?_eq_getElem hi) _ hpeek

/-- A heap with elements has a first one. -/
theorem heapPeek_isSome {heap : Heap α} (hsize : 0 < heap.vector.size) :
    ∃ x, heapPeek heap = some x :=
  ⟨_, Array.getElem?_eq_getElem hsize⟩

/-- `HeapPop` takes out the element that `HeapPeek` returns, and keeps the order. -/
theorem Heap.Wf.pop {heap : Heap α} (h : heap.Wf C) {x : α} (hpeek : heapPeek heap = some x) :
    ∃ heap', heapPop heap = some heap' ∧ heap'.Wf C ∧
      heap.vector.toList.Perm (x :: heap'.vector.toList) := by
  obtain ⟨compare, v⟩ := heap
  obtain rfl : compare = C.cmp := h.compare
  have hsize : 0 < v.size := by
    by_contra hnone
    rw [heapPeek, Array.getElem?_eq_none (Nat.not_lt.mp hnone)] at hpeek
    cases hpeek
  have hlast : v.size - 1 < v.size := Nat.sub_lt hsize Nat.one_pos
  have hx : v[0] = x := Option.some.inj ((Array.getElem?_eq_getElem hsize).symm.trans hpeek)
  have hperm := perm_pop_swap hsize hlast rfl
  rw [hx] at hperm
  refine ⟨_, by rw [heapPop, dif_pos hsize], ⟨rfl, ?_⟩, hperm.trans (List.Perm.cons x ?_)⟩
  · split
    · rename_i hpos
      apply heapifyDown_order
      exact ⟨h.order.around hsize fun j hj y hy => mem_pop_swap hsize hlast rfl hj hy,
        fun p hp => absurd hp.1 (Nat.lt_irrefl 0)⟩
    · rename_i hnone
      exact fun p c _ => leAt_of_size_le (Nat.le_trans (Nat.not_lt.mp hnone) (Nat.zero_le c)) p
  · split
    · exact (Array.perm_iff_toList_perm.mp (heapifyDown_perm _ _ _ _)).symm
    · exact List.Perm.refl _

/-- The test for the direction, in terms of the order. -/
theorem aboveParent_eq_true {v : Array α} {i : Nat} (hi : i < v.size) :
    aboveParent C.cmp v i hi = true ↔ ∃ p, IsChild p i ∧ ¬ LeAt C v i p := by
  rw [aboveParent]
  split
  · rename_i hpos
    have hchild := isChild_parent hpos
    have hparent : parent i < v.size := Nat.lt_trans hchild.lt hi
    rw [decide_eq_true_eq]
    constructor
    · intro habove
      refine ⟨parent i, hchild, fun hle => ?_⟩
      rw [leAt_iff hi hparent] at hle
      exact absurd habove (Int.not_lt.mpr hle)
    · rintro ⟨p, hp, hle⟩
      rw [hp.unique hchild, leAt_iff hi hparent] at hle
      exact Int.not_le.mp hle
  · rename_i hzero
    apply iff_of_false (by simp)
    rintro ⟨p, hp, -⟩
    exact hzero hp.1

/-- `HeapRemove` at a match takes out the match. -/
theorem removeAt_perm (heap : Heap α) {i : Nat} (hi : i < heap.vector.size) :
    heap.vector.toList.Perm (heap.vector[i] :: (removeAt heap i hi).vector.toList) := by
  have hlast : heap.vector.size - 1 < heap.vector.size :=
    Nat.sub_lt (Nat.zero_lt_of_lt hi) Nat.one_pos
  rw [removeAt]
  split
  · rename_i hend
    exact perm_pop hi hend
  · refine (perm_pop_swap hi hlast rfl).trans (List.Perm.cons _ ?_)
    dsimp only
    split
    · exact (Array.perm_iff_toList_perm.mp (heapifyUp_perm _ _ _ _)).symm
    · exact (Array.perm_iff_toList_perm.mp (heapifyDown_perm _ _ _ _)).symm

/-- `HeapRemove` at a match keeps the order. -/
theorem Heap.Wf.removeAt {heap : Heap α} (h : heap.Wf C) {i : Nat} (hi : i < heap.vector.size) :
    (removeAt heap i hi).Wf C := by
  obtain ⟨compare, v⟩ := heap
  obtain rfl : compare = C.cmp := h.compare
  have hlast : v.size - 1 < v.size := Nat.sub_lt (Nat.zero_lt_of_lt hi) Nat.one_pos
  rw [Ds.removeAt]
  split
  · -- the last place: the others keep what they have
    refine ⟨rfl, fun p c hc => (h.order p c hc).congr ?_ ?_⟩ <;>
      · intro x hx
        rw [Array.getElem?_pop] at hx
        split at hx
        · exact hx
        · cases hx
  · rename_i hnotLast
    have hi' : i < (v.swap i (v.size - 1)).pop.size := by
      rw [Array.size_pop, Array.size_swap]
      exact Nat.lt_of_le_of_ne (Nat.le_sub_one_of_lt hi) hnotLast
    have haround := h.order.around hi fun j hj y hy => mem_pop_swap hi hlast rfl hj hy
    refine ⟨rfl, ?_⟩
    dsimp only
    split
    · rename_i habove
      obtain ⟨p, hp, hnot⟩ := (aboveParent_eq_true _).mp habove
      exact heapifyUp_order _ (haround.upOrder hi' hp hnot)
    · rename_i hnot
      apply heapifyDown_order
      refine ⟨haround, fun p hp => ?_⟩
      by_contra hle
      exact hnot ((aboveParent_eq_true _).mpr ⟨p, hp, hle⟩)

/-- What `HeapRemove` does: it takes out the first match, or nothing. -/
theorem heapRemove_cases (heap : Heap α) (data : β) (isMatch : α → β → Int) :
    ((∀ x ∈ heap.vector, isMatch x data ≠ 0) ∧ heapRemove heap data isMatch = (heap, none)) ∨
      ∃ (i : Nat) (hi : i < heap.vector.size), isMatch heap.vector[i] data = 0 ∧
        (∀ j (hj : j < i), isMatch heap.vector[j] data ≠ 0) ∧
          heapRemove heap data isMatch = (removeAt heap i hi, some heap.vector[i]) := by
  rw [heapRemove]
  cases hfind : heap.vector.findFinIdx? fun elem => isMatch elem data == 0 with
  | none =>
      rw [Array.findFinIdx?_eq_none_iff] at hfind
      exact Or.inl ⟨fun x hx => by simpa using hfind x hx, rfl⟩
  | some i =>
      obtain ⟨hmatch, hfirst⟩ := Array.findFinIdx?_eq_some_iff.mp hfind
      refine Or.inr ⟨i, i.isLt, by simpa using hmatch, fun j hj => ?_, rfl⟩
      have hj' := hfirst ⟨j, Nat.lt_trans hj i.isLt⟩ hj
      simpa using hj'

end Ds
end InfinityLabs
