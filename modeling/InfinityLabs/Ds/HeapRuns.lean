import InfinityLabs.Lib.Runs
import InfinityLabs.Ds.Heap

/-!
# The binary heap as a priority multiset

Runs of `HeapPush`, `HeapPop` and `HeapRemove` on one heap, with the elements that each
of them has put in or taken out.
-/

namespace InfinityLabs
namespace Ds

open Lib Lib.BinaryHeap

variable {α β : Type} {C : Comparator α}

/-! ## Popping until empty -/

/-- `HeapPeek` and `HeapPop` until the heap is empty, which takes at most `pops` rounds:
what comes out, and the empty heap. -/
def drain : Nat → Heap α → Option (List α × Heap α)
  | 0, heap => if heapIsEmpty heap then some ([], heap) else none
  | pops + 1, heap =>
      if heapIsEmpty heap then some ([], heap)
      else do
        let data ← heapPeek heap
        let heap ← heapPop heap
        let (rest, heap) ← drain pops heap
        some (data :: rest, heap)

/-- A heap is empty when its vector is. -/
theorem heapIsEmpty_iff {heap : Heap α} : heapIsEmpty heap = true ↔ heap.vector.size = 0 :=
  beq_iff_eq

/-- **Popping until empty** gives all elements, none of them above one before it. -/
theorem Heap.Wf.drain {heap : Heap α} (h : heap.Wf C) {pops : Nat}
    (hpops : heap.vector.size ≤ pops) :
    ∃ l empty, drain pops heap = some (l, empty) ∧ heapIsEmpty empty = true ∧ empty.Wf C ∧
      l.Perm heap.vector.toList ∧ l.Pairwise fun x y => 0 ≤ C.cmp x y := by
  induction pops generalizing heap with
  | zero =>
      have hsize := Nat.le_zero.mp hpops
      have hempty := heapIsEmpty_iff.mpr hsize
      refine ⟨[], heap, ?_, hempty, h, ?_, List.Pairwise.nil⟩
      · rw [Ds.drain, if_pos hempty]
      · rw [Array.eq_empty_of_size_eq_zero hsize]
  | succ pops ih =>
      by_cases hempty : heapIsEmpty heap = true
      · refine ⟨[], heap, ?_, hempty, h, ?_, List.Pairwise.nil⟩
        · rw [Ds.drain, if_pos hempty]
        · rw [Array.eq_empty_of_size_eq_zero (heapIsEmpty_iff.mp hempty)]
      · have hpos : 0 < heap.vector.size :=
          Nat.pos_of_ne_zero fun hsize => hempty (heapIsEmpty_iff.mpr hsize)
        obtain ⟨x, hpeek⟩ := heapPeek_isSome hpos
        obtain ⟨heap', hpop, h', hperm⟩ := h.pop hpeek
        have hlength : heap.vector.size = heap'.vector.size + 1 := by
          simpa using hperm.length_eq
        obtain ⟨l, empty, hdrain, hempty', hwf, hl, hsorted⟩ := ih h' (by omega)
        refine ⟨x :: l, empty, ?_, hempty', hwf, (hl.cons x).trans hperm.symm,
          List.Pairwise.cons ?_ hsorted⟩
        · simp [Ds.drain, hempty, hpeek, hpop, hdrain]
        · -- what follows was in the heap when `x` was its root
          intro y hy
          have hmem : y ∈ heap.vector :=
            Array.mem_toList_iff.mp (hperm.mem_iff.mpr (List.mem_cons_of_mem x (hl.mem_iff.mp hy)))
          exact C.le_swap.mp ((h.peek hpeek).2 y hmem)

/-! ## The machine -/

/-- A heap with what was pushed, popped and removed. -/
structure HeapState (α : Type) where
  heap : Heap α
  pushed : List α
  popped : List α
  removed : List α

/-- The calls that change a heap. -/
inductive HeapAction (α β : Type) where
  | push (data : α)
  | pop
  | remove (data : β) (isMatch : α → β → Int)

/-- A call.  A pop of an empty heap fails its assertion. -/
def HeapState.step (s : HeapState α) : HeapAction α β → Option (HeapState α)
  | .push data => some { s with heap := heapPush s.heap data, pushed := data :: s.pushed }
  | .pop => do
      let data ← heapPeek s.heap
      let heap ← heapPop s.heap
      some { s with heap := heap, popped := data :: s.popped }
  | .remove data isMatch =>
      match heapRemove s.heap data isMatch with
      | (heap, none) => some { s with heap := heap }
      | (heap, some x) => some { s with heap := heap, removed := x :: s.removed }

/-- The runs that start with `HeapCreate`. -/
def heapMachine (C : Comparator α) (β : Type) : Machine (HeapState α) (HeapAction α β) where
  start s := s = ⟨heapCreate C.cmp, [], [], []⟩
  step s a := s.step a

/-! ## The invariant -/

/-- The heap holds what was pushed and neither popped nor removed. -/
def HeapState.Accounted (s : HeapState α) : Prop :=
  (s.heap.vector.toList ++ s.popped ++ s.removed).Perm s.pushed

/-- A call keeps the heap and its account. -/
theorem HeapState.step_wf {s s' : HeapState α} {a : HeapAction α β} (h : s.heap.Wf C)
    (hs : s.Accounted) (hstep : s.step a = some s') : s'.heap.Wf C ∧ s'.Accounted := by
  cases a with
  | push data =>
      obtain rfl := Option.some.inj hstep
      refine ⟨h.push data, ?_⟩
      have hperm := ((heapPush_perm s.heap data).append_right s.popped).append_right s.removed
      exact hperm.trans (hs.cons data)
  | pop =>
      cases hpeek : heapPeek s.heap with
      | none =>
          rw [HeapState.step, hpeek] at hstep
          cases hstep
      | some x =>
          obtain ⟨heap', hpop, h', hperm⟩ := h.pop hpeek
          rw [HeapState.step, hpeek, hpop] at hstep
          obtain rfl := Option.some.inj hstep
          refine ⟨h', ?_⟩
          have hmiddle : (heap'.vector.toList ++ x :: s.popped).Perm
              (s.heap.vector.toList ++ s.popped) :=
            List.perm_middle.trans (hperm.append_right s.popped).symm
          exact (hmiddle.append_right s.removed).trans hs
  | remove data isMatch =>
      rw [HeapState.step] at hstep
      rcases heapRemove_cases s.heap data isMatch with ⟨-, hnone⟩ | ⟨i, hi, -, -, hsome⟩
      · rw [hnone] at hstep
        obtain rfl := Option.some.inj hstep
        exact ⟨h, hs⟩
      · rw [hsome] at hstep
        obtain rfl := Option.some.inj hstep
        refine ⟨h.removeAt hi, ?_⟩
        have hperm := (removeAt_perm s.heap hi).append_right s.popped
        exact (List.perm_middle.trans (hperm.append_right s.removed).symm).trans hs

/-- **Every reachable heap is in order and accounted for.** -/
theorem heapMachine_wf {s : HeapState α} (hreached : (heapMachine C β).Reached s) :
    s.heap.Wf C ∧ s.Accounted := by
  refine hreached.invariant (I := fun s => s.heap.Wf C ∧ s.Accounted) ?_ ?_
  · rintro s rfl
    exact ⟨wf_heapCreate, List.Perm.nil⟩
  · rintro s a s' ⟨h, hs⟩ - hstep
    exact HeapState.step_wf h hs hstep

/-! ## The priority multiset -/

/-- The heap of a state is the priority multiset of its elements. -/
structure HeapState.IsPriorityMultiset (C : Comparator α) (β : Type) (s : HeapState α) :
    Prop where
  order : HeapOrder C s.heap.vector
  contents : (s.heap.vector.toList ++ s.popped ++ s.removed).Perm s.pushed
  peek : heapIsEmpty s.heap = false → ∃ x, heapPeek s.heap = some x ∧ x ∈ s.heap.vector ∧
    ∀ y ∈ s.heap.vector, C.cmp y x ≤ 0
  removes : ∀ (data : β) (isMatch : α → β → Int),
    (∀ x ∈ s.heap.vector, isMatch x data ≠ 0) ∧
        heapRemove s.heap data isMatch = (s.heap, none) ∨
      ∃ x heap', isMatch x data = 0 ∧ heapRemove s.heap data isMatch = (heap', some x) ∧
        s.heap.vector.toList.Perm (x :: heap'.vector.toList)
  drains : ∃ l empty, drain s.heap.vector.size s.heap = some (l, empty) ∧
    heapIsEmpty empty = true ∧ l.Perm s.heap.vector.toList ∧
      l.Pairwise fun x y => 0 ≤ C.cmp x y

/-- **The binary heap is a correct priority multiset**: after every run of pushes, pops
and removals the vector is in heap order, holds exactly what was pushed and neither popped
nor removed, has a maximal element at its root, gives up a match to a removal if it has
one, and is emptied by pops in non-increasing order. -/
theorem heap_priorityMultiset (C : Comparator α) {s : HeapState α}
    (hreached : (heapMachine C β).Reached s) : s.IsPriorityMultiset C β := by
  obtain ⟨h, hs⟩ := heapMachine_wf hreached
  obtain ⟨l, empty, hdrain, hempty, -, hl, hsorted⟩ := h.drain (Nat.le_refl _)
  refine ⟨h.order, hs, fun hempty => ?_, fun data isMatch => ?_,
    ⟨l, empty, hdrain, hempty, hl, hsorted⟩⟩
  · have hpos : 0 < s.heap.vector.size := by
      apply Nat.pos_of_ne_zero
      intro hsize
      rw [heapIsEmpty_iff.mpr hsize] at hempty
      cases hempty
    obtain ⟨x, hpeek⟩ := heapPeek_isSome hpos
    exact ⟨x, hpeek, h.peek hpeek⟩
  · rcases heapRemove_cases s.heap data isMatch with hnone | ⟨i, hi, hmatch, -, hsome⟩
    · exact Or.inl hnone
    · exact Or.inr ⟨_, _, hmatch, hsome, removeAt_perm s.heap hi⟩

/-- The removal of 1 puts 8 below 3, and `HeapifyUp` lifts it. -/
theorem heap_priorityMultiset_sample :
    ∃ s : HeapState Nat, (s.heap.vector, s.popped, s.removed) = (#[9, 8, 7, 3, 2], [10], [1]) ∧
      s.IsPriorityMultiset natural Nat := by
  have hstart : (heapMachine natural Nat).Reached ⟨heapCreate natural.cmp, [], [], []⟩ :=
    .start rfl
  have hrun : ((heapMachine natural Nat).run ⟨heapCreate natural.cmp, [], [], []⟩
      [.push 10, .push 3, .push 9, .push 1, .push 2, .push 7, .push 8, .remove 1 natural.cmp,
        .pop]).map (fun s => (s.heap.vector, s.popped, s.removed)) =
          some (#[9, 8, 7, 3, 2], [10], [1]) := by decide +kernel
  obtain ⟨s, hs, hshown⟩ := hstart.run_map hrun
  exact ⟨s, hshown, heap_priorityMultiset natural hs⟩

end Ds
end InfinityLabs
