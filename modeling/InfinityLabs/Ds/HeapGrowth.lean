import InfinityLabs.Ds.Vector
import InfinityLabs.Ds.Heap

/-!
# The heap over its vector, and failed growth

`HeapPush` of `ds/src/heap.c` over `VectorPushBack`, which refines the heap over an array, and
what a failing `realloc` does to both.  A vector is destroyed by the failure, so that nothing
survives where `realloc` is called at all.
-/

namespace InfinityLabs
namespace Ds

variable {α : Type}

/-! ## The heap over its vector -/

/-- The elements below the size. -/
def Vector.elements (vector : Vector α) : Array α :=
  ((vector.buffer.take vector.size).filterMap id).toArray

/-- The elements below the size are replaced. -/
def Vector.overwrite (vector : Vector α) (elements : Array α) : Vector α :=
  { vector with buffer := elements.toList.map some ++ vector.buffer.drop vector.size }

/-- `HeapPush`, with its status. -/
def heapPushVector (compare : α → α → Int) (vector : Vector α) (realloc : Bool) (data : α) :
    Option (Option (Vector α) × Int) :=
  match vectorPushBack vector realloc data with
  | none => none
  | some (none, status) => some (none, status)
  | some (some vector, status) =>
      if status ≠ 0 then some (some vector, status)
      else if hlast : vector.elements.size - 1 < vector.elements.size then
        some (some (vector.overwrite
          (heapifyUp compare vector.elements (vector.elements.size - 1) hlast)), status)
      else none

/-- The elements of a vector are those it holds. -/
theorem Vector.Holds.elements_eq {vector : Vector α} {elements : List α}
    (h : vector.Holds elements) : vector.elements = elements.toArray := by
  rw [Vector.elements, h.written, List.filterMap_map]
  congr 1
  exact List.filterMap_some ..

/-- Other elements, as many, may be written over those of a vector. -/
theorem Vector.Holds.overwrite {vector : Vector α} {elements : List α}
    (h : vector.Holds elements) {others : Array α} (hsize : others.size = elements.length) :
    (vector.overwrite others).Holds others.toList := by
  have hlength : (others.toList.map some).length = vector.size := by
    rw [List.length_map, Array.length_toList, hsize, h.size_eq]
  refine ⟨?_, h.size_le, h.capacity_lt, ?_, ?_⟩
  · rw [Array.length_toList, hsize]
    exact h.size_eq
  · have hle := h.size_le
    show (others.toList.map some ++ vector.buffer.drop vector.size).length = vector.capacity
    rw [List.length_append, hlength, List.length_drop, h.buffer_length]
    omega
  · exact List.take_left' hlength

/-- Where its `VectorPushBack` succeeds, `HeapPush` is that of the heap over an array. -/
theorem heapPushVector_of_pushed (compare : α → α → Int) {vector pushed : Vector α}
    {elements : List α} {realloc : Bool} {data : α}
    (hpush : vectorPushBack vector realloc data = some (some pushed, 0))
    (hholds : pushed.Holds (elements ++ [data])) :
    ∃ vector', heapPushVector compare vector realloc data = some (some vector', 0) ∧
      vector'.Holds (heapPush ⟨compare, elements.toArray⟩ data).vector.toList := by
  have helements : pushed.elements = elements.toArray.push data := by
    rw [hholds.elements_eq, List.push_toArray]
  have hlast : pushed.elements.size - 1 < pushed.elements.size := by
    rw [helements, Array.size_push]
    omega
  refine ⟨pushed.overwrite (heapifyUp compare pushed.elements (pushed.elements.size - 1) hlast),
    ?_, ?_⟩
  · rw [heapPushVector, hpush]
    simp only [ne_eq, not_true, if_false, hlast, dif_pos]
  · have hsame : heapifyUp compare pushed.elements (pushed.elements.size - 1) hlast =
        (heapPush ⟨compare, elements.toArray⟩ data).vector := by
      simp only [heapPush, helements]
    rw [hsame]
    refine hholds.overwrite ?_
    have hperm := (heapPush_perm ⟨compare, elements.toArray⟩ data).length_eq
    rw [Array.length_toList] at hperm
    rw [hperm, List.length_cons, List.length_append, List.length_singleton]

/-! ## Failed growth -/

/-- The call leaves a vector: with the elements that were to be, where it returns 0, and else
with those that were. -/
def SurvivesPush (result : Option (Option (Vector α) × Int)) (elements pushed : List α) : Prop :=
  ∃ vector status, result = some (some vector, status) ∧
    (status = 0 → vector.Holds pushed) ∧ (status ≠ 0 → vector.Holds elements)

/-- The call leaves a vector without its last element. -/
def SurvivesPop (result : Option (Vector α)) (elements : List α) : Prop :=
  ∃ vector, result = some vector ∧ vector.Holds elements.dropLast

/-- A full vector is destroyed by a push whose `realloc` fails. -/
theorem vectorPushBack_of_full {vector : Vector α} (hfull : vector.size = vector.capacity)
    (element : α) : vectorPushBack vector false element = some (none, -1) := by
  rw [vectorPushBack, if_pos hfull]
  rfl

/-- A vector that is not full takes an element, whatever `realloc` would do. -/
theorem Vector.Holds.pushBack {vector : Vector α} {elements : List α} (h : vector.Holds elements)
    (hroom : vector.size ≠ vector.capacity) (realloc : Bool) (element : α) :
    ∃ pushed, vectorPushBack vector realloc element = some (some pushed, 0) ∧
      pushed.Holds (elements ++ [element]) := by
  obtain ⟨pushed, hcopy, hholds⟩ :=
    h.copyElement (Nat.lt_of_le_of_ne h.size_le hroom) element
  refine ⟨pushed, ?_, hholds⟩
  rw [vectorPushBack, if_neg hroom, hcopy, Option.map_some]

/-- A pop that shrinks the vector destroys it where `realloc` fails, and then writes its size. -/
theorem vectorPopBack_of_shrinks {vector : Vector α} (hne : vector.size ≠ 0)
    (hshrinks : vector.capacity / shrinkThresholdDivisor = vector.size) :
    vectorPopBack vector false = none := by
  rw [vectorPopBack, if_neg hne, if_pos hshrinks]
  rfl

/-- Any other pop takes the last element, whatever `realloc` would do. -/
theorem Vector.Holds.popBack {vector : Vector α} {elements : List α} (h : vector.Holds elements)
    (hne : vector.size ≠ 0) (hstays : vector.capacity / shrinkThresholdDivisor ≠ vector.size)
    (realloc : Bool) :
    ∃ popped, vectorPopBack vector realloc = some popped ∧ popped.Holds elements.dropLast := by
  refine ⟨{ vector with size := vector.size - 1 }, ?_, h.dropLast⟩
  rw [vectorPopBack, if_neg hne, if_neg hstays]

/-- Where `realloc` fails if it is called, `VectorPushBack`, `HeapPush` and `VectorPopBack`
leave a usable vector exactly where they do not call it. -/
theorem failedGrowth_survives_iff {vector : Vector α} {elements : List α}
    (h : vector.Holds elements) :
    (∀ element, SurvivesPush (vectorPushBack vector false element) elements
      (elements ++ [element]) ↔ vector.size ≠ vector.capacity) ∧
    (∀ compare data, SurvivesPush (heapPushVector compare vector false data) elements
      (heapPush ⟨compare, elements.toArray⟩ data).vector.toList ↔
        vector.size ≠ vector.capacity) ∧
    (elements ≠ [] → (SurvivesPop (vectorPopBack vector false) elements ↔
      vector.capacity / shrinkThresholdDivisor ≠ vector.size)) := by
  refine ⟨fun element => ⟨?_, fun hroom => ?_⟩, fun compare data => ⟨?_, fun hroom => ?_⟩,
    fun hne => ⟨?_, fun hstays => ?_⟩⟩
  · rintro ⟨vector', status, hpush, -⟩ hfull
    rw [vectorPushBack_of_full hfull] at hpush
    cases hpush
  · obtain ⟨pushed, hpush, hholds⟩ := h.pushBack hroom false element
    exact ⟨pushed, 0, hpush, fun _ => hholds, fun hstatus => absurd rfl hstatus⟩
  · rintro ⟨vector', status, hpush, -⟩ hfull
    rw [heapPushVector, vectorPushBack_of_full hfull] at hpush
    cases hpush
  · obtain ⟨pushed, hpush, hholds⟩ := h.pushBack hroom false data
    obtain ⟨vector', hheap, hvector'⟩ := heapPushVector_of_pushed compare hpush hholds
    exact ⟨vector', 0, hheap, fun _ => hvector', fun hstatus => absurd rfl hstatus⟩
  · rintro ⟨vector', hpop, -⟩ hshrinks
    rw [vectorPopBack_of_shrinks (h.size_ne_zero hne) hshrinks] at hpop
    cases hpop
  · exact h.popBack (h.size_ne_zero hne) hstays false

/-- A vector of capacity 8 with three elements. -/
def threeOfEight : Vector Nat :=
  { size := 3, capacity := 8, elementSize := 8,
    buffer := [some 5, some 9, some 7, none, none, none, none, none] }

/-- It has room, and is too full to shrink. -/
theorem failedGrowth_survives_iff_threeOfEight :
    SurvivesPush (vectorPushBack threeOfEight false 4) [5, 9, 7] [5, 9, 7, 4] ∧
    SurvivesPush (heapPushVector (fun a b : Nat => (a : Int) - b) threeOfEight false 9) [5, 9, 7]
      (heapPush ⟨fun a b : Nat => (a : Int) - b, #[5, 9, 7]⟩ 9).vector.toList ∧
    SurvivesPop (vectorPopBack threeOfEight false) [5, 9, 7] := by
  have hholds : threeOfEight.Holds [5, 9, 7] := ⟨rfl, by decide, by decide, rfl, rfl⟩
  obtain ⟨hpush, hheap, hpop⟩ := failedGrowth_survives_iff hholds
  exact ⟨(hpush 4).mpr (by decide), (hheap _ 9).mpr (by decide),
    (hpop (by decide)).mpr (by decide)⟩

/-- A vector that is full, and one that is a quarter full, are lost. -/
theorem failedGrowth_survives_fails :
    (∃ vector : Vector Nat, vector.Holds [1, 2, 3, 4, 5, 6, 7, 8] ∧
      ¬ SurvivesPush (vectorPushBack vector false 9) [1, 2, 3, 4, 5, 6, 7, 8]
        [1, 2, 3, 4, 5, 6, 7, 8, 9]) ∧
    ∃ vector : Vector Nat, vector.Holds [1, 2] ∧
      ¬ SurvivesPop (vectorPopBack vector false) [1, 2] := by
  refine ⟨⟨⟨8, 8, 4, [1, 2, 3, 4, 5, 6, 7, 8].map some⟩, ⟨rfl, by decide, by decide, rfl, rfl⟩,
    ?_⟩, ⟨⟨2, 8, 4, [some 1, some 2, none, none, none, none, none, none]⟩,
    ⟨rfl, by decide, by decide, rfl, rfl⟩, ?_⟩⟩
  · rintro ⟨vector, status, hpush, -⟩
    cases hpush
  · rintro ⟨vector, hpop, -⟩
    cases hpop

end Ds
end InfinityLabs
