import InfinityLabs.Ds.Stack
import Mathlib.Data.List.Sort

/-!
# A stack sorted by recursion

`projects/recursion/src/recursion.c`: `SortedStack` takes the top off, sorts the rest and
inserts the element where it belongs; `InsertSorted` takes off what is larger and puts it back.
What is taken off is held in the frames of the calls, so the stack never needs more room than it
had, and it is taken off only where the stack is not empty.

A call has no result where an assertion of the stack fails.
-/

namespace InfinityLabs
namespace Recursion

open Ds

/-- `PushInt`. -/
def pushInt (s : Stack Int) (val : Int) : Option (Stack Int) :=
  stackPush s val

/-- `PopInts`: the value, and the stack without it. -/
def popInts (s : Stack Int) : Option (Int × Stack Int) := do
  let value ← stackPeek s
  let s' ← stackPop s
  pure (value, s')

/-- What is popped was there. -/
theorem popInts_eq_some {s s' : Stack Int} {value : Int} (h : popInts s = some (value, s')) :
    s.elements = value :: s'.elements ∧ s'.capacity = s.capacity := by
  obtain ⟨elements, capacity⟩ := s
  cases elements with
  | nil => simp [popInts, stackPeek] at h
  | cons element rest =>
      simp [popInts] at h
      simp [← h.1, ← h.2]

theorem length_of_popInts {s s' : Stack Int} {value : Int} (h : popInts s = some (value, s')) :
    s'.elements.length < s.elements.length := by
  simp [(popInts_eq_some h).1]

/-- `InsertSorted`. -/
def insertSorted (s : Stack Int) (val : Int) : Option (Stack Int) :=
  if stackIsEmpty s then pushInt s val
  else
    match stackPeek s with
    | none => none
    | some top =>
        if val ≥ top then pushInt s val
        else
          match _h : popInts s with
          | none => none
          | some (temp, s') =>
              match insertSorted s' val with
              | none => none
              | some s'' => pushInt s'' temp
termination_by s.elements.length
decreasing_by exact length_of_popInts _h

/-- `SortedStack`: whether it returns the stack (it returns `NULL` otherwise), and the stack
that it leaves. -/
def sortedStack (s : Stack Int) : Option (Bool × Stack Int) :=
  if stackIsEmpty s then some (false, s)
  else
    match _h : popInts s with
    | none => none
    | some (temp, s') =>
        match sortedStack s' with
        | none => none
        | some (_, s'') => (insertSorted s'' temp).map fun s₃ => (true, s₃)
termination_by s.elements.length
decreasing_by exact length_of_popInts _h

/-! ## What the recursions leave -/

theorem popInts_cons (element : Int) (rest : List Int) (capacity : Nat) :
    popInts ⟨element :: rest, capacity⟩ = some (element, ⟨rest, capacity⟩) := rfl

/-- With room for one more element, the element is inserted in order. -/
theorem insertSorted_eq (elements : List Int) (val : Int) {capacity : Nat}
    (hroom : elements.length < capacity) :
    insertSorted ⟨elements, capacity⟩ val =
      some ⟨elements.orderedInsert (· ≥ ·) val, capacity⟩ := by
  induction elements with
  | nil =>
      rw [insertSorted]
      exact stackPush_of_lt hroom val
  | cons top rest ih =>
      have hrest := ih (by simp at hroom; omega)
      rw [insertSorted]
      by_cases hle : val ≥ top
      case pos =>
        simp [hle, pushInt, stackPush_of_lt hroom]
      case neg =>
        -- the element that was taken off goes where it came from
        have hback : ((rest.orderedInsert (· ≥ ·) val).length) < capacity := by
          rw [List.orderedInsert_length]
          exact hroom
        simp [hle, popInts_cons, hrest, pushInt, stackPush_of_lt hback]

/-- What `SortedStack` leaves is sorted by insertion. -/
theorem sortedStack_eq (elements : List Int) {capacity : Nat}
    (hfits : elements.length ≤ capacity) :
    sortedStack ⟨elements, capacity⟩ =
      some (!elements.isEmpty, ⟨elements.insertionSort (· ≥ ·), capacity⟩) := by
  induction elements with
  | nil =>
      rw [sortedStack]
      rfl
  | cons top rest ih =>
      simp at hfits
      have hrest := ih (by omega)
      have hroom : (rest.insertionSort (· ≥ ·)).length < capacity := by
        rw [(List.perm_insertionSort _ rest).length_eq]
        omega
      rw [sortedStack]
      simp [popInts_cons, hrest, insertSorted_eq _ top hroom]

/-! ## Every stack of a program -/

/-- A stack as a program can make it. -/
inductive Made : Stack Int → Prop
  | create {s : Stack Int} {allocated : Bool} {capacity elementSize : Nat}
      (h : stackCreate allocated capacity elementSize = some s) : Made s
  | push {s s' : Stack Int} {element : Int} (hs : Made s) (h : stackPush s element = some s') :
      Made s'
  | pop {s s' : Stack Int} (hs : Made s) (h : stackPop s = some s') : Made s'

/-- A stack never holds more than its capacity. -/
theorem Made.length_le {s : Stack Int} (hs : Made s) : s.elements.length ≤ s.capacity := by
  induction hs with
  | create h =>
      simp only [stackCreate] at h
      split at h
      · cases h
      · split at h
        · cases h
          exact Nat.zero_le _
        · cases h
  | push hs h ih =>
      simp only [stackPush] at h
      split at h
      · cases h
        assumption
      · cases h
  | @pop s s' hs h ih =>
      obtain ⟨elements, capacity⟩ := s
      cases elements with
      | nil => cases h
      | cons element rest =>
          cases h
          simp at ih ⊢
          omega

/-- **The stack is sorted in place**: no assertion fails on the way, and the stack keeps its
elements and its capacity, with the largest element on top. -/
theorem sortedStack_sorts {s : Stack Int} (hs : Made s) (hne : s.elements ≠ []) :
    ∃ elements, sortedStack s = some (true, ⟨elements, s.capacity⟩) ∧
      elements.Perm s.elements ∧ elements.Pairwise (· ≥ ·) := by
  have hreturns : (!s.elements.isEmpty) = true := by simp [hne]
  have hsorted := sortedStack_eq s.elements hs.length_le
  rw [hreturns] at hsorted
  exact ⟨_, hsorted, List.perm_insertionSort _ _, List.pairwise_insertionSort _ _⟩

/-- Two elements on a stack without room for a third. -/
theorem sortedStack_sorts_two :
    ∃ elements, sortedStack ⟨[1, 2], 2⟩ = some (true, ⟨elements, 2⟩) ∧
      elements.Perm [1, 2] ∧ elements.Pairwise (· ≥ ·) := by
  have hcreate : Made ⟨[], 2⟩ := Made.create (show stackCreate true 2 4 = _ from rfl)
  have hfirst : Made ⟨[2], 2⟩ := Made.push hcreate rfl
  have hsecond : Made ⟨[1, 2], 2⟩ := Made.push hfirst rfl
  exact sortedStack_sorts hsecond (by decide)

end Recursion
end InfinityLabs
