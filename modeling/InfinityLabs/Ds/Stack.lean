import Mathlib.Tactic.Common

/-!
# The bounded stack

`ds/src/stack.c`.  The elements stand with the top first.  A call whose assertion fails
has no result.
-/

namespace InfinityLabs
namespace Ds

/-- A `stack_t`.  Its `top` counts the elements. -/
structure Stack (α : Type) where
  elements : List α
  capacity : Nat

variable {α : Type}

/-- `StackCreate`; `allocated` says that both of its allocations succeed. -/
def stackCreate (allocated : Bool) (capacity elementSize : Nat) : Option (Stack α) :=
  if capacity = 0 ∨ elementSize = 0 then none
  else if allocated then some ⟨[], capacity⟩ else none

/-- `StackPush`. -/
def stackPush (stack : Stack α) (element : α) : Option (Stack α) :=
  if stack.elements.length < stack.capacity then
    some { stack with elements := element :: stack.elements }
  else none

/-- `StackPop`. -/
def stackPop (stack : Stack α) : Option (Stack α) :=
  match stack.elements with
  | [] => none
  | _ :: rest => some { stack with elements := rest }

/-- `StackPeek`. -/
def stackPeek (stack : Stack α) : Option α := stack.elements.head?

/-- `StackSize`. -/
def stackSize (stack : Stack α) : Nat := stack.elements.length

/-- `StackIsEmpty`. -/
def stackIsEmpty (stack : Stack α) : Bool := stack.elements.isEmpty

/-- Below its capacity a stack takes one more element. -/
theorem stackPush_of_lt {elements : List α} {capacity : Nat}
    (hroom : elements.length < capacity) (element : α) :
    stackPush ⟨elements, capacity⟩ element = some ⟨element :: elements, capacity⟩ := by
  rw [stackPush, if_pos hroom]

@[simp] theorem stackPop_cons (element : α) (rest : List α) (capacity : Nat) :
    stackPop ⟨element :: rest, capacity⟩ = some ⟨rest, capacity⟩ := rfl

@[simp] theorem stackPeek_cons (element : α) (rest : List α) (capacity : Nat) :
    stackPeek ⟨element :: rest, capacity⟩ = some element := rfl

@[simp] theorem stackIsEmpty_cons (element : α) (rest : List α) (capacity : Nat) :
    stackIsEmpty ⟨element :: rest, capacity⟩ = false := rfl

end Ds
end InfinityLabs
