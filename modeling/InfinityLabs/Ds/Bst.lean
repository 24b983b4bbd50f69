import InfinityLabs.Lib.ParentTree

/-!
# The binary search tree

`ds/src/bst.c` over a memory of nodes with parent links.  A `bst_t` is its comparison function
and the address of its stub, which has no parent, has the root for its left child and itself
for its right child.  An iterator is the address of a node, a `child_node_pos_t` a side.

An address that `malloc` returns is part of the input of a call, and `fuel` bounds the passes
of its loops.  A call that follows a pointer to nothing, or whose assertion fails, has no
result.
-/

namespace InfinityLabs
namespace Ds

open Lib.ParentTree

variable {α : Type}

/-! ## Links -/

/-- `malloc` may return the address. -/
def IsFreeNode (m : TreeMemory α) (address : Nat) : Prop :=
  address ≠ 0 ∧ m.node? address = none

instance (m : TreeMemory α) (address : Nat) : Decidable (IsFreeNode m address) :=
  inferInstanceAs (Decidable (_ ∧ _))

/-- `CreateNode`, where `malloc` returns the address. -/
def createNode (m : TreeMemory α) (address : Nat) (data : α) : TreeMemory α :=
  { node? := Function.update m.node? address
      (some { parent := 0, left := 0, right := 0, data := some data }) }

/-- `free` of a node. -/
def freeNode (m : TreeMemory α) (address : Nat) : TreeMemory α :=
  { node? := Function.update m.node? address none }

/-- `node->children[side]`. -/
def child (node : TreeNode α) : Side → Nat
  | .left => node.left
  | .right => node.right

/-- `IsLeftChild`. -/
def isLeftChild (m : TreeMemory α) (node : Nat) : Option Bool :=
  match m.node? node with
  | none => none
  | some cell =>
      if cell.parent = 0 then some false
      else (m.node? cell.parent).map fun parent => parent.left == node

/-- `SetChildLink`. -/
def setChildLink (m : TreeMemory α) (parent : Nat) (side : Side) (child : Nat) :
    Option (TreeMemory α) :=
  if (m.node? parent).isSome ∧ (child = 0 ∨ (m.node? child).isSome) then
    some (m.hang parent side child)
  else none

/-- `ReplaceInParent`. -/
def replaceInParent (m : TreeMemory α) (u v : Nat) : Option (TreeMemory α) := do
  let node ← m.node? u
  let parent ← m.node? node.parent
  if parent.parent = 0 then setChildLink m node.parent .left v
  else
    let isLeft ← isLeftChild m u
    setChildLink m node.parent (if isLeft then .left else .right) v

/-! ## Iterators -/

/-- `Leftmost` and `Rightmost`. -/
def outermost (m : TreeMemory α) (side : Side) : Nat → Nat → Option Nat
  | 0, _ => none
  | fuel + 1, node =>
      if node = 0 then some 0
      else
        match m.node? node with
        | none => none
        | some cell =>
            if child cell side = 0 ∨ child cell side = node then some node
            else outermost m side fuel (child cell side)

/-- `Leftmost`. -/
def leftmost (m : TreeMemory α) (fuel node : Nat) : Option Nat := outermost m .left fuel node

/-- `Rightmost`. -/
def rightmost (m : TreeMemory α) (fuel node : Nat) : Option Nat := outermost m .right fuel node

/-- The loop of `StepInOrder` to the parents. -/
def climb (m : TreeMemory α) (firstDir : Side) : Nat → Nat → Option Nat
  | 0, _ => none
  | fuel + 1, node =>
      match m.node? node with
      | none => none
      | some cell =>
          if cell.parent = 0 then some node
          else
            match m.node? cell.parent with
            | none => none
            | some parent =>
                if child parent firstDir = node then climb m firstDir fuel cell.parent
                else some cell.parent

/-- `StepInOrder`. -/
def stepInOrder (m : TreeMemory α) (fuel iter : Nat) (firstDir secondDir : Side) : Option Nat := do
  let cell ← m.node? iter
  if child cell firstDir ≠ 0 then
    if secondDir = .left then leftmost m fuel (child cell firstDir)
    else rightmost m fuel (child cell firstDir)
  else climb m firstDir fuel iter

/-- `BSTNext`. -/
def bstNext (m : TreeMemory α) (fuel iter : Nat) : Option Nat := do
  let cell ← m.node? iter
  if cell.parent = 0 then none else stepInOrder m fuel iter .right .left

/-- `BSTEnd`. -/
def bstEnd (m : TreeMemory α) (stub : Nat) : Option Nat := (m.node? stub).map TreeNode.right

/-- `BSTBegin`. -/
def bstBegin (m : TreeMemory α) (fuel stub : Nat) : Option Nat := do
  let root ← m.node? stub
  if root.left ≠ 0 then leftmost m fuel root.left else bstEnd m stub

/-- `BSTGetData`. -/
def bstGetData (m : TreeMemory α) (iter : Nat) : Option α := (m.node? iter).bind TreeNode.data

/-- `BSTForEach`; `bound` is for the loops of `BSTNext`, and the action returns its status with
what it makes of its parameter. -/
def bstForEach {σ : Type} (m : TreeMemory α) (action : α → σ → Int × σ) (bound last : Nat) :
    Nat → Nat → σ → Option (Int × σ)
  | 0, _, _ => none
  | fuel + 1, iter, param =>
      if iter = last then some (0, param)
      else do
        let data ← bstGetData m iter
        let (status, param) := action data param
        if status ≠ 0 then some (status, param)
        else
          let next ← bstNext m bound iter
          bstForEach m action bound last fuel next param

/-! ## The tree -/

/-- `BSTCreate`, where `malloc` returns the tree with this stub. -/
def bstCreate (m : TreeMemory α) (stub : Nat) : TreeMemory α :=
  { node? := Function.update m.node? stub
      (some { parent := 0, left := 0, right := stub, data := none }) }

/-- The loop of `BSTInsert`: the last node that it visits, and the last result of the
comparison, which is asserted not to be 0. -/
def searchParent (cmp : α → α → Int) (m : TreeMemory α) (data : α) : Nat → Nat →
    Option (Nat × Int)
  | 0, _ => none
  | fuel + 1, current => do
      let cell ← m.node? current
      let currentData ← cell.data
      let cmpResult := cmp data currentData
      if cmpResult = 0 then none
      else
        let next := child cell (if 0 < cmpResult then .right else .left)
        if next = 0 then some (current, cmpResult) else searchParent cmp m data fuel next

/-- `BSTInsert`, with what `malloc` returns. -/
def bstInsert (cmp : α → α → Int) (m : TreeMemory α) (stub fuel : Nat) (newNode : Option Nat)
    (data : α) : Option (TreeMemory α × Nat) :=
  match newNode with
  | none => (bstEnd m stub).map fun iter => (m, iter)
  | some newNode => do
      let root ← m.node? stub
      let m := createNode m newNode data
      if root.left = 0 then some ((m.setChild stub .left newNode).setParent newNode stub, newNode)
      else
        let (parent, cmpResult) ← searchParent cmp m data fuel root.left
        let m := m.setParent newNode parent
        some (m.setChild parent (if cmpResult < 0 then .left else .right) newNode, newNode)

/-- `BSTRemove`. -/
def bstRemove (m : TreeMemory α) (fuel toRemove : Nat) : Option (TreeMemory α) := do
  let node ← m.node? toRemove
  if node.parent = 0 then none
  else if node.left = 0 then
    let m ← replaceInParent m toRemove node.right
    some (freeNode m toRemove)
  else if node.right = 0 then
    let m ← replaceInParent m toRemove node.left
    some (freeNode m toRemove)
  else
    let next ← bstNext m fuel toRemove
    let nextNode ← m.node? next
    let m ←
      if nextNode.parent ≠ toRemove then do
        let m ← replaceInParent m next nextNode.right
        let node ← m.node? toRemove
        setChildLink m next .right node.right
      else some m
    let m ← replaceInParent m toRemove next
    let node ← m.node? toRemove
    let m ← setChildLink m next .left node.left
    some (freeNode m toRemove)

end Ds
end InfinityLabs
