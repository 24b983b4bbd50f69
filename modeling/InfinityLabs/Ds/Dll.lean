import InfinityLabs.Lib.Links
import InfinityLabs.Lib.ListParts
import Mathlib.Logic.Function.Basic

/-!
# The doubly linked list

`ds/src/dll.c` over a memory of nodes.  A list is two sentinel nodes next to each other: its
address is that of the head, and the tail follows.  An iterator is the address of a node; a call
that follows a pointer to nothing, or whose assertion fails, has no result.
-/

namespace InfinityLabs
namespace Ds

open Lib

/-- A `node_t`; `data` is a pointer. -/
structure DllNode where
  data : Nat
  next : Nat
  prev : Nat
  deriving DecidableEq, Repr

/-- The nodes at their addresses. -/
structure DllMemory where
  node? : Nat → Option DllNode

/-- The address of the tail of a list. -/
def dllTail (list : Nat) : Nat := list + 24

namespace DllMemory

/-- `malloc` may return the address for a node. -/
def IsFree (m : DllMemory) (address : Nat) : Prop := address ≠ 0 ∧ m.node? address = none

instance decidableIsFree (m : DllMemory) (address : Nat) : Decidable (m.IsFree address) :=
  inferInstanceAs (Decidable (_ ∧ _))

/-- A node is written. -/
def setNode (m : DllMemory) (address : Nat) (node : DllNode) : DllMemory :=
  { node? := Function.update m.node? address (some node) }

/-- `free` of a node. -/
def freeNode (m : DllMemory) (address : Nat) : DllMemory :=
  { node? := Function.update m.node? address none }

/-! ## Nodes -/

/-- `JoinNode`. -/
def joinNode (m : DllMemory) (left right : Nat) : Option DllMemory :=
  if left = 0 ∨ right = 0 then none
  else do
    let node ← m.node? left
    let m := m.setNode left { node with next := right }
    let node ← m.node? right
    some (m.setNode right { node with prev := left })

/-- `CreateNode`, with what `malloc` returns. -/
def createNode (m : DllMemory) (node data : Nat) : DllMemory :=
  m.setNode node { data, next := 0, prev := 0 }

/-- `InsertBetween`. -/
def insertBetween (m : DllMemory) (left right newNode : Nat) : Option DllMemory :=
  (m.joinNode left newNode).bind fun m => m.joinNode newNode right

/-- `RemoveNode`. -/
def removeNode (m : DllMemory) (address : Nat) : Option (DllMemory × Nat) := do
  let node ← m.node? address
  let m ← m.joinNode node.prev node.next
  some (m.freeNode address, node.next)

/-- `IsHead`. -/
def isHead (m : DllMemory) (iter : Nat) : Option Bool :=
  (m.node? iter).map fun node => node.prev == 0

/-- `IsTail`. -/
def isTail (m : DllMemory) (iter : Nat) : Option Bool :=
  (m.node? iter).map fun node => node.next == 0

/-! ## The operations -/

/-- `DLLCreate`, with what `malloc` returns. -/
def dllCreate (m : DllMemory) (list : Option Nat) : Option (DllMemory × Nat) :=
  match list with
  | none => some (m, 0)
  | some list =>
      let m := (m.setNode list { data := 0, next := 0, prev := 0 }).setNode (dllTail list)
        { data := 0, next := 0, prev := 0 }
      (m.joinNode list (dllTail list)).map fun m => (m, list)

/-- `DLLBegin`. -/
def dllBegin (m : DllMemory) (list : Nat) : Option Nat := (m.node? list).map DllNode.next

/-- `DLLEnd`. -/
def dllEnd (list : Nat) : Nat := dllTail list

/-- `DLLNext`. -/
def dllNext (m : DllMemory) (curr : Nat) : Option Nat := (m.node? curr).map DllNode.next

/-- `DLLPrev`. -/
def dllPrev (m : DllMemory) (curr : Nat) : Option Nat := (m.node? curr).map DllNode.prev

/-- `DLLIsEqual`. -/
def dllIsEqual (iter1 iter2 : Nat) : Option Bool :=
  if iter1 = 0 ∨ iter2 = 0 then none else some (iter1 == iter2)

/-- `DLLGetData`, of a node that is no sentinel. -/
def dllGetData (m : DllMemory) (iter : Nat) : Option Nat := do
  let isHead ← m.isHead iter
  let isTail ← m.isTail iter
  if isHead ∨ isTail then none else (m.node? iter).map DllNode.data

/-- `DLLInsert`, with what `malloc` returns. -/
def dllInsert (m : DllMemory) (list where_ : Nat) (toInsert : Option Nat) (data : Nat) :
    Option (DllMemory × Nat) := do
  let isHead ← m.isHead where_
  if isHead then none
  else
    match toInsert with
    | none => some (m, dllEnd list)
    | some toInsert =>
        let m := m.createNode toInsert data
        let left ← m.dllPrev where_
        let m ← m.insertBetween left where_ toInsert
        some (m, toInsert)

/-- `DLLRemove`. -/
def dllRemove (m : DllMemory) (toRemove : Nat) : Option (DllMemory × Nat) := do
  let isHead ← m.isHead toRemove
  let isTail ← m.isTail toRemove
  if isHead ∨ isTail then none else m.removeNode toRemove

/-- `DLLIsEmpty`. -/
def dllIsEmpty (m : DllMemory) (list : Nat) : Option Bool :=
  (m.dllBegin list).bind fun begin_ => dllIsEqual begin_ (dllEnd list)

/-- `DLLPopFront`. -/
def dllPopFront (m : DllMemory) (list : Nat) : Option (DllMemory × Nat) := do
  let isEmpty ← m.dllIsEmpty list
  if isEmpty then none
  else
    let data ← (m.dllBegin list).bind m.dllGetData
    let (m, _) ← (m.dllBegin list).bind m.dllRemove
    some (m, data)

/-- `DLLPopBack`. -/
def dllPopBack (m : DllMemory) (list : Nat) : Option (DllMemory × Nat) := do
  let isEmpty ← m.dllIsEmpty list
  if isEmpty then none
  else
    let back ← m.dllPrev (dllEnd list)
    let data ← m.dllGetData back
    let (m, _) ← m.dllRemove back
    some (m, data)

/-- `DLLFind`; `fuel` bounds the passes of its loop. -/
def dllFind (m : DllMemory) (isMatch : Nat → Int) : Nat → Nat → Nat → Option Nat
  | 0, _, _ => none
  | fuel + 1, from_, to_ => do
      let isEqual ← dllIsEqual from_ to_
      if isEqual then some from_
      else
        let data ← m.dllGetData from_
        if isMatch data ≠ 0 then some from_
        else
          let next ← m.dllNext from_
          m.dllFind isMatch fuel next to_

/-! ## The list in memory -/

/-- A field of a node, and 0 elsewhere. -/
def field (m : DllMemory) (f : DllNode → Nat) (address : Nat) : Nat :=
  ((m.node? address).map f).getD 0

/-- The link of a node. -/
def next (m : DllMemory) : Nat → Nat := m.field DllNode.next

/-- The link back of a node. -/
def prev (m : DllMemory) : Nat → Nat := m.field DllNode.prev

/-- The data of a node. -/
def data (m : DllMemory) : Nat → Nat := m.field DllNode.data

/-- The nodes of a list between its sentinels. -/
def places (list : Nat) (nodes : List Nat) : List Nat := list :: (nodes ++ [dllTail list])

/-- The list has these nodes and this content: the links lead from the head to the tail, and the
links back from the tail to the head. -/
structure IsDll (m : DllMemory) (list : Nat) (nodes content : List Nat) : Prop where
  forward : Linked m.next list (places list nodes)
  backward : Linked m.prev (dllTail list) (places list nodes).reverse
  data_eq : nodes.map m.data = content
  allocated : ∀ address ∈ places list nodes, (m.node? address).isSome

end DllMemory

end Ds
end InfinityLabs
