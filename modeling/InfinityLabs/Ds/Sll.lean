import InfinityLabs.Lib.Links
import Mathlib.Logic.Function.Basic
import Mathlib.Algebra.Group.Nat.Defs

/-!
# The singly linked list

`ds/src/sll.c` over a memory of nodes and list headers.  An address that `malloc` returns is
part of the input of a call, 0 is the null pointer, and a call that follows a pointer to
nothing, or whose assertion fails, has no result.

An iterator is the address of a node.  Insertion and removal copy data between neighbouring
nodes, so that the predecessor of an iterator is never needed; the last node, the dummy, holds
the address of the header.
-/

namespace InfinityLabs
namespace Ds

open Lib

/-- A `node_t`; `data` is a pointer. -/
structure SllNode where
  data : Nat
  next : Nat
  deriving DecidableEq, Repr

/-- An `sll_t`. -/
structure SllHeader where
  head : Nat
  tail : Nat
  deriving DecidableEq, Repr

/-- The nodes and the list headers at their addresses. -/
structure SllMemory where
  node? : Nat → Option SllNode
  list? : Nat → Option SllHeader

namespace SllMemory

/-- `malloc` may return the address. -/
def IsFree (m : SllMemory) (address : Nat) : Prop :=
  0 < address ∧ address < 2 ^ 64 ∧ m.node? address = none ∧ m.list? address = none

instance (m : SllMemory) (address : Nat) : Decidable (m.IsFree address) :=
  inferInstanceAs (Decidable (_ ∧ _))

/-! ## Nodes and headers -/

/-- A node is written. -/
def setNode (m : SllMemory) (address : Nat) (node : SllNode) : SllMemory :=
  { m with node? := Function.update m.node? address (some node) }

/-- `free` of a node. -/
def freeNode (m : SllMemory) (address : Nat) : SllMemory :=
  { m with node? := Function.update m.node? address none }

/-- A header is written. -/
def setList (m : SllMemory) (list : Nat) (header : SllHeader) : SllMemory :=
  { m with list? := Function.update m.list? list (some header) }

@[simp] theorem setNode_node?_self (m : SllMemory) (address : Nat) (node : SllNode) :
    (m.setNode address node).node? address = some node :=
  Function.update_self ..

theorem setNode_node?_of_ne (m : SllMemory) {address other : Nat} (hne : other ≠ address)
    (node : SllNode) : (m.setNode address node).node? other = m.node? other :=
  Function.update_of_ne hne ..

theorem freeNode_node?_of_ne (m : SllMemory) {address other : Nat} (hne : other ≠ address) :
    (m.freeNode address).node? other = m.node? other :=
  Function.update_of_ne hne ..

@[simp] theorem setList_list?_self (m : SllMemory) (list : Nat) (header : SllHeader) :
    (m.setList list header).list? list = some header :=
  Function.update_self ..

theorem setList_list?_of_ne (m : SllMemory) {list other : Nat} (hne : other ≠ list)
    (header : SllHeader) : (m.setList list header).list? other = m.list? other :=
  Function.update_of_ne hne ..

@[simp] theorem setNode_list? (m : SllMemory) (address : Nat) (node : SllNode) :
    (m.setNode address node).list? = m.list? := rfl

@[simp] theorem freeNode_list? (m : SllMemory) (address : Nat) :
    (m.freeNode address).list? = m.list? := rfl

@[simp] theorem setList_node? (m : SllMemory) (list : Nat) (header : SllHeader) :
    (m.setList list header).node? = m.node? := rfl

/-- `list->head = head`. -/
def setHead (m : SllMemory) (list head : Nat) : Option SllMemory :=
  (m.list? list).map fun header => m.setList list { header with head := head }

/-- `list->tail = tail`. -/
def setTail (m : SllMemory) (list tail : Nat) : Option SllMemory :=
  (m.list? list).map fun header => m.setList list { header with tail := tail }

/-- `SLLBegin`. -/
def sllBegin (m : SllMemory) (list : Nat) : Option Nat := (m.list? list).map SllHeader.head

/-- `SLLEnd`. -/
def sllEnd (m : SllMemory) (list : Nat) : Option Nat := (m.list? list).map SllHeader.tail

/-- `SLLNext`. -/
def sllNext (m : SllMemory) (iter : Nat) : Option Nat := (m.node? iter).map SllNode.next

/-- `SLLGetData`. -/
def sllGetData (m : SllMemory) (iter : Nat) : Option Nat := (m.node? iter).map SllNode.data

/-! ## The operations -/

/-- `SLLCreate`, with what its two calls of `malloc` return. -/
def sllCreate (m : SllMemory) (list dummy : Option Nat) : SllMemory × Nat :=
  match list, dummy with
  | some list, some dummy =>
      ((m.setList list { head := dummy, tail := dummy }).setNode dummy
        { data := list, next := 0 }, list)
  | _, _ => (m, 0)

/-- The loop of `SLLDestroy`; `fuel` bounds its passes. -/
def sllFreeNodes : Nat → SllMemory → Nat → Option SllMemory
  | 0, _, _ => none
  | fuel + 1, m, currentNode =>
      if currentNode = 0 then some m
      else (m.sllNext currentNode).bind fun next => sllFreeNodes fuel (m.freeNode currentNode) next

/-- `SLLDestroy`. -/
def sllDestroy (m : SllMemory) (fuel list : Nat) : Option SllMemory :=
  (m.sllBegin list).bind fun head =>
    (sllFreeNodes fuel m head).map fun m' =>
      { m' with list? := Function.update m'.list? list none }

/-- The loop of `SLLInsert` to the last node; `fuel` bounds its passes. -/
def sllLast (m : SllMemory) : Nat → Nat → Option Nat
  | 0, _ => none
  | fuel + 1, iter =>
      match m.sllNext iter with
      | none => none
      | some 0 => some iter
      | some next => m.sllLast fuel next

/-- `SLLInsert` at `where`, with what `malloc` returns. -/
def sllInsert (m : SllMemory) (fuel : Nat) (node : Option Nat) (iter data : Nat) :
    Option (SllMemory × Nat) :=
  match node, m.node? iter with
  | _, none => none
  | none, some _ => (m.sllLast fuel iter).map fun last => (m, last)
  | some node, some old =>
      -- `node` takes what was at `where`
      let written := (m.setNode node old).setNode iter { data := data, next := node }
      if old.next = 0 then (written.setTail old.data node).map fun m' => (m', iter)
      else some (written, iter)

/-- `SLLRemove`. -/
def sllRemove (m : SllMemory) (iter : Nat) : Option (SllMemory × Nat) :=
  match m.sllNext iter with
  | none | some 0 => none
  | some tmp =>
      match m.node? tmp with
      | none => none
      | some next =>
          -- the iterator takes what was in the next node
          let written := (m.setNode iter next).freeNode tmp
          if next.next = 0 then (written.setTail next.data iter).map fun m' => (m', iter)
          else some (written, iter)

/-- `SLLIsEmpty`. -/
def sllIsEmpty (m : SllMemory) (list : Nat) : Option Bool :=
  (m.list? list).map fun header => header.head == header.tail

/-- `SLLForEach` with the action and its parameter; `fuel` bounds the passes of its loop. -/
def sllForEach {σ : Type} (m : SllMemory) (action : Nat → σ → Int × σ) :
    Nat → Nat → Nat → σ → Option (Int × σ)
  | 0, _, _, _ => none
  | fuel + 1, from_, to_, param =>
      if from_ = to_ then some (0, param)
      else
        match m.node? from_ with
        | none => none
        | some node =>
            let (rc, param) := action node.data param
            if rc = 0 then m.sllForEach action fuel node.next to_ param else some (rc, param)

/-- `CountAction`, on a `size_t`. -/
def countAction (_ : Nat) (count : Nat) : Int × Nat := (0, (count + 1) % 2 ^ 64)

/-- `SLLCount`; 0 for the null pointer. -/
def sllCount (m : SllMemory) (fuel list : Nat) : Option Nat :=
  if list = 0 then some 0
  else
    match m.list? list with
    | none => none
    | some header => (m.sllForEach countAction fuel header.head header.tail 0).map Prod.snd

/-- `SLLFind`; `fuel` bounds the passes of its loop. -/
def sllFind (m : SllMemory) (isMatch : Nat → Int) : Nat → Nat → Nat → Option Nat
  | 0, _, _ => none
  | fuel + 1, from_, to_ =>
      if from_ = to_ then some to_
      else
        match m.node? from_ with
        | none => none
        | some node =>
            if isMatch node.data ≠ 0 then some from_ else m.sllFind isMatch fuel node.next to_

/-- `SLLAppend`. -/
def sllAppend (m : SllMemory) (src dst : Nat) : Option (SllMemory × Nat) := do
  let isEmpty ← m.sllIsEmpty src
  if isEmpty ∨ src = dst then some (m, dst)
  else
    let isEmpty ← m.sllIsEmpty dst
    if isEmpty then some (m, src)
    else
      let dstEnd ← m.sllEnd dst
      let srcBegin ← m.sllBegin src
      let old ← m.node? dstEnd
      let (m, _) ← (m.setNode dstEnd { old with next := srcBegin }).sllRemove dstEnd
      let srcEnd ← m.sllEnd src
      let m ← m.setTail dst srcEnd
      let srcEnd ← m.sllEnd src
      let m ← m.setHead src srcEnd
      some (m, dst)

/-! ## The list in memory -/

/-- The link of a node, and 0 elsewhere. -/
def next (m : SllMemory) (address : Nat) : Nat := (m.sllNext address).getD 0

/-- The data of a node, and 0 elsewhere. -/
def data (m : SllMemory) (address : Nat) : Nat := (m.sllGetData address).getD 0

/-- The list has this header, these nodes from the head to the tail, and this content.  The
last node is the tail, has no next node and refers back to the list. -/
structure IsList (m : SllMemory) (list : Nat) (header : SllHeader) (nodes content : List Nat) :
    Prop where
  ne_null : list ≠ 0
  header_eq : m.list? list = some header
  linked : Linked m.next header.head nodes
  tail_eq : nodes.getLast? = some header.tail
  data_eq : nodes.map m.data = content ++ [list]
  allocated : ∀ address ∈ nodes, address < 2 ^ 64 ∧ (m.node? address).isSome

/-- A node that is allocated is its data and its link. -/
theorem node?_eq {m : SllMemory} {address : Nat} (h : (m.node? address).isSome) :
    m.node? address = some { data := m.data address, next := m.next address } := by
  obtain ⟨node, hnode⟩ := Option.isSome_iff_exists.mp h
  rw [data, next, sllGetData, sllNext, hnode]
  rfl

theorem next_of_node? {m : SllMemory} {address : Nat} {node : SllNode}
    (h : m.node? address = some node) : m.next address = node.next := by
  rw [next, sllNext, h]
  rfl

theorem data_of_node? {m : SllMemory} {address : Nat} {node : SllNode}
    (h : m.node? address = some node) : m.data address = node.data := by
  rw [data, sllGetData, h]
  rfl

/-- The same cell is the same link and the same data. -/
theorem next_congr {m m' : SllMemory} {address : Nat}
    (h : m'.node? address = m.node? address) : m'.next address = m.next address := by
  rw [next, next, sllNext, sllNext, h]

theorem data_congr {m m' : SllMemory} {address : Nat}
    (h : m'.node? address = m.node? address) : m'.data address = m.data address := by
  rw [data, data, sllGetData, sllGetData, h]

/-- A list depends on its nodes and on its header. -/
theorem IsList.congr {m m' : SllMemory} {list : Nat} {header : SllHeader}
    {nodes content : List Nat} (h : m.IsList list header nodes content)
    (hnodes : ∀ address ∈ nodes, m'.node? address = m.node? address)
    (hlist : m'.list? list = m.list? list) : m'.IsList list header nodes content where
  ne_null := h.ne_null
  header_eq := hlist.trans h.header_eq
  linked := h.linked.congr fun address haddress => next_congr (hnodes address haddress)
  tail_eq := h.tail_eq
  data_eq := by
    rw [← h.data_eq]
    exact List.map_congr_left fun address haddress => data_congr (hnodes address haddress)
  allocated := fun address haddress => by
    rw [hnodes address haddress]
    exact h.allocated address haddress

/-- A list has one node more than elements. -/
theorem IsList.length_eq {m : SllMemory} {list : Nat} {header : SllHeader}
    {nodes content : List Nat} (h : m.IsList list header nodes content) :
    nodes.length = content.length + 1 := by
  have heq := congrArg List.length h.data_eq
  rwa [List.length_map, List.length_append, List.length_singleton] at heq

/-- Well-formed lists at two addresses have no node in common. -/
theorem IsList.disjoint {m : SllMemory} {list list' : Nat} {header header' : SllHeader}
    {nodes nodes' content content' : List Nat} (h : m.IsList list header nodes content)
    (h' : m.IsList list' header' nodes' content') (hne : list ≠ list') :
    ∀ address ∈ nodes, address ∉ nodes' := by
  intro address hmem hmem'
  have hlast := h.linked.getLast?_eq_of_mem h'.linked hmem hmem'
  have hdata := congrArg List.getLast? h.data_eq
  rw [List.getLast?_map, hlast, ← List.getLast?_map, h'.data_eq, List.getLast?_concat,
    List.getLast?_concat] at hdata
  exact hne (Option.some.inj hdata).symm

end SllMemory

end Ds
end InfinityLabs
