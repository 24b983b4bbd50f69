import InfinityLabs.Lib.BitPath

/-!
# The binary trie

`projects/dhcp/src/trie.c`.  A node is told by its pointer, the list of the
directions that lead to it from the root of the whole trie (`true` for `RIGHT`).
The values are `unsigned int`; with a depth of at most 31 no shift or sum below
leaves 32 bits, so they are natural numbers.

Whether a call of `malloc` succeeds is the environment's choice: `malloc b` says
it for the node that is created at bit position `b`.
-/

namespace InfinityLabs
namespace Dhcp

open Lib

/-- A `trie_node_t*`. -/
inductive Trie where
  | null
  | node (left right : Trie) (isLeaf hasFreeInSubtree : Bool)
  deriving DecidableEq, Repr

/-- The directions from the root to a node. -/
abbrev Pointer := List Bool

/-- `trie_status_e`. -/
inductive TrieStatus where
  | TRIE_SUCCESS
  | TRIE_IP_OCCUPIED_ALLOCATED_ANOTHER
  | TRIE_NO_IP_AVAILABLE
  | TRIE_ALLOC_FAILURE
  | TRIE_DOUBLE_FREE
  | TRIE_IP_NOT_FOUND
  deriving DecidableEq, Repr

namespace Trie

/-! ## Nodes -/

/-- A node as `TRIECreate` and `TRIECreateNode` set it up. -/
def empty : Trie := .node .null .null false true

/-- The test for `NULL`. -/
def isNull : Trie → Bool
  | .null => true
  | .node _ _ _ _ => false

/-- `node->children[direction]`. -/
def child (direction : Bool) : Trie → Trie
  | .null => .null
  | .node left right _ _ => if direction then right else left

/-- `IS_LEAF(node)`. -/
def isLeaf : Trie → Bool
  | .null => false
  | .node _ _ isLeaf _ => isLeaf

/-- `HAS_FREE_IN_SUBTREE(node)`. -/
def hasFree : Trie → Bool
  | .null => false
  | .node _ _ _ hasFree => hasFree

/-- `node->children[direction] = child`. -/
def setChild (direction : Bool) : Trie → Trie → Trie
  | .null, _ => .null
  | .node left right isLeaf hasFree, child =>
      if direction then .node left child isLeaf hasFree
      else .node child right isLeaf hasFree

/-- `node->is_leaf = isLeaf`. -/
def setLeaf (isLeaf : Bool) : Trie → Trie
  | .null => .null
  | .node left right _ hasFree => .node left right isLeaf hasFree

/-- The node that a pointer leads to. -/
def deref : Trie → Pointer → Trie
  | t, [] => t
  | t, direction :: rest => (t.child direction).deref rest

/-- A write through a pointer. -/
def modify (f : Trie → Trie) : Pointer → Trie → Trie
  | [], t => f t
  | direction :: rest, t => t.setChild direction (modify f rest (t.child direction))

end Trie

/-! ## Metadata -/

/-- `HasChildWithFreeSpace`. -/
def hasChildWithFreeSpace (node : Trie) : Bool :=
  (!(node.child false).isNull && (node.child false).hasFree) ||
    (!(node.child true).isNull && (node.child true).hasFree)

/-- One round of `TRIEUpdateMetadata`. -/
def refreshNode : Trie → Trie
  | .null => .null
  | .node left right isLeaf hasFree =>
      .node left right isLeaf
        (!isLeaf || (left.isNull || right.isNull) ||
          hasChildWithFreeSpace (.node left right isLeaf hasFree))

/-- `TRIEUpdateMetadata`: the nodes of the path from the last one to the first. -/
def trieUpdateMetadata (t : Trie) (pathNodes : List Pointer) : Trie :=
  pathNodes.foldr (fun node t => t.modify refreshNode node) t

/-! ## Search and free -/

/-- `TraversePath`, from `current` with `depth` bits to go. -/
def traversePath (t : Trie) (ipAddress : Nat) : Nat → Pointer → Option Pointer
  | 0, current => some current
  | bit + 1, current =>
      let direction := ipAddress.testBit bit
      if ((t.deref current).child direction).isNull then none
      else traversePath t ipAddress bit (current ++ [direction])

/-- `TRIESearch`. -/
def trieSearch (t : Trie) (ipAddress depth : Nat) : Bool :=
  match traversePath t ipAddress depth [] with
  | none => false
  | some target => (t.deref target).isLeaf

/-- The nodes above the target that `TRIEFree` collects. -/
def pathAbove (ipAddress : Nat) : Nat → Pointer → List Pointer
  | 0, _ => []
  | bit + 1, current => current :: pathAbove ipAddress bit (current ++ [ipAddress.testBit bit])

/-- `TRIEFree`. -/
def trieFree (t : Trie) (ipAddress depth : Nat) : Trie × TrieStatus :=
  match traversePath t ipAddress depth [] with
  | none => (t, .TRIE_IP_NOT_FOUND)
  | some target =>
      if !(t.deref target).isLeaf then (t, .TRIE_DOUBLE_FREE)
      else
        (trieUpdateMetadata (t.modify (Trie.setLeaf false) target)
          (pathAbove ipAddress depth []), .TRIE_SUCCESS)

/-- `TRIECountFree`; `size_t` arithmetic, whose subtraction of a leaf's own mark
happens to a sum of at least one. -/
def trieCountFree : Trie → Nat → Nat
  | .null, _ => 0
  | .node _ _ isLeaf _, 0 => if isLeaf then 0 else 1
  | .node left right isLeaf _, depth + 1 =>
      (if left.isNull then 1 <<< depth else trieCountFree left depth) +
          (if right.isNull then 1 <<< depth else trieCountFree right depth) -
        (if isLeaf then 1 else 0)

/-! ## Insertion -/

/-- The result of an insertion; `*allocated_ip` is written only on success. -/
structure Insertion where
  trie : Trie
  status : TrieStatus
  allocatedIp : Option Nat

/-- The branch that a search for another address re-enters: a node on the path of
`requested` where the path turns left at bit `bit` although there is a right
child. -/
structure Pivot (requested depth : Nat) where
  node : Pointer
  bit : Nat
  bit_lt : bit < depth
  bit_clear : requested.testBit bit = false

/-- How the loop of `TRIEInsertHelper` ends: a child is missing with `remaining`
bits to go, the path is blocked, or the target is there and free. -/
inductive Descent (requested depth : Nat) where
  | missing (current : Pointer) (pathNodes : List Pointer) (remaining : Nat)
  | blocked (pivot : Option (Pivot requested depth))
  | target (current : Pointer) (pathNodes : List Pointer)

/-- The loop of `TRIEInsertHelper` at `current`, with `remaining` bits to go. -/
def descend (t : Trie) (requested depth : Nat) : (remaining : Nat) → remaining ≤ depth →
    Pointer → List Pointer → Option (Pivot requested depth) → Descent requested depth
  | 0, _, current, pathNodes, pivot =>
      if (t.deref current).isLeaf then .blocked pivot else .target current pathNodes
  | bit + 1, hle, current, pathNodes, pivot =>
      let node := t.deref current
      let child := node.child (requested.testBit bit)
      let pathNodes := pathNodes ++ [current]
      let pivot :=
        if hpivot : requested.testBit bit = false ∧
            (node.child true).isNull = false ∧ (node.child true).hasFree = true then
          some ⟨current, bit, hle, hpivot.1⟩
        else pivot
      if child.isNull then .missing current pathNodes (bit + 1)
      else if !child.hasFree then .blocked pivot
      else
        descend t requested depth bit (Nat.le_of_succ_le hle)
          (current ++ [requested.testBit bit]) pathNodes pivot

/-- The loop of `AllocateAtTarget`: it creates the missing nodes, and stops where
`malloc` fails. -/
def createPath (malloc : Nat → Bool) (targetIp : Nat) :
    Nat → Trie → Pointer → Trie × Option Pointer
  | 0, t, traverse => (t, some traverse)
  | bit + 1, t, traverse =>
      let direction := targetIp.testBit bit
      if !((t.deref traverse).child direction).isNull then
        createPath malloc targetIp bit t (traverse ++ [direction])
      else if malloc bit then
        createPath malloc targetIp bit
          (t.modify (fun node => node.setChild direction .empty) traverse)
          (traverse ++ [direction])
      else (t, none)

/-- `AllocateAtTarget`. -/
def allocateAtTarget (malloc : Nat → Bool) (t : Trie) (current : Pointer)
    (pathNodes : List Pointer) (targetIp remaining : Nat) : Insertion :=
  match createPath malloc targetIp remaining t current with
  | (t', none) => ⟨t', .TRIE_ALLOC_FAILURE, none⟩
  | (t', some leaf) =>
      ⟨trieUpdateMetadata (t'.modify (Trie.setLeaf true) leaf) pathNodes,
        .TRIE_SUCCESS, some targetIp⟩

mutual

/-- `TRIEInsertHelper` at the node `root`, with `depth` bits below it. -/
def trieInsertHelper (malloc : Nat → Bool) (t : Trie) (root : Pointer)
    (requested depth : Nat) : Insertion :=
  match descend t requested depth depth (Nat.le_refl depth) root [] none with
  | .missing current pathNodes remaining =>
      allocateAtTarget malloc t current pathNodes requested remaining
  | .blocked pivot => findAndAllocateNextFree malloc t requested depth pivot
  | .target current pathNodes =>
      ⟨trieUpdateMetadata (t.modify (Trie.setLeaf true) current) pathNodes,
        .TRIE_SUCCESS, some requested⟩
termination_by 2 * zeroBits requested depth + 1

/-- `FindAndAllocateNextFree`: the search re-enters at the pivot with the pivot's
bit set in the blocked value, whose lower bits stay. -/
def findAndAllocateNextFree (malloc : Nat → Bool) (t : Trie) (baseIp depth : Nat) :
    Option (Pivot baseIp depth) → Insertion
  | none => ⟨t, .TRIE_NO_IP_AVAILABLE, none⟩
  | some pivot =>
      let result := trieInsertHelper malloc t pivot.node (baseIp ||| 1 <<< pivot.bit)
        (pivot.bit + 1)
      if result.status = .TRIE_SUCCESS then
        { result with status := .TRIE_IP_OCCUPIED_ALLOCATED_ANOTHER }
      else result
termination_by 2 * zeroBits baseIp depth
decreasing_by
  have hfewer := zeroBits_or_lt pivot.bit_lt pivot.bit_clear
  omega

end

/-- `TRIEInsert`. -/
def trieInsert (malloc : Nat → Bool) (t : Trie) (requested depth : Nat) : Insertion :=
  if t.isNull then ⟨t, .TRIE_ALLOC_FAILURE, none⟩
  else if !t.hasFree then ⟨t, .TRIE_NO_IP_AVAILABLE, none⟩
  else trieInsertHelper malloc t [] requested depth

end Dhcp
end InfinityLabs
