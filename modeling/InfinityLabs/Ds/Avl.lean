import Mathlib.Tactic.Common

/-!
# The AVL tree

`ds/src/avl.c`.  A node carries the height that the code stores in it; whether this is
the height of its subtree is a question for the theorems.

The code reads the children of a node without a test in `BalanceFactor` and in the
rotations.  Such a step is `none` here where the child is missing, and so is a failed
assertion; `some` says that the code gets through.
-/

namespace InfinityLabs
namespace Ds

/-- An `avl_node_t*`. -/
inductive AvlNode (α : Type) where
  | null
  | node (height : Nat) (data : α) (left right : AvlNode α)
  deriving DecidableEq, Repr

namespace AvlNode

variable {α : Type}

/-! ## Heights -/

/-- `NodeHeight`. -/
def nodeHeight : AvlNode α → Nat
  | .null => 0
  | .node height _ _ _ => height

/-- `FixHeight`, which the code calls on nodes only. -/
def fixHeight : AvlNode α → AvlNode α
  | .null => .null
  | .node _ data left right =>
      .node (1 + max left.nodeHeight right.nodeHeight) data left right

/-- `BalanceFactor`. -/
def balanceFactor : AvlNode α → Option Int
  | .null => none
  | .node _ _ left right => some ((left.nodeHeight : Int) - right.nodeHeight)

/-! ## Rotations -/

/-- `RotateLeft`. -/
def rotateLeft : AvlNode α → Option (AvlNode α)
  | .node height data left (.node rightHeight rightData rightLeft rightRight) =>
      some (fixHeight (.node rightHeight rightData
        (fixHeight (.node height data left rightLeft)) rightRight))
  | _ => none

/-- `RotateRight`. -/
def rotateRight : AvlNode α → Option (AvlNode α)
  | .node height data (.node leftHeight leftData leftLeft leftRight) right =>
      some (fixHeight (.node leftHeight leftData leftLeft
        (fixHeight (.node height data leftRight right))))
  | _ => none

/-- `Rebalance`. -/
def rebalance : AvlNode α → Option (AvlNode α)
  | .null => none
  | .node height data left right => do
      let balance ← balanceFactor (.node height data left right)
      if balance > 1 then
        let leftBalance ← left.balanceFactor
        if leftBalance < 0 then
          let left ← left.rotateLeft
          rotateRight (.node height data left right)
        else rotateRight (.node height data left right)
      else if balance < -1 then
        let rightBalance ← right.balanceFactor
        if rightBalance > 0 then
          let right ← right.rotateRight
          rotateLeft (.node height data left right)
        else rotateLeft (.node height data left right)
      else some (.node height data left right)

/-! ## Search, insertion and removal -/

/-- `CreateNode`, where `malloc` succeeds. -/
def createNode (data : α) : AvlNode α := .node 1 data .null .null

section

variable (cmp : α → α → Int) (data : α)

/-- `FindRec`. -/
def findRec : AvlNode α → Option α
  | .null => none
  | .node _ nodeData left right =>
      let cmpRes := cmp data nodeData
      if cmpRes = 0 then some nodeData
      else if cmpRes < 0 then findRec left
      else findRec right

/-- `InsertRec`, with the status that it leaves; an equal element fails its assertion. -/
def insertRec (malloc : Bool) : AvlNode α → Option (AvlNode α × Int)
  | .null => if malloc then some (createNode data, 0) else some (.null, -1)
  | .node height nodeData left right =>
      let cmpRes := cmp data nodeData
      if cmpRes = 0 then none
      else if cmpRes < 0 then do
        let (left, status) ← insertRec malloc left
        let subRoot ← rebalance (fixHeight (.node height nodeData left right))
        some (subRoot, status)
      else do
        let (right, status) ← insertRec malloc right
        let subRoot ← rebalance (fixHeight (.node height nodeData left right))
        some (subRoot, status)

/-- `PopMin`, with the data of the node that it takes out.  It repairs heights on its way
back and does not rebalance. -/
def popMin : AvlNode α → AvlNode α × Option α
  | .null => (.null, none)
  | .node _ nodeData .null right => (right, some nodeData)
  | .node height nodeData (.node leftHeight leftData leftLeft leftRight) right =>
      let (left, minOut) := popMin (.node leftHeight leftData leftLeft leftRight)
      (fixHeight (.node height nodeData left right), minOut)

/-- `RemoveRec`. -/
def removeRec : AvlNode α → Option (AvlNode α)
  | .null => some .null
  | .node height nodeData left right =>
      let cmpRes := cmp data nodeData
      if cmpRes < 0 then do
        let left ← removeRec left
        rebalance (fixHeight (.node height nodeData left right))
      else if cmpRes > 0 then do
        let right ← removeRec right
        rebalance (fixHeight (.node height nodeData left right))
      else
        match left, right with
        | .null, right => some right
        | left, .null => some left
        | left, right => do
            let (right, successor) := popMin right
            let successorData ← successor
            rebalance (fixHeight (.node height successorData left right))

end

end AvlNode

/-! ## The tree -/

/-- An `avl_t`. -/
structure Avl (α : Type) where
  root : AvlNode α
  cmp : α → α → Int

variable {α : Type}

/-- `AVLCreate`. -/
def avlCreate (cmp : α → α → Int) : Avl α := ⟨.null, cmp⟩

/-- `AVLInsert`, with its status. -/
def avlInsert (malloc : Bool) (tree : Avl α) (data : α) : Option (Avl α × Int) := do
  let (root, status) ← AvlNode.insertRec tree.cmp data malloc tree.root
  some ({ tree with root := root }, status)

/-- `AVLRemove`. -/
def avlRemove (tree : Avl α) (data : α) : Option (Avl α) := do
  let root ← AvlNode.removeRec tree.cmp data tree.root
  some { tree with root := root }

/-- `AVLFind`. -/
def avlFind (tree : Avl α) (data : α) : Option α :=
  AvlNode.findRec tree.cmp data tree.root

/-!
## The shape of an AVL tree

Next to the height that a node stores stands the height of its subtree.  Where every
stored height is right, `Rebalance` finds each child that it reads, and it is one of the
five rearrangements of `Rebalanced`: none, two single rotations and two double ones.
-/
namespace AvlNode

/-! ## Heights -/

/-- The number of nodes on the longest path down. -/
def height : AvlNode α → Nat
  | .null => 0
  | .node _ _ left right => 1 + max left.height right.height

/-- Every stored height is the height of its subtree. -/
def Exact : AvlNode α → Prop
  | .null => True
  | .node storedHeight _ left right =>
      storedHeight = 1 + max left.height right.height ∧ left.Exact ∧ right.Exact

/-- The data from left to right. -/
def inorder : AvlNode α → List α
  | .null => []
  | .node _ data left right => left.inorder ++ data :: right.inorder

/-- A node that stores the height of its subtree. -/
def sized (data : α) (left right : AvlNode α) : AvlNode α :=
  .node (1 + max left.height right.height) data left right

@[simp] theorem height_null : (null : AvlNode α).height = 0 := rfl

/-- A node has a height. -/
theorem height_node_pos (storedHeight : Nat) (data : α) (left right : AvlNode α) :
    0 < (node storedHeight data left right).height := by
  rw [height]
  omega

@[simp] theorem height_sized (data : α) (left right : AvlNode α) :
    (sized data left right).height = 1 + max left.height right.height := rfl

@[simp] theorem inorder_null : (null : AvlNode α).inorder = [] := rfl

@[simp] theorem inorder_sized (data : α) (left right : AvlNode α) :
    (sized data left right).inorder = left.inorder ++ data :: right.inorder := rfl

@[simp] theorem exact_sized (data : α) (left right : AvlNode α) :
    (sized data left right).Exact ↔ left.Exact ∧ right.Exact :=
  and_iff_right rfl

/-- In an exact tree the stored height is the height. -/
theorem Exact.nodeHeight {t : AvlNode α} (ht : t.Exact) : t.nodeHeight = t.height := by
  cases t with
  | null => rfl
  | node storedHeight data left right => exact ht.1

/-- An exact tree with a height has a node. -/
theorem Exact.eq_sized {t : AvlNode α} (ht : t.Exact) (hpos : 0 < t.height) :
    ∃ data left right, t = sized data left right ∧ left.Exact ∧ right.Exact := by
  cases t with
  | null => cases hpos
  | node storedHeight data left right =>
      obtain ⟨rfl, hleft, hright⟩ := ht
      exact ⟨data, left, right, rfl, hleft, hright⟩

/-- `FixHeight` over exact children stores the height. -/
theorem fixHeight_node (storedHeight : Nat) (data : α) {left right : AvlNode α}
    (hleft : left.Exact) (hright : right.Exact) :
    fixHeight (.node storedHeight data left right) = sized data left right := by
  rw [fixHeight, hleft.nodeHeight, hright.nodeHeight, sized]

/-- `BalanceFactor` of an exact node. -/
theorem balanceFactor_sized (data : α) {left right : AvlNode α} (hleft : left.Exact)
    (hright : right.Exact) :
    balanceFactor (sized data left right) = some ((left.height : Int) - right.height) := by
  rw [sized, balanceFactor, hleft.nodeHeight, hright.nodeHeight]

/-! ## Rotations -/

/-- `RotateLeft` of an exact node with a right child. -/
theorem rotateLeft_sized (storedHeight : Nat) (data data' : α) {left a b : AvlNode α}
    (hleft : left.Exact) (ha : a.Exact) (hb : b.Exact) :
    rotateLeft (.node storedHeight data left (sized data' a b)) =
      some (sized data' (sized data left a) b) := by
  rw [sized, rotateLeft, fixHeight_node _ _ hleft ha,
    fixHeight_node _ _ ((exact_sized _ _ _).mpr ⟨hleft, ha⟩) hb]

/-- `RotateRight` of an exact node with a left child. -/
theorem rotateRight_sized (storedHeight : Nat) (data data' : α) {a b right : AvlNode α}
    (ha : a.Exact) (hb : b.Exact) (hright : right.Exact) :
    rotateRight (.node storedHeight data (sized data' a b) right) =
      some (sized data' a (sized data b right)) := by
  rw [sized, rotateRight, fixHeight_node _ _ hb hright,
    fixHeight_node _ _ ha ((exact_sized _ _ _).mpr ⟨hb, hright⟩)]

/-- What `Rebalance` makes of a node with the data `x` and exact children. -/
inductive Rebalanced (x : α) : AvlNode α → AvlNode α → AvlNode α → Prop
  | kept {left right : AvlNode α} (hleft : left.height ≤ right.height + 1)
      (hright : right.height ≤ left.height + 1) :
      Rebalanced x left right (sized x left right)
  | right {y : α} {a b right : AvlNode α}
      (htall : right.height + 1 < (sized y a b).height) (hlean : b.height ≤ a.height) :
      Rebalanced x (sized y a b) right (sized y a (sized x b right))
  | leftRight {y z : α} {a b c right : AvlNode α}
      (htall : right.height + 1 < (sized y a (sized z b c)).height)
      (hlean : a.height < (sized z b c).height) :
      Rebalanced x (sized y a (sized z b c)) right
        (sized z (sized y a b) (sized x c right))
  | left {y : α} {left a b : AvlNode α}
      (htall : left.height + 1 < (sized y a b).height) (hlean : a.height ≤ b.height) :
      Rebalanced x left (sized y a b) (sized y (sized x left a) b)
  | rightLeft {y z : α} {left a b c : AvlNode α}
      (htall : left.height + 1 < (sized y (sized z a b) c).height)
      (hlean : c.height < (sized z a b).height) :
      Rebalanced x left (sized y (sized z a b) c)
        (sized z (sized x left a) (sized y b c))

/-- **No rotation follows a missing child**: over exact children `Rebalance` is one of the
five rearrangements. -/
theorem rebalance_spec (x : α) {left right : AvlNode α} (hleft : left.Exact)
    (hright : right.Exact) :
    ∃ t, rebalance (sized x left right) = some t ∧ Rebalanced x left right t := by
  have hfactor := balanceFactor_sized x hleft hright
  by_cases hlong : right.height + 1 < left.height
  · obtain ⟨y, a, b, rfl, ha, hb⟩ := hleft.eq_sized (by omega)
    have hbalance : (((sized y a b).height : Int) - right.height) > 1 := by omega
    by_cases hlean : a.height < b.height
    · -- the left child leans to the right, so it is rotated first
      obtain ⟨z, b, c, rfl, hb, hc⟩ := hb.eq_sized (by omega)
      refine ⟨_, ?_, .leftRight hlong hlean⟩
      have hinner := rotateLeft_sized (1 + max a.height (sized z b c).height) y z ha hb hc
      have houter := rotateRight_sized
        (1 + max (sized y a (sized z b c)).height right.height) x z
        ((exact_sized y a b).mpr ⟨ha, hb⟩) hc hright
      have hleaning : (a.height : Int) - (sized z b c).height < 0 := by omega
      rw [sized] at hfactor ⊢
      simp only [rebalance, hfactor, Option.bind_eq_bind, Option.bind_some, hbalance, if_true,
        balanceFactor_sized y ha ((exact_sized z b c).mpr ⟨hb, hc⟩), hleaning]
      rw [show sized y a (sized z b c) = .node (1 + max a.height (sized z b c).height) y a
        (sized z b c) from rfl, hinner]
      exact houter
    · refine ⟨_, ?_, .right hlong (Nat.not_lt.mp hlean)⟩
      have houter := rotateRight_sized (1 + max (sized y a b).height right.height) x y
        ha hb hright
      have hleaning : ¬ (a.height : Int) - b.height < 0 := by omega
      rw [sized] at hfactor ⊢
      simp only [rebalance, hfactor, Option.bind_eq_bind, Option.bind_some, hbalance, if_true,
        balanceFactor_sized y ha hb, hleaning, if_false]
      exact houter
  · by_cases hlong' : left.height + 1 < right.height
    · obtain ⟨y, a, b, rfl, ha, hb⟩ := hright.eq_sized (by omega)
      have hbalance : ¬ ((left.height : Int) - (sized y a b).height) > 1 := by omega
      have hbalance' : ((left.height : Int) - (sized y a b).height) < -1 := by omega
      by_cases hlean : b.height < a.height
      · -- the right child leans to the left, so it is rotated first
        obtain ⟨z, a, c, rfl, ha, hc⟩ := ha.eq_sized (by omega)
        refine ⟨_, ?_, .rightLeft hlong' hlean⟩
        have hinner := rotateRight_sized (1 + max (sized z a c).height b.height) y z ha hc hb
        have houter := rotateLeft_sized
          (1 + max left.height (sized y (sized z a c) b).height) x z
          hleft ha ((exact_sized y c b).mpr ⟨hc, hb⟩)
        have hleaning : ((sized z a c).height : Int) - b.height > 0 := by omega
        rw [sized] at hfactor ⊢
        simp only [rebalance, hfactor, Option.bind_eq_bind, Option.bind_some, hbalance,
          hbalance', if_true, if_false,
          balanceFactor_sized y ((exact_sized z a c).mpr ⟨ha, hc⟩) hb, hleaning]
        rw [show sized y (sized z a c) b = .node (1 + max (sized z a c).height b.height) y
          (sized z a c) b from rfl, hinner]
        exact houter
      · refine ⟨_, ?_, .left hlong' (Nat.not_lt.mp hlean)⟩
        have houter := rotateLeft_sized (1 + max left.height (sized y a b).height) x y
          hleft ha hb
        have hleaning : ¬ (a.height : Int) - b.height > 0 := by omega
        rw [sized] at hfactor ⊢
        simp only [rebalance, hfactor, Option.bind_eq_bind, Option.bind_some, hbalance,
          hbalance', if_true, balanceFactor_sized y ha hb, hleaning, if_false]
        exact houter
    · refine ⟨_, ?_, .kept (Nat.not_lt.mp hlong) (Nat.not_lt.mp hlong')⟩
      have hbalance : ¬ ((left.height : Int) - right.height) > 1 := by omega
      have hbalance' : ¬ ((left.height : Int) - right.height) < -1 := by omega
      rw [sized] at hfactor ⊢
      simp only [rebalance, hfactor, Option.bind_eq_bind, Option.bind_some, hbalance,
        hbalance', if_false]

/-- A rearrangement keeps the data in their order. -/
theorem Rebalanced.inorder {x : α} {left right t : AvlNode α} (h : Rebalanced x left right t) :
    t.inorder = left.inorder ++ x :: right.inorder := by
  cases h <;> simp

/-- A rearrangement of exact children is exact. -/
theorem Rebalanced.exact {x : α} {left right t : AvlNode α} (h : Rebalanced x left right t)
    (hleft : left.Exact) (hright : right.Exact) : t.Exact := by
  cases h <;> simp_all

/-! ## Insertion -/

section

variable (cmp : α → α → Int) (data : α)

/-- What an insertion of an element without an equal in the tree makes of the tree. -/
inductive Inserted : AvlNode α → AvlNode α → Prop
  | here : Inserted .null (sized data .null .null)
  | left {x : α} {left right left' t : AvlNode α} (hbelow : cmp data x < 0)
      (hrest : Inserted left left') (hbalance : Rebalanced x left' right t) :
      Inserted (sized x left right) t
  | right {x : α} {left right right' t : AvlNode α} (habove : 0 < cmp data x)
      (hrest : Inserted right right') (hbalance : Rebalanced x left right' t) :
      Inserted (sized x left right) t

/-- **Insertions succeed**: with memory `InsertRec` gets through, and leaves an exact tree. -/
theorem insertRec_spec {t : AvlNode α} (ht : t.Exact) (hfresh : ∀ y ∈ t.inorder, cmp data y ≠ 0) :
    ∃ t', insertRec cmp data true t = some (t', 0) ∧ t'.Exact ∧ Inserted cmp data t t' := by
  induction t with
  | null => exact ⟨_, rfl, ⟨rfl, trivial, trivial⟩, .here⟩
  | node storedHeight x left right ihLeft ihRight =>
      obtain ⟨rfl, hleft, hright⟩ := ht
      have hne : cmp data x ≠ 0 := hfresh x (by simp [inorder])
      rw [insertRec]
      simp only [hne, if_false]
      by_cases hbelow : cmp data x < 0
      · obtain ⟨left', hinsert, hleft', hrest⟩ :=
          ihLeft hleft fun y hy => hfresh y (by simp [inorder, hy])
        obtain ⟨t, hrebalance, hbalance⟩ := rebalance_spec x hleft' hright
        refine ⟨t, ?_, hbalance.exact hleft' hright, .left hbelow hrest hbalance⟩
        simp [hbelow, hinsert, fixHeight_node _ x hleft' hright, hrebalance]
      · obtain ⟨right', hinsert, hright', hrest⟩ :=
          ihRight hright fun y hy => hfresh y (by simp [inorder, hy])
        obtain ⟨t, hrebalance, hbalance⟩ := rebalance_spec x hleft hright'
        refine ⟨t, ?_, hbalance.exact hleft hright', .right (by omega) hrest hbalance⟩
        simp [hbelow, hinsert, fixHeight_node _ x hleft hright', hrebalance]

/-! ## Removal -/

/-- What `PopMin` makes of a tree, and the data that it takes out. -/
inductive Popped : AvlNode α → AvlNode α → α → Prop
  | here {x : α} {right : AvlNode α} : Popped (sized x .null right) right x
  | left {x minimum : α} {left right left' : AvlNode α} (hrest : Popped left left' minimum) :
      Popped (sized x left right) (sized x left' right) minimum

/-- `PopMin` of a node takes out its leftmost data, and leaves an exact tree. -/
theorem popMin_spec {t : AvlNode α} (ht : t.Exact) (hpos : 0 < t.height) :
    ∃ t' minimum, popMin t = (t', some minimum) ∧ t'.Exact ∧ Popped t t' minimum := by
  induction t with
  | null => cases hpos
  | node storedHeight x left right ihLeft _ =>
      obtain ⟨rfl, hleft, hright⟩ := ht
      cases left with
      | null => exact ⟨right, x, rfl, hright, .here⟩
      | node leftHeight y a b =>
          obtain ⟨left', minimum, hpop, hleft', hrest⟩ :=
            ihLeft hleft (height_node_pos leftHeight y a b)
          refine ⟨sized x left' right, minimum, ?_,
            (exact_sized _ _ _).mpr ⟨hleft', hright⟩, .left hrest⟩
          rw [popMin, hpop]
          exact congrArg (fun t => (t, some minimum)) (fixHeight_node _ x hleft' hright)

/-- What a removal makes of the tree. -/
inductive Removed : AvlNode α → AvlNode α → Prop
  | absent : Removed .null .null
  | left {x : α} {left right left' t : AvlNode α} (hbelow : cmp data x < 0)
      (hrest : Removed left left') (hbalance : Rebalanced x left' right t) :
      Removed (sized x left right) t
  | right {x : α} {left right right' t : AvlNode α} (habove : 0 < cmp data x)
      (hrest : Removed right right') (hbalance : Rebalanced x left right' t) :
      Removed (sized x left right) t
  | noLeft {x : α} {right : AvlNode α} (hequal : cmp data x = 0) :
      Removed (sized x .null right) right
  | noRight {x : α} {left : AvlNode α} (hequal : cmp data x = 0) (hleft : 0 < left.height) :
      Removed (sized x left .null) left
  | both {x minimum : α} {left right right' t : AvlNode α} (hequal : cmp data x = 0)
      (hleft : 0 < left.height) (hpop : Popped right right' minimum)
      (hbalance : Rebalanced minimum left right' t) : Removed (sized x left right) t

/-- **Removals succeed**: `RemoveRec` gets through, and leaves an exact tree. -/
theorem removeRec_spec {t : AvlNode α} (ht : t.Exact) :
    ∃ t', removeRec cmp data t = some t' ∧ t'.Exact ∧ Removed cmp data t t' := by
  induction t with
  | null => exact ⟨.null, rfl, trivial, .absent⟩
  | node storedHeight x left right ihLeft ihRight =>
      obtain ⟨rfl, hleft, hright⟩ := ht
      by_cases hbelow : cmp data x < 0
      · obtain ⟨left', hremove, hleft', hrest⟩ := ihLeft hleft
        obtain ⟨t, hrebalance, hbalance⟩ := rebalance_spec x hleft' hright
        refine ⟨t, ?_, hbalance.exact hleft' hright, .left hbelow hrest hbalance⟩
        simp [removeRec, hbelow, hremove, fixHeight_node _ x hleft' hright, hrebalance]
      · by_cases habove : 0 < cmp data x
        · obtain ⟨right', hremove, hright', hrest⟩ := ihRight hright
          obtain ⟨t, hrebalance, hbalance⟩ := rebalance_spec x hleft hright'
          refine ⟨t, ?_, hbalance.exact hleft hright', .right habove hrest hbalance⟩
          simp [removeRec, hbelow, habove, hremove, fixHeight_node _ x hleft hright', hrebalance]
        · have hequal : cmp data x = 0 := by omega
          -- found: the cases of the children
          cases left with
          | null => exact ⟨right, by simp [removeRec, hequal], hright, .noLeft hequal⟩
          | node leftHeight y a b =>
              have hpos := height_node_pos leftHeight y a b
              cases right with
              | null =>
                  exact ⟨_, by simp [removeRec, hequal], hleft, .noRight hequal hpos⟩
              | node rightHeight z c d =>
                  obtain ⟨right', minimum, hpop, hright', hpopped⟩ :=
                    popMin_spec hright (height_node_pos rightHeight z c d)
                  obtain ⟨t, hrebalance, hbalance⟩ := rebalance_spec minimum hleft hright'
                  refine ⟨t, ?_, hbalance.exact hleft hright', .both hequal hpos hpopped hbalance⟩
                  simp [removeRec, hequal, hpop, fixHeight_node _ minimum hleft hright',
                    hrebalance]

end

end AvlNode
end Ds
end InfinityLabs
