import InfinityLabs.Ds.AvlBalance
import Mathlib.Data.Nat.Fib.Basic
import Mathlib.Data.Nat.Log

/-!
# Walks over an AVL tree

`AVLForEach` walks over the whole tree, in one of three orders, until the action
returns a status that is not 0.  `FindRec` walks down one path.  A balanced tree of
height `h` has at least `fib (h + 2) - 1` nodes, so in the runs whose removals keep the
balance the path is logarithmic in the number of the members.
-/

namespace InfinityLabs
namespace Ds

open Lib

variable {α σ : Type}

namespace AvlNode

/-! ## Traversals -/

/-- `PreTraversalOrder`, with the action and its parameter. -/
def preTraversalOrder (actionFunc : α → σ → Int × σ) : AvlNode α → σ → Int × σ
  | .null, param => (0, param)
  | .node _ data left right, param =>
      let (status, param) := actionFunc data param
      if status ≠ 0 then (status, param)
      else
        let (status, param) := preTraversalOrder actionFunc left param
        if status ≠ 0 then (status, param)
        else preTraversalOrder actionFunc right param

/-- `InTraversalOrder`. -/
def inTraversalOrder (actionFunc : α → σ → Int × σ) : AvlNode α → σ → Int × σ
  | .null, param => (0, param)
  | .node _ data left right, param =>
      let (status, param) := inTraversalOrder actionFunc left param
      if status ≠ 0 then (status, param)
      else
        let (status, param) := actionFunc data param
        if status ≠ 0 then (status, param)
        else inTraversalOrder actionFunc right param

/-- `PostTraversalOrder`. -/
def postTraversalOrder (actionFunc : α → σ → Int × σ) : AvlNode α → σ → Int × σ
  | .null, param => (0, param)
  | .node _ data left right, param =>
      let (status, param) := postTraversalOrder actionFunc left param
      if status ≠ 0 then (status, param)
      else
        let (status, param) := postTraversalOrder actionFunc right param
        if status ≠ 0 then (status, param)
        else actionFunc data param

/-- The comparisons of `FindRec`. -/
def findCalls (cmp : α → α → Int) (data : α) : AvlNode α → Nat
  | .null => 0
  | .node _ nodeData left right =>
      let cmpRes := cmp data nodeData
      if cmpRes = 0 then 1
      else if cmpRes < 0 then 1 + findCalls cmp data left
      else 1 + findCalls cmp data right

end AvlNode

/-- The indices of `traversal_lut`. -/
inductive TraversalType where
  | AVL_PRE_ORDER
  | AVL_IN_ORDER
  | AVL_POST_ORDER
  deriving DecidableEq, Repr

/-- `AVLForEach`, with what the action leaves of its parameter. -/
def avlForEach (tree : Avl α) (traversalType : TraversalType) (actionFunc : α → σ → Int × σ)
    (param : σ) : Int × σ :=
  match traversalType with
  | .AVL_PRE_ORDER => tree.root.preTraversalOrder actionFunc param
  | .AVL_IN_ORDER => tree.root.inTraversalOrder actionFunc param
  | .AVL_POST_ORDER => tree.root.postTraversalOrder actionFunc param

/-- `AddOne`. -/
def Avl.addOne (_data : α) (param : Nat) : Int × Nat := (0, param + 1)

/-- `AVLCount`. -/
def avlCount (tree : Avl α) : Nat := (avlForEach tree .AVL_PRE_ORDER Avl.addOne 0).2

/-- `AVLHeight`. -/
def avlHeight (tree : Avl α) : Nat := tree.root.nodeHeight

/-! ## The walk over a list -/

/-- Apply the action to the elements in their order until it first returns a status that is
not 0. -/
def visitUntil (actionFunc : α → σ → Int × σ) : List α → σ → Int × σ
  | [], param => (0, param)
  | data :: rest, param =>
      let (status, param) := actionFunc data param
      if status ≠ 0 then (status, param) else visitUntil actionFunc rest param

section

variable {actionFunc : α → σ → Int × σ}

/-- The second part of a list is visited where the first one is passed. -/
theorem visitUntil_append (first second : List α) (param : σ) :
    visitUntil actionFunc (first ++ second) param =
      let (status, param) := visitUntil actionFunc first param
      if status ≠ 0 then (status, param) else visitUntil actionFunc second param := by
  induction first generalizing param with
  | nil => rfl
  | cons data first ih =>
      simp only [List.cons_append, visitUntil]
      split
      · rfl
      · exact ih _

theorem visitUntil_singleton (data : α) (param : σ) :
    visitUntil actionFunc [data] param = actionFunc data param := by
  simp only [visitUntil]
  split
  · rfl
  · rename_i hstatus
    exact Prod.ext (not_not.mp hstatus).symm rfl

/-- An action that counts passes every element. -/
theorem visitUntil_addOne (l : List α) (count : Nat) :
    visitUntil Avl.addOne l count = (0, count + l.length) := by
  induction l generalizing count with
  | nil => rfl
  | cons data l ih =>
      simp only [visitUntil, Avl.addOne, ne_eq, not_true_eq_false, if_false, ih, List.length_cons]
      rw [Nat.add_assoc, Nat.add_comm 1]

end

namespace AvlNode

/-- The data in the order of `PreTraversalOrder`. -/
def preorder : AvlNode α → List α
  | .null => []
  | .node _ data left right => data :: (left.preorder ++ right.preorder)

/-- The data in the order of `PostTraversalOrder`. -/
def postorder : AvlNode α → List α
  | .null => []
  | .node _ data left right => left.postorder ++ (right.postorder ++ [data])

variable {actionFunc : α → σ → Int × σ}

theorem preTraversalOrder_eq (t : AvlNode α) (param : σ) :
    t.preTraversalOrder actionFunc param = visitUntil actionFunc t.preorder param := by
  induction t generalizing param with
  | null => rfl
  | node height data left right ihl ihr =>
      simp only [preTraversalOrder, preorder, visitUntil, visitUntil_append, ihl, ihr]

theorem inTraversalOrder_eq (t : AvlNode α) (param : σ) :
    t.inTraversalOrder actionFunc param = visitUntil actionFunc t.inorder param := by
  induction t generalizing param with
  | null => rfl
  | node height data left right ihl ihr =>
      simp only [inTraversalOrder, inorder, visitUntil, visitUntil_append, ihl, ihr]

theorem postTraversalOrder_eq (t : AvlNode α) (param : σ) :
    t.postTraversalOrder actionFunc param = visitUntil actionFunc t.postorder param := by
  induction t generalizing param with
  | null => rfl
  | node height data left right ihl ihr =>
      simp only [postTraversalOrder, postorder, visitUntil_append, visitUntil_singleton, ihl, ihr]

/-- The three orders are orders of the same elements. -/
theorem preorder_perm (t : AvlNode α) : t.preorder.Perm t.inorder := by
  induction t with
  | null => exact .nil
  | node height data left right ihl ihr =>
      exact ((ihl.append ihr).cons data).trans List.perm_middle.symm

theorem postorder_perm (t : AvlNode α) : t.postorder.Perm t.inorder := by
  induction t with
  | null => exact .nil
  | node height data left right ihl ihr =>
      exact ihl.append ((ihr.append_right [data]).trans List.perm_append_comm)

/-! ## Paths -/

/-- A search follows one path down. -/
theorem findCalls_le_height (cmp : α → α → Int) (data : α) (t : AvlNode α) :
    t.findCalls cmp data ≤ t.height := by
  induction t with
  | null => exact Nat.le_refl 0
  | node height nodeData left right ihl ihr =>
      simp only [findCalls, AvlNode.height]
      split
      · omega
      · split
        · omega
        · omega

/-- What two sides that are near each other have between them. -/
theorem fib_max_le {a b : Nat} (hab : a ≤ b + 1) (hba : b ≤ a + 1) :
    Nat.fib (1 + max a b + 2) ≤ Nat.fib (a + 2) + Nat.fib (b + 2) := by
  have hnext : ∀ n, Nat.fib (n + 3) = Nat.fib (n + 1) + Nat.fib (n + 2) := fun n =>
    Nat.fib_add_two
  rcases Nat.le_total a b with hle | hle
  · have hmono : Nat.fib (b + 1) ≤ Nat.fib (a + 2) := Nat.fib_mono (by omega)
    rw [max_eq_right hle, show 1 + b + 2 = b + 3 by omega, hnext]
    omega
  · have hmono : Nat.fib (a + 1) ≤ Nat.fib (b + 2) := Nat.fib_mono (by omega)
    rw [max_eq_left hle, show 1 + a + 2 = a + 3 by omega, hnext]
    omega

/-- A balanced tree has many nodes: one side has the height less one, the other one the
height less two at least. -/
theorem fib_height_le {t : AvlNode α} (ht : t.Balanced) :
    Nat.fib (t.height + 2) ≤ t.inorder.length + 1 := by
  induction t with
  | null => exact Nat.le_refl 1
  | node height data left right ihl ihr =>
      obtain ⟨hlr, hrl, hleft, hright⟩ := ht
      have hlength : (node height data left right).inorder.length =
          left.inorder.length + right.inorder.length + 1 := by
        simp [inorder, Nat.add_assoc]
      have hsides := fib_max_le hlr hrl
      have hl := ihl hleft
      have hr := ihr hright
      rw [AvlNode.height, hlength]
      omega

end AvlNode

/-- Two levels double a Fibonacci number at least. -/
theorem two_pow_le_fib (h : Nat) : 2 ^ (h / 2) ≤ Nat.fib (h + 2) := by
  induction h using Nat.twoStepInduction with
  | zero => decide
  | one => decide
  | more h ih _ =>
      have hstep : Nat.fib (h + 2 + 2) = Nat.fib (h + 2) + Nat.fib (h + 2 + 1) := Nat.fib_add_two
      have hmono : Nat.fib (h + 2) ≤ Nat.fib (h + 2 + 1) := Nat.fib_le_fib_succ
      rw [show (h + 2) / 2 = h / 2 + 1 by omega, Nat.pow_succ]
      omega

/-! ## Runs -/

/-- The order of a traversal. -/
def AvlNode.order (t : AvlNode α) : TraversalType → List α
  | .AVL_PRE_ORDER => t.preorder
  | .AVL_IN_ORDER => t.inorder
  | .AVL_POST_ORDER => t.postorder

variable {C : Comparator α} {s : AvlState α}

theorem avlForEach_eq (tree : Avl α) (traversalType : TraversalType)
    (actionFunc : α → σ → Int × σ) (param : σ) :
    avlForEach tree traversalType actionFunc param =
      visitUntil actionFunc (tree.root.order traversalType) param := by
  cases traversalType with
  | AVL_PRE_ORDER => exact tree.root.preTraversalOrder_eq param
  | AVL_IN_ORDER => exact tree.root.inTraversalOrder_eq param
  | AVL_POST_ORDER => exact tree.root.postTraversalOrder_eq param

/-- Every order is one of the members. -/
theorem AvlState.Wf.order_perm (hs : s.Wf C) (traversalType : TraversalType) :
    (s.tree.root.order traversalType).Perm s.members := by
  cases traversalType with
  | AVL_PRE_ORDER => exact s.tree.root.preorder_perm.trans hs.members
  | AVL_IN_ORDER => exact hs.members
  | AVL_POST_ORDER => exact s.tree.root.postorder_perm.trans hs.members

theorem AvlState.Wf.avlCount (hs : s.Wf C) : avlCount s.tree = s.members.length := by
  rw [Ds.avlCount, avlForEach_eq, visitUntil_addOne, Nat.zero_add]
  exact (hs.order_perm .AVL_PRE_ORDER).length_eq

/-- After every run of insertions and removals each traversal applies the action to the members,
to each once, until it first returns a status that is not 0, which is the result; in order the
members ascend.  `AVLCount` counts the members. -/
theorem avl_forEach (C : Comparator α) (hreached : (avlMachine C).Reached s)
    (traversalType : TraversalType) :
    (∃ order : List α, order.Perm s.members ∧
      (traversalType = .AVL_IN_ORDER → C.Sorted order) ∧
      ∀ (σ : Type) (actionFunc : α → σ → Int × σ) (param : σ),
        avlForEach s.tree traversalType actionFunc param = visitUntil actionFunc order param) ∧
      avlCount s.tree = s.members.length := by
  have hs := avlMachine_wf hreached
  refine ⟨⟨s.tree.root.order traversalType, hs.order_perm traversalType, ?_, fun σ =>
    avlForEach_eq s.tree traversalType⟩, hs.avlCount⟩
  rintro rfl
  exact hs.sorted

/-- **Searches are logarithmic** in the runs whose removals keep the balance: `AVLFind` compares
no more often than the tree is high, and a tree of height `h` has `fib (h + 2) - 1` members at
least. -/
theorem avl_find_logarithmic (C : Comparator α)
    (hreached : (avlMachine C).ReachedBy (fun s a => s.keepsBalance C a = true) s) :
    (∀ data, s.tree.root.findCalls s.tree.cmp data ≤ avlHeight s.tree) ∧
      Nat.fib (avlHeight s.tree + 2) ≤ avlCount s.tree + 1 ∧
      avlHeight s.tree ≤ 2 * Nat.log 2 (avlCount s.tree + 1) + 1 := by
  have hs := avlMachine_wf hreached
  have hbalanced : s.tree.root.Balanced := by
    induction hreached with
    | start hstart =>
        obtain rfl := hstart
        exact trivial
    | step hreached hguard hstep ih =>
        have hbefore := avlMachine_wf hreached
        exact (hbefore.balanced_iff (ih hbefore) hstep).mpr hguard
  have hheight : avlHeight s.tree = s.tree.root.height := hs.exact.nodeHeight
  have hfib : Nat.fib (avlHeight s.tree + 2) ≤ avlCount s.tree + 1 := by
    rw [hheight, hs.avlCount, ← hs.members.length_eq]
    exact AvlNode.fib_height_le hbalanced
  refine ⟨fun data => ?_, hfib, ?_⟩
  · rw [hheight]
    exact AvlNode.findCalls_le_height _ _ _
  · have hlog : avlHeight s.tree / 2 ≤ Nat.log 2 (avlCount s.tree + 1) :=
      Nat.le_log_of_pow_le Nat.one_lt_two (Nat.le_trans (two_pow_le_fib _) hfib)
    omega

/-- Three members in order, the walk stopped at the second one. -/
theorem avl_forEach_sample :
    ∃ s : AvlState Nat, (avlMachine natural).Reached s ∧
      avlForEach s.tree .AVL_IN_ORDER
        (fun data (seen : List Nat) => (if data = 2 then 7 else 0, seen ++ [data])) [] =
          (7, [1, 2]) ∧
      avlCount s.tree = s.members.length := by
  have hstart : (avlMachine natural).Reached ⟨avlCreate natural.cmp, []⟩ := .start rfl
  have hrun : ((avlMachine natural).run ⟨avlCreate natural.cmp, []⟩
      [.insert 3, .insert 1, .insert 2]).map (fun s => avlForEach s.tree .AVL_IN_ORDER
        (fun data (seen : List Nat) => (if data = 2 then 7 else 0, seen ++ [data])) []) =
        some (7, [1, 2]) := by decide
  obtain ⟨s, hs, hshown⟩ := hstart.run_map hrun
  exact ⟨s, hs, hshown, (avl_forEach natural hs .AVL_IN_ORDER).2⟩

/-- Seven insertions in ascending order make a tree of height 3. -/
theorem avl_find_logarithmic_sample :
    ∃ s : AvlState Nat, avlHeight s.tree = 3 ∧
      Nat.fib (avlHeight s.tree + 2) ≤ avlCount s.tree + 1 := by
  have hstart : (avlMachine natural).ReachedBy
      (fun s a => s.keepsBalance natural a = true) ⟨avlCreate natural.cmp, []⟩ := .start rfl
  have hadmits : (avlMachine natural).Admits (fun s a => s.keepsBalance natural a = true)
      ⟨avlCreate natural.cmp, []⟩
      [.insert 1, .insert 2, .insert 3, .insert 4, .insert 5, .insert 6, .insert 7] :=
    ⟨rfl, rfl, rfl, rfl, rfl, rfl, rfl, trivial⟩
  have hrun : ((avlMachine natural).run ⟨avlCreate natural.cmp, []⟩
      [.insert 1, .insert 2, .insert 3, .insert 4, .insert 5, .insert 6, .insert 7]).map
        (fun s => avlHeight s.tree) = some 3 := by decide
  obtain ⟨s, hs, hshown⟩ := hstart.run_map hadmits hrun
  exact ⟨s, hshown, (avl_find_logarithmic natural hs).2.1⟩

end Ds
end InfinityLabs
