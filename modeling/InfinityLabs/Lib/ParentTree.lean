import Mathlib.Data.List.Nodup
import Mathlib.Logic.Function.Basic

/-!
# Trees with parent links in a memory

A node has a parent, two children and data; 0 is the null pointer.  The root hangs off the left
child of a stub, which has no parent and is its own right child.  A tree that a memory stores
is described with the addresses of its nodes, and a place in it by the frames between the place
and the stub, the innermost first.

`hang` makes a node the child of another.  It takes a tree into any place whose frames are
stored, which is all that insertion and removal do.
-/

namespace InfinityLabs
namespace Lib
namespace ParentTree

/-- A node in memory. -/
structure TreeNode (α : Type) where
  parent : Nat
  left : Nat
  right : Nat
  data : Option α
  deriving DecidableEq, Repr

/-- The nodes at their addresses. -/
structure TreeMemory (α : Type) where
  node? : Nat → Option (TreeNode α)

/-- A tree with the addresses of its nodes. -/
inductive PlacedTree (α : Type) where
  | null
  | node (left : PlacedTree α) (address : Nat) (data : α) (right : PlacedTree α)

/-- A child of a node. -/
inductive Side where
  | left
  | right
  deriving DecidableEq, Repr

variable {α : Type}

/-! ## Trees -/

namespace PlacedTree

/-- The pointer to the tree. -/
def root : PlacedTree α → Nat
  | null => 0
  | node _ address _ _ => address

@[simp] theorem root_node (left right : PlacedTree α) (address : Nat) (data : α) :
    (node left address data right).root = address := rfl

/-- The addresses and data in their order. -/
def inorder : PlacedTree α → List (Nat × α)
  | null => []
  | node left address data right => left.inorder ++ (address, data) :: right.inorder

/-- The addresses in their order. -/
def addresses (t : PlacedTree α) : List Nat := t.inorder.map Prod.fst

@[simp] theorem addresses_null : (null : PlacedTree α).addresses = [] := rfl

@[simp] theorem addresses_node (left right : PlacedTree α) (address : Nat) (data : α) :
    (node left address data right).addresses =
      left.addresses ++ address :: right.addresses := by
  rw [addresses, inorder, List.map_append, List.map_cons]
  rfl

/-- The root of a tree is one of its addresses. -/
theorem root_mem {t : PlacedTree α} (h : t.root ≠ 0) : t.root ∈ t.addresses := by
  cases t with
  | null => exact absurd rfl h
  | node left address data right =>
      rw [addresses_node]
      exact List.mem_append_right _ List.mem_cons_self

end PlacedTree

/-- A node around a place: the place is its left or its right child, the other child is a
tree. -/
inductive TreeFrame (α : Type) where
  | left (address : Nat) (data : α) (sibling : PlacedTree α)
  | right (sibling : PlacedTree α) (address : Nat) (data : α)

namespace TreeFrame

/-- The node of the frame. -/
def address : TreeFrame α → Nat
  | left address _ _ => address
  | right _ address _ => address

/-- The data of the node of the frame. -/
def data : TreeFrame α → α
  | left _ data _ => data
  | right _ _ data => data

/-- The other child. -/
def sibling : TreeFrame α → PlacedTree α
  | left _ _ sibling => sibling
  | right sibling _ _ => sibling

/-- Which child of its node the place is. -/
def side : TreeFrame α → Side
  | left .. => .left
  | right .. => .right

/-- The frame with a tree in its place. -/
def plug : TreeFrame α → PlacedTree α → PlacedTree α
  | left address data sibling, t => .node t address data sibling
  | right sibling address data, t => .node sibling address data t

/-- The node of the frame in memory, with what is in its place. -/
def cell : TreeFrame α → Nat → Nat → TreeNode α
  | left _ data sibling, parent, hole =>
      { parent, left := hole, right := sibling.root, data := some data }
  | right sibling _ data, parent, hole =>
      { parent, left := sibling.root, right := hole, data := some data }

/-- What the frame has before its place in order. -/
def before : TreeFrame α → List (Nat × α)
  | left .. => []
  | right sibling address data => sibling.inorder ++ [(address, data)]

/-- What the frame has after its place in order. -/
def after : TreeFrame α → List (Nat × α)
  | left address data sibling => (address, data) :: sibling.inorder
  | right .. => []

/-- The addresses of a frame. -/
def addresses (f : TreeFrame α) : List Nat := f.address :: f.sibling.addresses

@[simp] theorem root_plug (f : TreeFrame α) (t : PlacedTree α) : (f.plug t).root = f.address := by
  cases f <;> rfl

theorem inorder_plug (f : TreeFrame α) (t : PlacedTree α) :
    (f.plug t).inorder = f.before ++ t.inorder ++ f.after := by
  cases f <;> simp [plug, before, after, PlacedTree.inorder]

end TreeFrame

/-! ## Places -/

/-- The whole tree, with a tree in the place. -/
def fill : List (TreeFrame α) → PlacedTree α → PlacedTree α
  | [], t => t
  | f :: c, t => fill c (f.plug t)

/-- The node whose child is in the place. -/
def parentOf (stub : Nat) : List (TreeFrame α) → Nat
  | [] => stub
  | f :: _ => f.address

/-- Which child is in the place. -/
def sideOf : List (TreeFrame α) → Side
  | [] => .left
  | f :: _ => f.side

/-- What comes before the place in order. -/
def before : List (TreeFrame α) → List (Nat × α)
  | [] => []
  | f :: c => before c ++ f.before

/-- What comes after the place in order. -/
def after : List (TreeFrame α) → List (Nat × α)
  | [] => []
  | f :: c => f.after ++ after c

/-- The addresses around the place. -/
def around (c : List (TreeFrame α)) : List Nat := c.flatMap TreeFrame.addresses

@[simp] theorem around_nil : around ([] : List (TreeFrame α)) = [] := rfl

@[simp] theorem around_cons (f : TreeFrame α) (c : List (TreeFrame α)) :
    around (f :: c) = f.addresses ++ around c := rfl

@[simp] theorem parentOf_nil (stub : Nat) : parentOf stub ([] : List (TreeFrame α)) = stub := rfl

@[simp] theorem parentOf_cons (stub : Nat) (f : TreeFrame α) (c : List (TreeFrame α)) :
    parentOf stub (f :: c) = f.address := rfl

/-- Every frame is around the place. -/
theorem length_le_around (c : List (TreeFrame α)) : c.length ≤ (around c).length := by
  induction c with
  | nil => exact Nat.zero_le _
  | cons f c ih =>
      rw [around_cons, TreeFrame.addresses, List.cons_append, List.length_cons, List.length_cons,
        List.length_append]
      omega

theorem fill_append (c d : List (TreeFrame α)) (t : PlacedTree α) :
    fill (d ++ c) t = fill c (fill d t) := by
  induction d generalizing t with
  | nil => rfl
  | cons f d ih => exact ih (f.plug t)

theorem before_append (c d : List (TreeFrame α)) : before (d ++ c) = before c ++ before d := by
  induction d with
  | nil => exact (List.append_nil _).symm
  | cons f d ih => rw [List.cons_append, before, ih, before, List.append_assoc]

theorem after_append (c d : List (TreeFrame α)) : after (d ++ c) = after d ++ after c := by
  induction d with
  | nil => rfl
  | cons f d ih => rw [List.cons_append, after, ih, after, List.append_assoc]

/-- The order of the whole tree. -/
theorem inorder_fill (c : List (TreeFrame α)) (t : PlacedTree α) :
    (fill c t).inorder = before c ++ t.inorder ++ after c := by
  induction c generalizing t with
  | nil => simp [fill, before, after]
  | cons f c ih => simp [fill, before, after, ih, TreeFrame.inorder_plug]

/-- A node of a tree in its place. -/
theorem exists_fill_of_mem {t : PlacedTree α} {a : Nat} {d : α} (h : (a, d) ∈ t.inorder) :
    ∃ (c : List (TreeFrame α)) (l r : PlacedTree α), t = fill c (.node l a d r) := by
  induction t with
  | null => cases h
  | node l a' d' r ihLeft ihRight =>
      rw [PlacedTree.inorder, List.mem_append, List.mem_cons] at h
      rcases h with h | heq | h
      · obtain ⟨c, l', r', rfl⟩ := ihLeft h
        refine ⟨c ++ [.left a' d' r], l', r', ?_⟩
        rw [fill_append]
        rfl
      · obtain ⟨rfl, rfl⟩ := Prod.mk.inj heq
        exact ⟨[], l, r, rfl⟩
      · obtain ⟨c, l', r', rfl⟩ := ihRight h
        refine ⟨c ++ [.right l a' d'], l', r', ?_⟩
        rw [fill_append]
        rfl

/-- A node of a tree without repetition in its place, with what comes before and after it. -/
theorem exists_fill_of_inorder {t : PlacedTree α} {below above : List (Nat × α)} {a : Nat} {d : α}
    (hnodup : t.addresses.Nodup) (hinorder : t.inorder = below ++ (a, d) :: above) :
    ∃ (c : List (TreeFrame α)) (l r : PlacedTree α), t = fill c (.node l a d r) ∧
      below = before c ++ l.inorder ∧ above = r.inorder ++ after c := by
  have hmem : (a, d) ∈ t.inorder := by
    rw [hinorder]
    exact List.mem_append_right _ List.mem_cons_self
  obtain ⟨c, l, r, rfl⟩ := exists_fill_of_mem hmem
  have hplace : (fill c (.node l a d r)).inorder =
      before c ++ l.inorder ++ (a, d) :: (r.inorder ++ after c) := by
    rw [inorder_fill, PlacedTree.inorder]
    simp
  -- the node occurs once, so that both decompositions are the same
  have honce : (fill c (.node l a d r)).inorder.Nodup := List.Nodup.of_map _ hnodup
  rw [hplace, List.nodup_middle, List.nodup_cons, List.mem_append, not_or] at honce
  rw [hinorder] at hplace
  obtain ⟨hbelow, -, habove⟩ := (List.append_cons_inj_of_notMem honce.1.1 honce.1.2).mp hplace.symm
  exact ⟨c, l, r, rfl, hbelow.symm, habove.symm⟩

/-- The addresses of the whole tree are those around the place and those in it. -/
theorem addresses_fill (c : List (TreeFrame α)) (t : PlacedTree α) :
    (fill c t).addresses.Perm (around c ++ t.addresses) := by
  induction c generalizing t with
  | nil => exact .refl _
  | cons f c ih =>
      refine (ih (f.plug t)).trans ?_
      have hplug : (f.plug t).addresses.Perm (f.addresses ++ t.addresses) := by
        cases f with
        | left address data sibling =>
            rw [TreeFrame.plug, PlacedTree.addresses_node, TreeFrame.addresses]
            exact List.perm_append_comm
        | right sibling address data =>
            rw [TreeFrame.plug, PlacedTree.addresses_node, TreeFrame.addresses]
            exact List.perm_middle
      have hswap : (around c ++ f.addresses).Perm (around (f :: c)) := List.perm_append_comm
      have hleft := (hplug.append_left (around c)).trans (.of_eq (List.append_assoc ..).symm)
      exact hleft.trans (hswap.append_right _)

/-- The node of a frame is in the whole tree. -/
theorem address_mem_fill (f : TreeFrame α) (c : List (TreeFrame α)) (t : PlacedTree α) :
    f.address ∈ (fill (f :: c) t).addresses := by
  rw [(addresses_fill _ _).mem_iff]
  exact List.mem_cons_self

/-- A tree with a node around a place has a root. -/
theorem root_mem_fill (f : TreeFrame α) (c : List (TreeFrame α)) (t : PlacedTree α) :
    (fill (f :: c) t).root ∈ (fill (f :: c) t).addresses := by
  induction c generalizing f t with
  | nil =>
      rw [fill, fill, TreeFrame.root_plug]
      cases f <;> simp [TreeFrame.plug, TreeFrame.address]
  | cons g c ih => exact ih g (f.plug t)

/-! ## Memory -/

namespace TreeMemory

/-- The memory stores the tree under the parent. -/
def Stored (m : TreeMemory α) (parent : Nat) : PlacedTree α → Prop
  | .null => True
  | .node left address data right =>
      address ≠ 0 ∧
        m.node? address =
          some { parent, left := left.root, right := right.root, data := some data } ∧
        m.Stored address left ∧ m.Stored address right

/-- The memory stores the frames down from the stub, and the pointer in the place. -/
def Framed (m : TreeMemory α) (stub : Nat) : List (TreeFrame α) → Nat → Prop
  | [], hole => m.node? stub = some { parent := 0, left := hole, right := stub, data := none }
  | f :: c, hole =>
      f.address ≠ 0 ∧ m.node? f.address = some (f.cell (parentOf stub c) hole) ∧
        m.Stored f.address f.sibling ∧ m.Framed stub c f.address

/-- The memory stores the tree under the stub. -/
structure IsTree (m : TreeMemory α) (stub : Nat) (t : PlacedTree α) : Prop where
  stub_ne : stub ≠ 0
  framed : m.Framed stub [] t.root
  stored : m.Stored stub t
  nodup : (stub :: t.addresses).Nodup

variable {m m' : TreeMemory α} {stub parent hole : Nat} {t : PlacedTree α}

/-- A stored tree depends on its nodes. -/
theorem Stored.congr (h : m.Stored parent t)
    (hsame : ∀ address ∈ t.addresses, m'.node? address = m.node? address) :
    m'.Stored parent t := by
  induction t generalizing parent with
  | null => trivial
  | node left address data right ihLeft ihRight =>
      obtain ⟨hne, hnode, hleft, hright⟩ := h
      rw [PlacedTree.addresses_node] at hsame
      refine ⟨hne, ?_, ihLeft hleft fun a ha => hsame a (List.mem_append_left _ ha),
        ihRight hright fun a ha =>
          hsame a (List.mem_append_right _ (List.mem_cons_of_mem _ ha))⟩
      rw [hsame address (List.mem_append_right _ List.mem_cons_self)]
      exact hnode

/-- Stored frames depend on their nodes and on the stub. -/
theorem Framed.congr {c : List (TreeFrame α)} (h : m.Framed stub c hole)
    (hstub : m'.node? stub = m.node? stub)
    (hsame : ∀ address ∈ around c, m'.node? address = m.node? address) :
    m'.Framed stub c hole := by
  induction c generalizing hole with
  | nil => exact hstub.trans h
  | cons f c ih =>
      obtain ⟨hne, hnode, hsibling, hframed⟩ := h
      have hframe : ∀ address ∈ f.addresses, m'.node? address = m.node? address := fun a ha =>
        hsame a (List.mem_append_left _ ha)
      refine ⟨hne, ?_, hsibling.congr fun a ha => hframe a (List.mem_cons_of_mem _ ha),
        ih hframed fun a ha => hsame a (List.mem_append_right _ ha)⟩
      rw [hframe f.address List.mem_cons_self]
      exact hnode

/-- The addresses of a stored tree are not null. -/
theorem Stored.ne_zero (h : m.Stored parent t) : ∀ address ∈ t.addresses, address ≠ 0 := by
  induction t generalizing parent with
  | null => exact fun a ha => absurd ha List.not_mem_nil
  | node left address data right ihLeft ihRight =>
      obtain ⟨hne, -, hleft, hright⟩ := h
      intro a ha
      rw [PlacedTree.addresses_node, List.mem_append, List.mem_cons] at ha
      rcases ha with ha | rfl | ha
      · exact ihLeft hleft a ha
      · exact hne
      · exact ihRight hright a ha

/-- A node of a stored tree is in memory with its data. -/
theorem Stored.data_eq (h : m.Stored parent t) {address : Nat} {data : α}
    (hmem : (address, data) ∈ t.inorder) :
    ∃ node, m.node? address = some node ∧ node.data = some data := by
  induction t generalizing parent with
  | null => cases hmem
  | node left a d right ihLeft ihRight =>
      obtain ⟨-, hnode, hleft, hright⟩ := h
      rw [PlacedTree.inorder, List.mem_append, List.mem_cons] at hmem
      rcases hmem with hmem | heq | hmem
      · exact ihLeft hleft hmem
      · obtain ⟨rfl, rfl⟩ := Prod.mk.inj heq
        exact ⟨_, hnode, rfl⟩
      · exact ihRight hright hmem

/-- A stored tree with a null pointer is empty. -/
theorem Stored.eq_null (h : m.Stored parent t) (ht : t.root = 0) : t = .null := by
  cases t with
  | null => rfl
  | node left address data right => exact absurd ht h.1

/-- The root of a stored tree is in memory, with its parent. -/
theorem Stored.parent_eq (h : m.Stored parent t) (ht : t.root ≠ 0) :
    ∃ node, m.node? t.root = some node ∧ node.parent = parent := by
  cases t with
  | null => exact absurd rfl ht
  | node left address data right => exact ⟨_, h.2.1, rfl⟩

/-- The root of a stored tree is null or a node. -/
theorem Stored.root_isSome (h : m.Stored parent t) :
    t.root = 0 ∨ (m.node? t.root).isSome := by
  by_cases ht : t.root = 0
  · exact Or.inl ht
  · obtain ⟨node, hnode, -⟩ := h.parent_eq ht
    exact Or.inr (Option.isSome_of_mem hnode)

/-- A frame around a stored tree. -/
theorem stored_plug_iff (f : TreeFrame α) (t : PlacedTree α) :
    m.Stored parent (f.plug t) ↔
      f.address ≠ 0 ∧ m.node? f.address = some (f.cell parent t.root) ∧
        m.Stored f.address f.sibling ∧ m.Stored f.address t := by
  cases f with
  | left address data sibling =>
      rw [TreeFrame.plug, Stored, and_comm (a := m.Stored address t)]
      rfl
  | right sibling address data => rfl

/-- A stored tree around a tree is the frames and the tree. -/
theorem framed_stored_iff (c : List (TreeFrame α)) (t : PlacedTree α) :
    m.Framed stub [] (fill c t).root ∧ m.Stored stub (fill c t) ↔
      m.Framed stub c t.root ∧ m.Stored (parentOf stub c) t := by
  induction c generalizing t with
  | nil => rfl
  | cons f c ih =>
      rw [fill, ih, TreeFrame.root_plug, stored_plug_iff, parentOf_cons, Framed]
      constructor
      · rintro ⟨hframed, hne, hnode, hsibling, ht⟩
        exact ⟨⟨hne, hnode, hsibling, hframed⟩, ht⟩
      · rintro ⟨⟨hne, hnode, hsibling, hframed⟩, ht⟩
        exact ⟨hframed, hne, hnode, hsibling, ht⟩

/-! ## Hanging a tree into a place -/

/-- One child of a node is written. -/
def setChild (m : TreeMemory α) (address : Nat) (side : Side) (child : Nat) : TreeMemory α :=
  { node? := Function.update m.node? address ((m.node? address).map fun node =>
    match side with
    | .left => { node with left := child }
    | .right => { node with right := child }) }

/-- The parent of a node is written. -/
def setParent (m : TreeMemory α) (address parent : Nat) : TreeMemory α :=
  { node? := Function.update m.node? address
      ((m.node? address).map fun node => { node with parent := parent }) }

/-- A node, or null, becomes the child of another. -/
def hang (m : TreeMemory α) (parent : Nat) (side : Side) (child : Nat) : TreeMemory α :=
  if child = 0 then m.setChild parent side child
  else (m.setChild parent side child).setParent child parent

theorem setChild_of_ne {address other : Nat} (hne : other ≠ address) (side : Side)
    (child : Nat) : (m.setChild address side child).node? other = m.node? other :=
  Function.update_of_ne hne ..

theorem setParent_of_ne {address other : Nat} (hne : other ≠ address) (parent : Nat) :
    (m.setParent address parent).node? other = m.node? other :=
  Function.update_of_ne hne ..

/-- The links of two nodes are written in either order. -/
theorem setParent_setChild_comm {address other : Nat} (hne : address ≠ other) (side : Side)
    (parent child : Nat) : (m.setParent address parent).setChild other side child =
      (m.setChild other side child).setParent address parent := by
  simp only [setParent, setChild, Function.update_of_ne hne, Function.update_of_ne hne.symm,
    Function.update_comm hne]

/-- Only the parent and the child are written. -/
theorem hang_of_ne {child other : Nat} (side : Side) (hparent : other ≠ parent)
    (hchild : other ≠ child) : (m.hang parent side child).node? other = m.node? other := by
  rw [hang]
  split
  · exact setChild_of_ne hparent ..
  · exact (setParent_of_ne hchild _).trans (setChild_of_ne hparent ..)

/-- The parent of a place is the stub or around it. -/
theorem parentOf_mem (stub : Nat) (c : List (TreeFrame α)) :
    parentOf stub c ∈ stub :: around c := by
  cases c with
  | nil => exact List.mem_cons_self
  | cons f c => exact List.mem_cons_of_mem _ List.mem_cons_self

/-- The frames with another pointer in the place. -/
theorem Framed.setChild {c : List (TreeFrame α)} (h : m.Framed stub c hole)
    (hnodup : (stub :: around c).Nodup) (child : Nat) :
    (m.setChild (parentOf stub c) (sideOf c) child).Framed stub c child := by
  cases c with
  | nil =>
      have hstub : m.node? stub = _ := h
      show (m.setChild stub .left child).node? stub = _
      simp only [TreeMemory.setChild, Function.update_self, hstub, Option.map_some]
  | cons f c =>
      obtain ⟨hne, hnode, hsibling, hframed⟩ := h
      rw [around_cons, List.nodup_cons, TreeFrame.addresses, List.cons_append, List.nodup_cons,
        List.mem_cons, not_or, List.mem_append, not_or] at hnodup
      have hother : ∀ address, address ≠ f.address →
          (m.setChild (parentOf stub (f :: c)) (sideOf (f :: c)) child).node? address =
            m.node? address :=
        fun address hne => setChild_of_ne hne ..
      refine ⟨hne, ?_, hsibling.congr fun a ha => hother a ?_,
        hframed.congr (hother stub hnodup.1.1) fun a ha => hother a ?_⟩
      · show (m.setChild f.address f.side child).node? f.address = _
        simp only [TreeMemory.setChild, Function.update_self, hnode, Option.map_some]
        cases f <;> rfl
      · exact fun heq => hnodup.2.1 (heq ▸ List.mem_append_left _ ha)
      · exact fun heq => hnodup.2.1 (heq ▸ List.mem_append_right _ ha)

/-- The tree under another parent. -/
theorem Stored.setParent (h : m.Stored parent t) (hnodup : t.addresses.Nodup) (other : Nat) :
    (m.setParent t.root other).Stored other t := by
  cases t with
  | null => trivial
  | node left address data right =>
      obtain ⟨hne, hnode, hleft, hright⟩ := h
      rw [PlacedTree.addresses_node, List.nodup_middle, List.nodup_cons, List.mem_append,
        not_or] at hnodup
      have hsame : ∀ a, a ≠ address → (m.setParent address other).node? a = m.node? a :=
        fun a ha => setParent_of_ne ha _
      refine ⟨hne, ?_, hleft.congr fun a ha => hsame a fun heq => hnodup.1.1 (heq ▸ ha),
        hright.congr fun a ha => hsame a fun heq => hnodup.1.2 (heq ▸ ha)⟩
      show (m.setParent address other).node? address = _
      simp only [TreeMemory.setParent, Function.update_self, hnode, Option.map_some]

/-- A stored tree is hung into a place, whatever was there and whatever its parent was. -/
theorem Framed.hang {c : List (TreeFrame α)} (h : m.Framed stub c hole) (ht : m.Stored parent t)
    (hnodup : (stub :: (around c ++ t.addresses)).Nodup) :
    (m.hang (parentOf stub c) (sideOf c) t.root).Framed stub c t.root ∧
      (m.hang (parentOf stub c) (sideOf c) t.root).Stored (parentOf stub c) t := by
  rw [← List.cons_append, List.nodup_append'] at hnodup
  obtain ⟨hplace, htree, hdisjoint⟩ := hnodup
  have hframed := h.setChild hplace t.root
  have hstored : (m.setChild (parentOf stub c) (sideOf c) t.root).Stored parent t :=
    ht.congr fun a ha => setChild_of_ne
      (fun heq : a = parentOf stub c => hdisjoint (parentOf_mem stub c) (heq ▸ ha)) _ _
  rw [TreeMemory.hang]
  split
  case isTrue hroot =>
    refine ⟨hframed, ?_⟩
    cases t with
    | null => trivial
    | node left address data right => exact absurd hroot hstored.1
  case isFalse hroot =>
    have hne : ∀ a, a ∈ stub :: around c → a ≠ t.root := fun a ha heq =>
      hdisjoint ha (heq ▸ PlacedTree.root_mem hroot)
    exact ⟨hframed.congr (setParent_of_ne (hne stub List.mem_cons_self) _)
      fun a ha => setParent_of_ne (hne a (List.mem_cons_of_mem _ ha)) _,
      hstored.setParent htree _⟩

/-- A stored tree is hung under a node as its right child. -/
theorem Stored.hang_right {other address x : Nat} {l : PlacedTree α} {data : α}
    (hne : address ≠ 0) (hnode : m.node? address =
      some { parent := parent, left := l.root, right := x, data := some data })
    (hl : m.Stored address l) (ht : m.Stored other t)
    (hnodup : (address :: (l.addresses ++ t.addresses)).Nodup) :
    (m.hang address .right t.root).Stored parent (.node l address data t) := by
  rw [List.nodup_cons, List.mem_append, not_or, List.nodup_append'] at hnodup
  obtain ⟨⟨hleft, hright⟩, -, htree, hdisjoint⟩ := hnodup
  have hset : ∀ a, a ≠ address → (m.setChild address .right t.root).node? a = m.node? a :=
    fun a ha => setChild_of_ne ha ..
  have hcell : (m.setChild address .right t.root).node? address =
      some { parent := parent, left := l.root, right := t.root, data := some data } := by
    simp only [TreeMemory.setChild, Function.update_self, hnode, Option.map_some]
  have hl' := hl.congr fun a ha => hset a fun heq => hleft (heq ▸ ha)
  have ht' := ht.congr fun a ha => hset a fun heq => hright (heq ▸ ha)
  rw [TreeMemory.hang]
  split
  case isTrue hroot =>
    cases t with
    | null => exact ⟨hne, hcell, hl', trivial⟩
    | node left a d right => exact absurd hroot ht.1
  case isFalse hroot =>
    have hmem := PlacedTree.root_mem hroot
    refine ⟨hne, ?_, hl'.congr fun a ha => setParent_of_ne
      (fun heq : a = t.root => hdisjoint ha (heq ▸ hmem)) _, ht'.setParent htree _⟩
    rw [setParent_of_ne fun heq : address = t.root => hright (heq ▸ hmem)]
    exact hcell

/-- The stub and the nodes of a tree are in memory. -/
theorem IsTree.isSome_of_mem (h : m.IsTree stub t) {address : Nat}
    (hmem : address ∈ stub :: t.addresses) : (m.node? address).isSome := by
  rcases List.mem_cons.mp hmem with rfl | hmem
  · rw [show m.node? address = _ from h.framed]
    rfl
  · obtain ⟨⟨a, d⟩, hnode, rfl⟩ := List.mem_map.mp hmem
    obtain ⟨node, hnode, -⟩ := h.stored.data_eq hnode
    rw [hnode]
    rfl

/-- What is hung into a place of a tree makes a tree. -/
theorem IsTree.of_framed {c : List (TreeFrame α)} (hstub : stub ≠ 0)
    (h : m.Framed stub c t.root) (ht : m.Stored (parentOf stub c) t)
    (hnodup : (stub :: (around c ++ t.addresses)).Nodup) : m.IsTree stub (fill c t) := by
  obtain ⟨hframed, hstored⟩ := (framed_stored_iff c t).mpr ⟨h, ht⟩
  exact ⟨hstub, hframed, hstored, ((addresses_fill c t).cons stub).nodup_iff.mpr hnodup⟩

/-- A tree around a place is the frames, and the tree in the place. -/
theorem IsTree.framed_of_fill {c : List (TreeFrame α)} (h : m.IsTree stub (fill c t)) :
    m.Framed stub c t.root ∧ m.Stored (parentOf stub c) t ∧
      (stub :: (around c ++ t.addresses)).Nodup := by
  obtain ⟨hframed, hstored⟩ := (framed_stored_iff c t).mp ⟨h.framed, h.stored⟩
  exact ⟨hframed, hstored, ((addresses_fill c t).cons stub).nodup_iff.mp h.nodup⟩

/-- A tree depends on its nodes and on the stub. -/
theorem IsTree.congr (h : m.IsTree stub t)
    (hsame : ∀ address ∈ stub :: t.addresses, m'.node? address = m.node? address) :
    m'.IsTree stub t where
  stub_ne := h.stub_ne
  framed := h.framed.congr (hsame stub List.mem_cons_self) fun _ ha => absurd ha List.not_mem_nil
  stored := h.stored.congr fun a ha => hsame a (List.mem_cons_of_mem _ ha)
  nodup := h.nodup

end TreeMemory

/-! ## Left and right -/

/-- The tree with left and right exchanged. -/
def PlacedTree.mirror : PlacedTree α → PlacedTree α
  | null => null
  | node left address data right => node right.mirror address data left.mirror

/-- The node with its children exchanged. -/
def TreeNode.mirror (node : TreeNode α) : TreeNode α :=
  { node with left := node.right, right := node.left }

/-- The memory with the children of every node exchanged. -/
def TreeMemory.mirror (m : TreeMemory α) : TreeMemory α :=
  { node? := fun address => (m.node? address).map TreeNode.mirror }

@[simp] theorem PlacedTree.root_mirror (t : PlacedTree α) : t.mirror.root = t.root := by
  cases t <;> rfl

/-- The order turns around. -/
theorem PlacedTree.inorder_mirror (t : PlacedTree α) : t.mirror.inorder = t.inorder.reverse := by
  induction t with
  | null => rfl
  | node left address data right ihLeft ihRight =>
      simp [mirror, inorder, ihLeft, ihRight]

/-- The mirrored memory stores the mirrored tree. -/
theorem TreeMemory.Stored.mirror {m : TreeMemory α} {parent : Nat} {t : PlacedTree α}
    (h : m.Stored parent t) : m.mirror.Stored parent t.mirror := by
  induction t generalizing parent with
  | null => trivial
  | node left address data right ihLeft ihRight =>
      obtain ⟨hne, hnode, hleft, hright⟩ := h
      refine ⟨hne, ?_, ihRight hright, ihLeft hleft⟩
      show (m.node? address).map TreeNode.mirror = _
      rw [hnode, PlacedTree.root_mirror, PlacedTree.root_mirror]
      rfl

end ParentTree
end Lib
end InfinityLabs
