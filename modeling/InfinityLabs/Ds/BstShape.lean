import InfinityLabs.Ds.Bst
import InfinityLabs.Lib.Comparator

/-!
# The calls of the binary search tree

What removal and insertion do to a tree in memory, and which nodes its iterators visit.  A node
is named with the frames around it, so that each call is described at its place.
-/

namespace InfinityLabs
namespace Ds

open Lib Lib.ParentTree Lib.ParentTree.TreeMemory

variable {α : Type} {m : TreeMemory α} {stub : Nat}

/-! ## Links -/

/-- The parent of a place is not null. -/
theorem parentOf_ne_zero {c : List (TreeFrame α)} {hole : Nat} (hstub : stub ≠ 0)
    (h : m.Framed stub c hole) : parentOf stub c ≠ 0 := by
  cases c with
  | nil => exact hstub
  | cons f c => exact h.1

/-- A node, or null, is linked to a node as `hang` does. -/
theorem setChildLink_eq {parent child : Nat} (hparent : (m.node? parent).isSome) (side : Side)
    (hchild : child = 0 ∨ (m.node? child).isSome) :
    setChildLink m parent side child = some (m.hang parent side child) :=
  if_pos ⟨hparent, hchild⟩

/-- The parent of a place is a node with the place for its child. -/
theorem exists_node_parentOf {c : List (TreeFrame α)} {hole : Nat} (h : m.Framed stub c hole) :
    ∃ node, m.node? (parentOf stub c) = some node ∧ child node (sideOf c) = hole := by
  cases c with
  | nil => exact ⟨_, h, rfl⟩
  | cons f c =>
      refine ⟨_, h.2.1, ?_⟩
      cases f <;> rfl

/-- The parent of a place is a node. -/
theorem isSome_parentOf {c : List (TreeFrame α)} {hole : Nat} (h : m.Framed stub c hole) :
    (m.node? (parentOf stub c)).isSome := by
  obtain ⟨node, hnode, -⟩ := exists_node_parentOf h
  exact Option.isSome_of_mem hnode

/-- A child of a node is a node of the tree whose parent is that node. -/
def LinksBack (m : TreeMemory α) (addresses : List Nat) (address : Nat) (node : TreeNode α)
    (side : Side) : Prop :=
  child node side ≠ 0 → child node side ∈ addresses ∧
    ∃ cell, m.node? (child node side) = some cell ∧ cell.parent = address

/-- The root of a tree links back to the stub. -/
theorem IsTree.linksBack_stub {t : PlacedTree α} (h : m.IsTree stub t) :
    ∃ node, m.node? stub = some node ∧ LinksBack m t.addresses stub node .left :=
  ⟨_, h.framed, fun hne => ⟨PlacedTree.root_mem hne, h.stored.parent_eq hne⟩⟩

/-- The children of a node link back to it. -/
theorem IsTree.linksBack {t : PlacedTree α} (h : m.IsTree stub t) {a : Nat}
    (ha : a ∈ t.addresses) :
    ∃ node, m.node? a = some node ∧ ∀ side, LinksBack m t.addresses a node side := by
  obtain ⟨⟨a, d⟩, hmem, rfl⟩ := List.mem_map.mp ha
  obtain ⟨c, l, r, rfl⟩ := exists_fill_of_mem hmem
  obtain ⟨-, ⟨-, hnode, hleft, hright⟩, -⟩ := h.framed_of_fill
  have hsub : ∀ b ∈ l.addresses ++ a :: r.addresses,
      b ∈ (fill c (.node l a d r)).addresses := fun b hb => by
    rw [(addresses_fill c _).mem_iff, PlacedTree.addresses_node]
    exact List.mem_append_right _ hb
  refine ⟨_, hnode, fun side hne => ?_⟩
  cases side with
  | left => exact ⟨hsub _ (List.mem_append_left _ (PlacedTree.root_mem hne)), hleft.parent_eq hne⟩
  | right =>
      exact ⟨hsub _ (List.mem_append_right _ (List.mem_cons_of_mem _ (PlacedTree.root_mem hne))),
        hright.parent_eq hne⟩

/-- A node is a child of its parent. -/
theorem IsTree.isChild {t : PlacedTree α} (h : m.IsTree stub t) {a : Nat}
    (ha : a ∈ t.addresses) :
    ∃ node parent side, m.node? a = some node ∧ m.node? node.parent = some parent ∧
      child parent side = a := by
  obtain ⟨⟨a, d⟩, hmem, rfl⟩ := List.mem_map.mp ha
  obtain ⟨c, l, r, rfl⟩ := exists_fill_of_mem hmem
  obtain ⟨hframed, ⟨-, hnode, -⟩, -⟩ := h.framed_of_fill
  obtain ⟨parent, hparent, hchild⟩ := exists_node_parentOf hframed
  exact ⟨_, parent, sideOf c, hnode, hparent, hchild⟩

/-- `ReplaceInParent` hangs `v` into the place of `u`. -/
theorem replaceInParent_eq {c : List (TreeFrame α)} {u v : Nat} {node : TreeNode α}
    (hstub : stub ≠ 0) (h : m.Framed stub c u) (hnode : m.node? u = some node)
    (hparent : node.parent = parentOf stub c) (hu : u ≠ 0) (hfresh : u ∉ around c)
    (hv : v = 0 ∨ (m.node? v).isSome) :
    replaceInParent m u v = some (m.hang (parentOf stub c) (sideOf c) v) := by
  have hlink := fun side => setChildLink_eq (isSome_parentOf h) side hv
  cases c with
  | nil =>
      have hroot : m.node? stub = some _ := h
      simp only [replaceInParent, hnode, hparent, Option.bind_eq_bind, Option.bind_some,
        parentOf_nil, hroot, if_true]
      exact hlink .left
  | cons f c =>
      obtain ⟨hne, hcell, -, hframed⟩ := h
      have hgrand := parentOf_ne_zero hstub hframed
      have hfparent : (f.cell (parentOf stub c) u).parent = parentOf stub c := by cases f <;> rfl
      have hisLeft : isLeftChild m u = some ((f.cell (parentOf stub c) u).left == u) := by
        simp only [isLeftChild, hnode, hparent, parentOf_cons, hne, if_false, hcell,
          Option.map_some]
      have hside : (if ((f.cell (parentOf stub c) u).left == u) = true then Side.left
          else Side.right) = f.side := by
        cases f with
        | left address data sibling => exact if_pos (beq_self_eq_true u)
        | right sibling address data =>
            refine if_neg fun heq => hfresh ?_
            have hroot : sibling.root = u := eq_of_beq heq
            rw [around_cons, TreeFrame.addresses]
            refine List.mem_append_left _ (List.mem_cons_of_mem _ ?_)
            rw [← hroot]
            exact PlacedTree.root_mem (hroot ▸ hu)
      simp only [replaceInParent, hnode, hparent, Option.bind_eq_bind, Option.bind_some,
        parentOf_cons, hcell, hfparent, hgrand, if_false, hisLeft, hside]
      exact hlink f.side

/-- A node that is not part of a tree is freed. -/
theorem IsTree.freeNode {t : PlacedTree α} {address : Nat} (h : m.IsTree stub t)
    (hfresh : address ∉ stub :: t.addresses) : (freeNode m address).IsTree stub t :=
  h.congr fun other hmem =>
    Function.update_of_ne (fun heq : other = address => hfresh (heq ▸ hmem)) ..

/-! ## Removal -/

/-- A node is replaced by one of its children, and is then not part of the tree. -/
theorem exists_replaced {c : List (TreeFrame α)} {l r t : PlacedTree α} {a : Nat} {d : α}
    (h : m.IsTree stub (fill c (.node l a d r))) (ht : t = l ∨ t = r) :
    ∃ m', replaceInParent m a t.root = some m' ∧ m'.IsTree stub (fill c t) ∧
      m'.node? a = m.node? a ∧ a ∉ stub :: (fill c t).addresses := by
  obtain ⟨hframed, ⟨hne, hnode, hleft, hright⟩, hnodup⟩ := h.framed_of_fill
  have hstored : m.Stored a t := by
    rcases ht with rfl | rfl
    · exact hleft
    · exact hright
  obtain ⟨hrest, hfresh⟩ : (stub :: (around c ++ t.addresses)).Nodup ∧
      a ∉ stub :: (around c ++ t.addresses) := by
    rw [PlacedTree.addresses_node] at hnodup
    rcases ht with rfl | rfl <;> grind
  have haround : a ∉ stub :: around c := fun hmem => hfresh (List.mem_append_left t.addresses hmem)
  have hreplace := replaceInParent_eq h.stub_ne hframed hnode rfl hne
    (fun hmem => haround (List.mem_cons_of_mem _ hmem)) hstored.root_isSome
  obtain ⟨hframed', hstored'⟩ := hframed.hang hstored hrest
  refine ⟨_, hreplace, IsTree.of_framed h.stub_ne hframed' hstored' hrest,
    hang_of_ne _ (fun heq => haround (heq ▸ parentOf_mem stub c)) fun heq => hfresh ?_, ?_⟩
  · rw [heq]
    exact List.mem_cons_of_mem _ (List.mem_append_right _ (PlacedTree.root_mem (heq ▸ hne)))
  · rw [((addresses_fill c t).cons stub).mem_iff]
    exact hfresh

/-- `Leftmost` finds the first node of a tree, which has no left child. -/
theorem exists_leftmost {parent : Nat} {t : PlacedTree α} (h : m.Stored parent t)
    (hnodup : t.addresses.Nodup) (ht : t.root ≠ 0) :
    ∃ (c : List (TreeFrame α)) (b : Nat) (data : α) (r : PlacedTree α),
      t = fill c (.node .null b data r) ∧ before c = [] ∧
        ∀ fuel, t.addresses.length ≤ fuel → leftmost m fuel t.root = some b := by
  induction t generalizing parent with
  | null => exact absurd rfl ht
  | node l a d r ih =>
      obtain ⟨hne, hnode, hleft, -⟩ := h
      rw [PlacedTree.addresses_node] at hnodup
      by_cases hl : l.root = 0
      · obtain rfl := hleft.eq_null hl
        refine ⟨[], a, d, r, rfl, rfl, fun fuel hfuel => ?_⟩
        obtain ⟨fuel, rfl⟩ : ∃ n, fuel = n + 1 := by
          refine ⟨fuel - 1, ?_⟩
          rw [PlacedTree.addresses_node, List.length_append, List.length_cons] at hfuel
          omega
        simp only [leftmost, outermost, PlacedTree.root_node, hne, if_false, hnode, child, hl,
          true_or, if_true]
      · have hdisjoint : l.root ≠ a := by
          have hmem := PlacedTree.root_mem hl
          intro heq
          exact (List.nodup_append'.mp hnodup).2.2 hmem (heq ▸ List.mem_cons_self)
        obtain ⟨c, b, data, r', rfl, hbefore, hloop⟩ :=
          ih hleft (List.nodup_append'.mp hnodup).1 hl
        refine ⟨c ++ [.left a d r], b, data, r', ?_, ?_, fun fuel hfuel => ?_⟩
        · rw [fill_append]
          rfl
        · rw [before_append, hbefore]
          rfl
        · rw [PlacedTree.addresses_node, List.length_append, List.length_cons] at hfuel
          obtain ⟨fuel, rfl⟩ : ∃ n, fuel = n + 1 := ⟨fuel - 1, by omega⟩
          simp only [leftmost, outermost, PlacedTree.root_node, hne, if_false, hnode, child, hl,
            hdisjoint, or_self]
          exact hloop fuel (by omega)

/-- `BSTNext` of a node with a right child. -/
theorem bstNext_eq {a fuel : Nat} {node : TreeNode α} (hnode : m.node? a = some node)
    (hparent : node.parent ≠ 0) (hright : node.right ≠ 0) :
    bstNext m fuel a = leftmost m fuel node.right := by
  simp only [bstNext, hnode, Option.bind_eq_bind, Option.bind_some, hparent, if_false,
    stepInOrder, child, ne_eq, hright, not_false_iff, if_true]

/-- The end of `BSTRemove`: the next node, which has no left child, takes the place and the left
child of the node that is removed. -/
theorem exists_taken {c : List (TreeFrame α)} {l r : PlacedTree α} {a b x q : Nat} {d e : α}
    (hstub : stub ≠ 0) (hframed : m.Framed stub c a) (ha : a ≠ 0)
    (hnode : m.node? a =
      some { parent := parentOf stub c, left := l.root, right := x, data := some d })
    (hleft : m.Stored a l) (hnext : m.Stored q (.node .null b e r))
    (hnodup : (a :: stub :: (around c ++ (l.addresses ++ b :: r.addresses))).Nodup) :
    ∃ m' m'' : TreeMemory α, replaceInParent m a b = some m' ∧
      m'.node? a = m.node? a ∧ setChildLink m' b .left l.root = some m'' ∧
      (freeNode m'' a).IsTree stub (fill c (.node l b e r)) := by
  obtain ⟨hfresh, hnodup⟩ := List.nodup_cons.mp hnodup
  -- the next node is hung into the place
  have hnextNodup : (stub :: (around c ++ b :: r.addresses)).Nodup := by grind
  have hreplace := replaceInParent_eq hstub hframed hnode rfl ha (by grind)
    hnext.root_isSome
  obtain ⟨hframed', hnext'⟩ := hframed.hang hnext hnextNodup
  have hother : ∀ address, address ≠ parentOf stub c → address ≠ b →
      (m.hang (parentOf stub c) (sideOf c) b).node? address = m.node? address :=
    fun address hparent hb => hang_of_ne _ hparent hb
  have hparentMem := parentOf_mem stub c
  have hsame : ∀ address ∈ a :: l.addresses,
      (m.hang (parentOf stub c) (sideOf c) b).node? address = m.node? address := by
    intro address hmem
    refine hother address (fun heq => ?_) fun heq => ?_ <;> grind
  have hleft' := hleft.congr fun address hmem => hsame address (List.mem_cons_of_mem _ hmem)
  -- and the left child into its left place
  have hplace : (m.hang (parentOf stub c) (sideOf c) b).Framed stub (.left b e r :: c) 0 :=
    ⟨hnext'.1, hnext'.2.1, hnext'.2.2.2, hframed'⟩
  have hplaceNodup : (stub :: (around (.left b e r :: c) ++ l.addresses)).Nodup := by
    rw [around_cons, TreeFrame.addresses]
    show (stub :: (b :: r.addresses ++ around c ++ l.addresses)).Nodup
    grind
  obtain ⟨hframed'', hleft''⟩ := hplace.hang hleft' hplaceNodup
  have htree := IsTree.of_framed hstub hframed'' hleft'' hplaceNodup
  refine ⟨_, _, hreplace, hsame a List.mem_cons_self,
    setChildLink_eq (isSome_parentOf hplace) .left hleft'.root_isSome,
    IsTree.freeNode htree fun hmem => ?_⟩
  have haround := ((addresses_fill (.left b e r :: c) l).cons stub).mem_iff.mp hmem
  rw [around_cons, TreeFrame.addresses] at haround
  replace haround : a ∈ stub :: (b :: r.addresses ++ around c ++ l.addresses) := haround
  grind

/-- The next node is the right child: it takes the place with its right child. -/
theorem exists_removed_near {c : List (TreeFrame α)} {l r : PlacedTree α} {a b fuel : Nat}
    {d e : α} (h : m.IsTree stub (fill c (.node l a d (.node .null b e r)))) (hl : l.root ≠ 0)
    (hnext : bstNext m fuel a = some b) :
    ∃ m', bstRemove m fuel a = some m' ∧ m'.IsTree stub (fill c (.node l b e r)) := by
  obtain ⟨hframed, ⟨hne, hnode, hleft, hright⟩, hnodup⟩ := h.framed_of_fill
  have hparent := parentOf_ne_zero h.stub_ne hframed
  rw [PlacedTree.addresses_node, PlacedTree.addresses_node, PlacedTree.addresses_null,
    List.nil_append] at hnodup
  rw [PlacedTree.root_node] at hframed hnode
  obtain ⟨m', m'', hreplace, hsame, hlink, htree⟩ :=
    exists_taken h.stub_ne hframed hne hnode hleft hright (by grind)
  refine ⟨freeNode m'' a, ?_, htree⟩
  simp only [bstRemove, hnode, Option.bind_eq_bind, Option.bind_some, hparent, if_false, hl,
    hright.1, hnext, hright.2.1, ne_eq, not_true, hreplace, hsame, hlink]

/-- The next node is deeper: its right child takes its place first. -/
theorem exists_removed_far {c g : List (TreeFrame α)} {f : TreeFrame α} {l r : PlacedTree α}
    {a b fuel : Nat} {d e : α}
    (h : m.IsTree stub (fill c (.node l a d (fill (f :: g) (.node .null b e r)))))
    (hl : l.root ≠ 0) (hnext : bstNext m fuel a = some b) :
    ∃ m', bstRemove m fuel a = some m' ∧
      m'.IsTree stub (fill c (.node l b e (fill (f :: g) r))) := by
  obtain ⟨hframed, ⟨hne, hnode, hleft, hright⟩, hnodup⟩ := h.framed_of_fill
  have hparent := parentOf_ne_zero h.stub_ne hframed
  -- the next node in its own place, where its right child replaces it
  have hfill : ∀ s : PlacedTree α, fill c (.node l a d (fill (f :: g) s)) =
      fill (f :: g ++ .right l a d :: c) s := fun s => by rw [fill_append]; rfl
  have hdeep := h
  rw [hfill] at hdeep
  obtain ⟨hbne, hb, -, -⟩ := hdeep.framed_of_fill.2.1
  obtain ⟨m₁, hreplace₁, htree₁, hb₁, hbFresh⟩ := exists_replaced hdeep (Or.inr rfl)
  rw [← hfill] at htree₁ hbFresh
  obtain ⟨hframed₁, ⟨-, hnode₁, hleft₁, hright₁⟩, hnodup₁⟩ := htree₁.framed_of_fill
  rw [((addresses_fill c _).cons stub).mem_iff] at hbFresh
  rw [PlacedTree.addresses_node] at hnodup₁ hbFresh
  rw [PlacedTree.root_node] at hframed₁
  -- it takes the right child of the node that is removed
  have hright₁Nodup : (b :: ((PlacedTree.null : PlacedTree α).addresses ++
      (fill (f :: g) r).addresses)).Nodup := by
    rw [PlacedTree.addresses_null, List.nil_append]
    grind
  have hnext₂ := Stored.hang_right hbne (hb₁.trans hb) trivial hright₁ hright₁Nodup
  have hlink₂ := setChildLink_eq (by rw [hb₁, hb]; rfl) .right hright₁.root_isSome
  have hsame₂ : ∀ x ∈ stub :: (around c ++ a :: l.addresses),
      (m₁.hang b .right (fill (f :: g) r).root).node? x = m₁.node? x := by
    intro x hx
    have hroot := root_mem_fill f g r
    refine hang_of_ne _ ?_ fun heq => ?_ <;> grind
  have hframed₂ := hframed₁.congr (hsame₂ stub List.mem_cons_self) fun x hx =>
    hsame₂ x (List.mem_cons_of_mem _ (List.mem_append_left _ hx))
  have hleft₂ := hleft₁.congr fun x hx =>
    hsame₂ x (List.mem_cons_of_mem _ (List.mem_append_right _ (List.mem_cons_of_mem _ hx)))
  have hnode₂ := (hsame₂ a (by grind)).trans hnode₁
  -- and is then replaced itself
  obtain ⟨m', m'', hreplace, hsame, hlink, htree⟩ :=
    exists_taken h.stub_ne hframed₂ hne hnode₂ hleft₂ hnext₂ (by grind)
  refine ⟨freeNode m'' a, ?_, htree⟩
  have hroot := hright.ne_zero _ (root_mem_fill f g _)
  have hdeepParent : f.address ≠ a := by
    have hmem := address_mem_fill f g (.node .null b e r)
    rw [PlacedTree.addresses_node] at hnodup
    grind
  simp only [bstRemove, hnode, Option.bind_eq_bind, Option.bind_some, hparent, if_false, hl, hroot,
    hnext, hb, List.cons_append, parentOf_cons, ne_eq, hdeepParent, not_false_iff, if_true,
    hreplace₁, hnode₁, hlink₂, hreplace, hsame, hnode₂, hlink]

/-- `BSTRemove` takes a node with two children out of its tree. -/
theorem exists_removed_of_children {c : List (TreeFrame α)} {l r : PlacedTree α} {a fuel : Nat}
    {d : α} (h : m.IsTree stub (fill c (.node l a d r))) (hl : l.root ≠ 0) (hr : r.root ≠ 0)
    (hfuel : r.addresses.length ≤ fuel) :
    ∃ m' t, bstRemove m fuel a = some m' ∧ m'.IsTree stub t ∧
      t.inorder = before c ++ (l.inorder ++ r.inorder) ++ after c := by
  obtain ⟨hframed, ⟨-, hnode, -, hright⟩, hnodup⟩ := h.framed_of_fill
  have hparent := parentOf_ne_zero h.stub_ne hframed
  rw [PlacedTree.addresses_node] at hnodup
  have hrNodup : r.addresses.Nodup := by grind
  obtain ⟨g, b, e, r', rfl, hbefore, hloop⟩ := exists_leftmost hright hrNodup hr
  have hnext : bstNext m fuel a = some b :=
    (bstNext_eq hnode hparent hr).trans (hloop fuel hfuel)
  have hinorder : (fill c (.node l b e (fill g r'))).inorder =
      before c ++ (l.inorder ++ (fill g (.node .null b e r')).inorder) ++ after c := by
    rw [inorder_fill, PlacedTree.inorder, inorder_fill, inorder_fill, hbefore,
      PlacedTree.inorder]
    rfl
  cases g with
  | nil =>
      obtain ⟨m', hremove, htree⟩ := exists_removed_near h hl hnext
      exact ⟨m', _, hremove, htree, hinorder⟩
  | cons f g =>
      obtain ⟨m', hremove, htree⟩ := exists_removed_far h hl hnext
      exact ⟨m', _, hremove, htree, hinorder⟩

/-- `BSTRemove` takes a node out of its tree, and the others keep their order. -/
theorem exists_removed {c : List (TreeFrame α)} {l r : PlacedTree α} {a fuel : Nat} {d : α}
    (h : m.IsTree stub (fill c (.node l a d r)))
    (hfuel : (fill c (.node l a d r)).addresses.length ≤ fuel) :
    ∃ m' t, bstRemove m fuel a = some m' ∧ m'.IsTree stub t ∧
      t.inorder = before c ++ (l.inorder ++ r.inorder) ++ after c := by
  obtain ⟨hframed, ⟨-, hnode, hleft, hright⟩, -⟩ := h.framed_of_fill
  have hparent := parentOf_ne_zero h.stub_ne hframed
  by_cases hl : l.root = 0
  · obtain ⟨m', hreplace, htree, -, hfresh⟩ := exists_replaced h (Or.inr rfl)
    refine ⟨freeNode m' a, fill c r, ?_, IsTree.freeNode htree hfresh, ?_⟩
    · simp only [bstRemove, hnode, Option.bind_eq_bind, Option.bind_some, hparent, if_false, hl,
        if_true, hreplace]
    · rw [inorder_fill, hleft.eq_null hl]
      rfl
  · by_cases hr : r.root = 0
    · obtain ⟨m', hreplace, htree, -, hfresh⟩ := exists_replaced h (Or.inl rfl)
      refine ⟨freeNode m' a, fill c l, ?_, IsTree.freeNode htree hfresh, ?_⟩
      · simp only [bstRemove, hnode, Option.bind_eq_bind, Option.bind_some, hparent, if_false, hl,
          hr, if_true, hreplace]
      · rw [inorder_fill, hright.eq_null hr, PlacedTree.inorder, List.append_nil]
    · refine exists_removed_of_children h hl hr ?_
      rw [(addresses_fill c _).length_eq, PlacedTree.addresses_node] at hfuel
      simp only [List.length_append, List.length_cons] at hfuel
      omega

/-! ## Insertion -/

/-- What comes before the place is below the data, and what comes after it is above. -/
def Surrounds (C : Comparator α) (data : α) (c : List (TreeFrame α)) : Prop :=
  (∀ x ∈ before c, C.cmp x.2 data < 0) ∧ ∀ x ∈ after c, C.cmp data x.2 < 0

/-- A comparison with the root of a sorted tree leads to one of its children. -/
theorem exists_frame_of_cmp {C : Comparator α} {l r : PlacedTree α} {a : Nat} {d data : α}
    (hsorted : C.Sorted ((PlacedTree.node l a d r).inorder.map Prod.snd))
    (hnew : C.cmp data d ≠ 0) :
    ∃ f t, PlacedTree.node l a d r = f.plug t ∧ (t = l ∨ t = r) ∧ f.data = d ∧
      f.side = (if 0 < C.cmp data d then .right else .left) ∧ Surrounds C data [f] := by
  rw [PlacedTree.inorder, List.map_append, List.map_cons, Comparator.sorted_append_cons] at hsorted
  obtain ⟨-, -, hbelow, habove⟩ := hsorted
  by_cases hcmp : 0 < C.cmp data d
  · have hlt := (C.swap d data).mpr hcmp
    refine ⟨.right l a d, r, rfl, Or.inr rfl, rfl, (if_pos hcmp).symm, fun x hx => ?_,
      fun x hx => absurd hx List.not_mem_nil⟩
    simp only [before, TreeFrame.before, List.nil_append, List.mem_append, List.mem_singleton] at hx
    rcases hx with hx | rfl
    · exact Comparator.lt_trans (hbelow _ (List.mem_map_of_mem hx)) hlt
    · exact hlt
  · have hlt : C.cmp data d < 0 := by omega
    refine ⟨.left a d r, l, rfl, Or.inl rfl, rfl, (if_neg hcmp).symm,
      fun x hx => absurd hx List.not_mem_nil, fun x hx => ?_⟩
    simp only [after, TreeFrame.after, List.append_nil, List.mem_cons] at hx
    rcases hx with rfl | hx
    · exact hlt
    · exact Comparator.lt_trans hlt (habove _ (List.mem_map_of_mem hx))

/-- Frames around frames. -/
theorem Surrounds.append {C : Comparator α} {data : α} {c g : List (TreeFrame α)}
    (hc : Surrounds C data c) (hg : Surrounds C data g) : Surrounds C data (c ++ g) := by
  rw [Surrounds, before_append, after_append]
  simp only [List.mem_append]
  exact ⟨fun x hx => hx.elim (hg.1 x) (hc.1 x), fun x hx => hx.elim (hc.2 x) (hg.2 x)⟩

/-- One comparison of the loop of `BSTInsert`. -/
theorem searchParent_plug {C : Comparator α} {parent : Nat} {f : TreeFrame α}
    {t : PlacedTree α} {data : α} (h : m.Stored parent (f.plug t))
    (hnew : C.cmp data f.data ≠ 0)
    (hside : f.side = if 0 < C.cmp data f.data then .right else .left) (fuel : Nat) :
    searchParent C.cmp m data (fuel + 1) f.address =
      if t.root = 0 then some (f.address, C.cmp data f.data)
      else searchParent C.cmp m data fuel t.root := by
  have hcell := ((stored_plug_iff f t).mp h).2.1
  have hdata : (f.cell parent t.root).data = some f.data := by cases f <;> rfl
  have hchild : child (f.cell parent t.root) f.side = t.root := by cases f <;> rfl
  simp only [searchParent, hcell, Option.bind_eq_bind, Option.bind_some, hdata, hnew, if_false,
    ← hside, hchild]

/-- The loop of `BSTInsert` finds an empty place for new data between what is below it and what
is above it. -/
theorem exists_searchParent {C : Comparator α} {parent : Nat} {t : PlacedTree α} {data : α}
    (h : m.Stored parent t) (ht : t.root ≠ 0) (hsorted : C.Sorted (t.inorder.map Prod.snd))
    (hnew : ∀ y ∈ t.inorder.map Prod.snd, C.cmp data y ≠ 0) :
    ∃ f c result, t = fill (f :: c) .null ∧ Surrounds C data (f :: c) ∧
      f.side = (if result < 0 then .left else .right) ∧
        ∀ fuel, t.addresses.length ≤ fuel →
          searchParent C.cmp m data fuel t.root = some (f.address, result) := by
  induction t generalizing parent with
  | null => exact absurd rfl ht
  | node l a d r ihLeft ihRight =>
      have hd : C.cmp data d ≠ 0 := hnew d (by simp [PlacedTree.inorder])
      obtain ⟨f, t, hplug, hchild, rfl, hside, hsurrounds⟩ := exists_frame_of_cmp hsorted hd
      have hroot : (PlacedTree.node l a f.data r).root = f.address := by
        rw [hplug, TreeFrame.root_plug]
      have hfuel : ∀ fuel, (PlacedTree.node l a f.data r).addresses.length ≤ fuel →
          ∃ n, fuel = n + 1 ∧ t.addresses.length ≤ n := by
        intro fuel hfuel
        rw [PlacedTree.addresses_node, List.length_append, List.length_cons] at hfuel
        refine ⟨fuel - 1, by omega, ?_⟩
        rcases hchild with rfl | rfl <;> omega
      have hstep := fun fuel => searchParent_plug (hplug ▸ h) hd hside fuel
      have hstored := ((stored_plug_iff f t).mp (hplug ▸ h)).2.2.2
      by_cases hempty : t.root = 0
      · obtain rfl := hstored.eq_null hempty
        refine ⟨f, [], C.cmp data f.data, hplug, hsurrounds, ?_, fun fuel hlength => ?_⟩
        · rw [hside]
          split <;> split <;> first | rfl | omega
        · obtain ⟨n, rfl, -⟩ := hfuel fuel hlength
          rw [hroot, hstep, if_pos hempty]
      · have hpart : (t.inorder.map Prod.snd).Sublist
            ((PlacedTree.node l a f.data r).inorder.map Prod.snd) := by
          rw [hplug, TreeFrame.inorder_plug]
          exact ((List.sublist_append_right f.before t.inorder).trans
            (List.sublist_append_left _ f.after)).map _
        have hsorted' := List.Pairwise.sublist hpart hsorted
        have hnew' := fun y hy => hnew y (hpart.subset hy)
        obtain ⟨g, c, result, ht, hinner, hresult, hloop⟩ :
            ∃ g c result, t = fill (g :: c) .null ∧ Surrounds C data (g :: c) ∧
              g.side = (if result < 0 then .left else .right) ∧
                ∀ fuel, t.addresses.length ≤ fuel →
                  searchParent C.cmp m data fuel t.root = some (g.address, result) := by
          rcases hchild with rfl | rfl
          · exact ihLeft hstored hempty hsorted' hnew'
          · exact ihRight hstored hempty hsorted' hnew'
        refine ⟨g, c ++ [f], result, ?_, hinner.append hsurrounds, hresult, fun fuel hlength => ?_⟩
        · rw [hplug, ht, ← List.cons_append, fill_append]
          rfl
        · obtain ⟨n, rfl, hn⟩ := hfuel fuel hlength
          rw [hroot, hstep, if_neg hempty, hloop n hn]

/-- A new node is none of a tree. -/
theorem IsFreeNode.ne_of_mem {b address : Nat} {t : PlacedTree α} (hfree : IsFreeNode m b)
    (h : m.IsTree stub t) (hmem : address ∈ stub :: t.addresses) : address ≠ b := by
  rintro rfl
  have hsome := h.isSome_of_mem hmem
  rw [hfree.2] at hsome
  cases hsome

/-- A tree stays as it is when a node is created. -/
theorem IsTree.createNode {b : Nat} {t : PlacedTree α} (h : m.IsTree stub t)
    (hfree : IsFreeNode m b) (data : α) : (createNode m b data).IsTree stub t :=
  h.congr fun _ hmem => Function.update_of_ne (hfree.ne_of_mem h hmem) ..

/-- `BSTInsert` hangs a new node into an empty place. -/
theorem exists_bstInsert_eq {C : Comparator α} {t : PlacedTree α} {b : Nat} {data : α}
    (h : m.IsTree stub t) (hfree : IsFreeNode m b) (hsorted : C.Sorted (t.inorder.map Prod.snd))
    (hnew : ∀ y ∈ t.inorder.map Prod.snd, C.cmp data y ≠ 0) :
    ∃ c, t = fill c .null ∧ Surrounds C data c ∧
      ∀ fuel, t.addresses.length ≤ fuel → bstInsert C.cmp m stub fuel (some b) data =
        some ((createNode m b data).hang (parentOf stub c) (sideOf c) b, b) := by
  have hstub : m.node? stub = _ := h.framed
  by_cases ht : t.root = 0
  · obtain rfl := h.stored.eq_null ht
    refine ⟨[], rfl, ⟨fun x hx => absurd hx List.not_mem_nil,
      fun x hx => absurd hx List.not_mem_nil⟩, fun fuel _ => ?_⟩
    simp only [bstInsert, hstub, Option.bind_eq_bind, Option.bind_some, ht, if_true, hang,
      hfree.1, if_false, parentOf_nil, sideOf]
  · have hcreated := IsTree.createNode h hfree data
    obtain ⟨f, c, result, rfl, hsurrounds, hside, hloop⟩ :=
      exists_searchParent hcreated.stored ht hsorted hnew
    have hne : f.address ≠ b :=
      hfree.ne_of_mem h (List.mem_cons_of_mem _ (address_mem_fill f c .null))
    refine ⟨f :: c, rfl, hsurrounds, fun fuel hfuel => ?_⟩
    simp only [bstInsert, hstub, Option.bind_eq_bind, Option.bind_some, ht, if_false,
      hloop fuel hfuel, hang, hfree.1, parentOf_cons, sideOf, hside,
      setParent_setChild_comm hne.symm]

/-- `BSTInsert` puts a new node at its place in order. -/
theorem exists_inserted {C : Comparator α} {t : PlacedTree α} {b : Nat} {data : α}
    (h : m.IsTree stub t) (hfree : IsFreeNode m b) (hsorted : C.Sorted (t.inorder.map Prod.snd))
    (hnew : ∀ y ∈ t.inorder.map Prod.snd, C.cmp data y ≠ 0) :
    ∃ c m', t = fill c .null ∧ Surrounds C data c ∧
      m'.IsTree stub (fill c (.node .null b data .null)) ∧
      ∀ fuel, t.addresses.length ≤ fuel →
        bstInsert C.cmp m stub fuel (some b) data = some (m', b) := by
  obtain ⟨c, rfl, hsurrounds, hinsert⟩ := exists_bstInsert_eq h hfree hsorted hnew
  obtain ⟨hframed, -, hnodup⟩ := (IsTree.createNode h hfree data).framed_of_fill
  rw [PlacedTree.addresses_null, List.append_nil] at hnodup
  have hfresh : b ∉ stub :: around c := by
    refine fun hmem => hfree.ne_of_mem h ?_ rfl
    rw [((addresses_fill c .null).cons stub).mem_iff, PlacedTree.addresses_null, List.append_nil]
    exact hmem
  have hnode : (createNode m b data).Stored 0 (.node .null b data .null) :=
    ⟨hfree.1, Function.update_self .., trivial, trivial⟩
  have hall : (stub :: (around c ++ (PlacedTree.node .null b data .null).addresses)).Nodup := by
    rw [PlacedTree.addresses_node, PlacedTree.addresses_null, List.nil_append]
    grind
  obtain ⟨hframed', hstored⟩ := hframed.hang hnode hall
  exact ⟨c, _, rfl, hsurrounds, IsTree.of_framed h.stub_ne hframed' hstored hall, hinsert⟩

/-! ## Iteration -/

/-- The place of a node on the way to the stub is not among the others. -/
theorem nodup_climb {f : TreeFrame α} {c : List (TreeFrame α)} {hole : Nat}
    (h : (hole :: stub :: around (f :: c)).Nodup) : (f.address :: stub :: around c).Nodup := by
  cases f with
  | left a d s =>
      simp only [around_cons, TreeFrame.addresses, TreeFrame.address] at h ⊢
      grind
  | right s a d =>
      simp only [around_cons, TreeFrame.addresses, TreeFrame.address] at h ⊢
      grind

/-- A place is not that of its sibling. -/
theorem sibling_root_ne {f : TreeFrame α} {c : List (TreeFrame α)} {hole : Nat} (hne : hole ≠ 0)
    (h : (hole :: stub :: around (f :: c)).Nodup) : f.sibling.root ≠ hole := by
  rintro rfl
  refine (List.nodup_cons.mp h).1 (List.mem_cons_of_mem _ ?_)
  rw [around_cons]
  exact List.mem_append_left _ (List.mem_cons_of_mem _ (PlacedTree.root_mem hne))

/-- The climb of `BSTNext` finds the first node after the place, or the stub. -/
theorem climb_eq {c : List (TreeFrame α)} {hole : Nat} {node : TreeNode α} (hstub : stub ≠ 0)
    (h : m.Framed stub c hole) (hnode : m.node? hole = some node)
    (hparent : node.parent = parentOf stub c) (hne : hole ≠ 0)
    (hnodup : (hole :: stub :: around c).Nodup) {fuel : Nat} (hfuel : c.length < fuel) :
    climb m .right fuel hole = some (((after c).map Prod.fst).headD stub) := by
  induction c generalizing hole node fuel with
  | nil =>
      obtain ⟨fuel, rfl⟩ : ∃ n, fuel = n + 1 := ⟨fuel - 1, by omega⟩
      have hroot : m.node? stub = _ := h
      have hother : stub ≠ hole := fun heq =>
        (List.nodup_cons.mp hnodup).1 (heq ▸ List.mem_cons_self)
      simp only [climb, hnode, hparent, parentOf_nil, hstub, if_false, hroot, child, hother, after,
        List.map_nil, List.headD_nil]
  | cons f c ih =>
      obtain ⟨fuel, rfl⟩ : ∃ n, fuel = n + 1 := ⟨fuel - 1, by omega⟩
      obtain ⟨hfne, hcell, -, hframed⟩ := h
      cases f with
      | left a d s =>
          have hright : s.root ≠ hole := sibling_root_ne hne hnodup
          simp only [TreeFrame.address, TreeFrame.cell] at hfne hcell
          simp only [climb, hnode, hparent, parentOf_cons, TreeFrame.address, hfne, if_false, hcell,
            child, hright, after, TreeFrame.after, List.cons_append, List.map_cons,
            List.headD_cons]
      | right s a d =>
          have hlength : c.length < fuel := Nat.lt_of_succ_lt_succ hfuel
          have hnext := ih hframed hcell rfl hfne (nodup_climb hnodup) hlength
          simp only [TreeFrame.address, TreeFrame.cell] at hfne hcell hnext
          simp only [climb, hnode, hparent, parentOf_cons, TreeFrame.address, hfne, if_false, hcell,
            child, if_true]
          exact hnext

/-- `BSTNext` of a node is the first one after it, or the end. -/
theorem bstNext_eq_headD {c : List (TreeFrame α)} {l r : PlacedTree α} {a fuel : Nat} {d : α}
    (h : m.IsTree stub (fill c (.node l a d r)))
    (hfuel : (fill c (.node l a d r)).addresses.length ≤ fuel) :
    bstNext m fuel a = some (((r.inorder ++ after c).map Prod.fst).headD stub) := by
  obtain ⟨hframed, ⟨hne, hnode, -, hright⟩, hnodup⟩ := h.framed_of_fill
  have hparent := parentOf_ne_zero h.stub_ne hframed
  rw [(addresses_fill c _).length_eq] at hfuel
  rw [PlacedTree.addresses_node] at hnodup hfuel
  simp only [List.length_append, List.length_cons] at hfuel
  by_cases hr : r.root = 0
  · obtain rfl := hright.eq_null hr
    have hframes := length_le_around c
    have hlength : c.length < fuel := by omega
    have hplace : (a :: stub :: around c).Nodup := by grind
    have hclimb := climb_eq h.stub_ne hframed hnode rfl hne hplace hlength
    simp only [bstNext, hnode, Option.bind_eq_bind, Option.bind_some, hparent, if_false,
      stepInOrder, child, ne_eq, hr, not_true]
    exact hclimb
  · obtain ⟨g, b, e, r', rfl, hbefore, hloop⟩ :=
      exists_leftmost hright (by grind) hr
    rw [bstNext_eq hnode hparent hr, hloop fuel (by omega), inorder_fill, hbefore,
      PlacedTree.inorder]
    rfl

/-- `BSTBegin` is the first node, or the end. -/
theorem bstBegin_eq_headD {t : PlacedTree α} (h : m.IsTree stub t) {fuel : Nat}
    (hfuel : t.addresses.length ≤ fuel) : bstBegin m fuel stub = some (t.addresses.headD stub) := by
  have hstub : m.node? stub = _ := h.framed
  by_cases ht : t.root = 0
  · obtain rfl := h.stored.eq_null ht
    simp only [bstBegin, bstEnd, hstub, Option.bind_eq_bind, Option.bind_some, ht, ne_eq, not_true,
      if_false, Option.map_some]
    rfl
  · obtain ⟨g, b, e, r, rfl, hbefore, hloop⟩ :=
      exists_leftmost h.stored (List.nodup_cons.mp h.nodup).2 ht
    simp only [bstBegin, hstub, Option.bind_eq_bind, Option.bind_some, ne_eq, ht, not_false_iff,
      if_true, hloop fuel hfuel]
    rw [PlacedTree.addresses, inorder_fill, hbefore, PlacedTree.inorder]
    rfl

/-- `BSTNext` in the order of the whole tree. -/
theorem bstNext_of_inorder {t : PlacedTree α} {before' after' : List (Nat × α)} {a fuel : Nat}
    {d : α} (h : m.IsTree stub t) (hinorder : t.inorder = before' ++ (a, d) :: after')
    (hfuel : t.addresses.length ≤ fuel) :
    bstNext m fuel a = some ((after'.map Prod.fst).headD stub) := by
  obtain ⟨c, l, r, rfl, -, rfl⟩ :=
    exists_fill_of_inorder (List.nodup_cons.mp h.nodup).2 hinorder
  exact bstNext_eq_headD h hfuel

/-- `BSTForEach` with an action that does not fail gives it the data in their order. -/
theorem bstForEach_eq {σ : Type} {t : PlacedTree α} (h : m.IsTree stub t) (action : α → σ → σ)
    {bound : Nat} (hbound : t.addresses.length ≤ bound) {before' after' : List (Nat × α)}
    (hinorder : t.inorder = before' ++ after') (param : σ) {fuel : Nat}
    (hfuel : after'.length < fuel) :
    bstForEach m (fun data param => (0, action data param)) bound stub fuel
        ((after'.map Prod.fst).headD stub) param =
      some (0, (after'.map Prod.snd).foldl (fun param data => action data param) param) := by
  induction after' generalizing before' param fuel with
  | nil =>
      obtain ⟨fuel, rfl⟩ : ∃ n, fuel = n + 1 := ⟨fuel - 1, by omega⟩
      exact if_pos rfl
  | cons x after' ih =>
      obtain ⟨a, d⟩ := x
      obtain ⟨fuel, rfl⟩ : ∃ n, fuel = n + 1 := ⟨fuel - 1, by omega⟩
      have hmem : (a, d) ∈ t.inorder := by
        rw [hinorder]
        exact List.mem_append_right _ List.mem_cons_self
      obtain ⟨node, hnode, hdata⟩ := h.stored.data_eq hmem
      have hne : a ≠ stub := by
        rintro rfl
        exact (List.nodup_cons.mp h.nodup).1 (List.mem_map_of_mem hmem)
      have hshift : t.inorder = (before' ++ [(a, d)]) ++ after' := by
        rw [hinorder, List.append_assoc, List.singleton_append]
      have hrest := ih hshift (action d param) (Nat.lt_of_succ_lt_succ hfuel)
      simp only [bstForEach, List.map_cons, List.headD_cons, hne, if_false, bstGetData, hnode,
        Option.bind_eq_bind, Option.bind_some, hdata, ne_eq, not_true,
        bstNext_of_inorder h hinorder hbound, hrest, List.foldl_cons]

/-- The data that `BSTForEach` visits from `BSTBegin` to `BSTEnd`. -/
def bstInorder (m : TreeMemory α) (fuel stub : Nat) : Option (List α) := do
  let first ← bstBegin m fuel stub
  let last ← bstEnd m stub
  let (_, visited) ←
    bstForEach m (fun data visited => (0, visited ++ [data])) fuel last fuel first []
  some visited

/-- `BSTEnd` is the stub. -/
theorem bstEnd_eq {t : PlacedTree α} (h : m.IsTree stub t) : bstEnd m stub = some stub := by
  have hstub : m.node? stub = _ := h.framed
  rw [bstEnd, hstub, Option.map_some]

/-- The iterators visit the data in the order of the tree. -/
theorem bstInorder_eq {t : PlacedTree α} (h : m.IsTree stub t) {fuel : Nat}
    (hfuel : t.addresses.length < fuel) :
    bstInorder m fuel stub = some (t.inorder.map Prod.snd) := by
  have hlength : t.inorder.length < fuel := by rwa [PlacedTree.addresses, List.length_map] at hfuel
  have hloop := bstForEach_eq h (fun data visited => visited ++ [data]) (Nat.le_of_lt hfuel)
    (List.nil_append t.inorder).symm [] hlength
  have hvisited : (t.inorder.map Prod.snd).foldl (fun visited data => visited ++ [data]) [] =
      t.inorder.map Prod.snd := by
    rw [List.foldl_append_eq_append, List.nil_append]
    exact List.flatMap_singleton' _
  rw [hvisited] at hloop
  simp only [bstInorder, bstBegin_eq_headD h (Nat.le_of_lt hfuel), Option.bind_eq_bind,
    Option.bind_some, bstEnd_eq h, PlacedTree.addresses, hloop]

end Ds
end InfinityLabs
