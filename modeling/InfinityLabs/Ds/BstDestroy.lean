import InfinityLabs.Ds.BstRuns

/-!
# The end of the binary search tree

The loop of `BSTDestroy` goes down to a leaf, cuts it from its parent and goes on there.  So it
leaves every node by its left subtree first, then by its right one, and then up.
-/

namespace InfinityLabs
namespace Ds

open Lib Lib.ParentTree Lib.ParentTree.TreeMemory

variable {α : Type}

/-! ## The function -/

/-- The loop of `BSTDestroy`: the memory, and the nodes that it frees in their order. -/
def destroyLoop (stub : Nat) : Nat → TreeMemory α → Nat → List Nat →
    Option (TreeMemory α × List Nat)
  | 0, _, _, _ => none
  | fuel + 1, m, node, freed => do
      let root ← m.node? stub
      if root.left = 0 then some (m, freed)
      else
        let cell ← m.node? node
        if cell.left ≠ 0 then destroyLoop stub fuel m cell.left freed
        else if cell.right ≠ 0 then destroyLoop stub fuel m cell.right freed
        else
          -- a leaf is cut from its parent, and the descent starts again from there
          let m ←
            if cell.parent ≠ 0 then do
              let parent ← m.node? cell.parent
              some (m.setChild cell.parent (if parent.left = node then .left else .right) 0)
            else some m
          destroyLoop stub fuel (freeNode m node) cell.parent (freed ++ [node])

/-- `BSTDestroy`, with what it frees; the last is the tree itself. -/
def bstDestroy (m : TreeMemory α) (fuel stub : Nat) : Option (TreeMemory α × List Nat) := do
  let root ← m.node? stub
  let (m, freed) ← destroyLoop stub fuel m root.left []
  some (freeNode m stub, freed ++ [stub])

/-! ## One subtree -/

/-- The nodes with the children before their parent. -/
def postorder : PlacedTree α → List Nat
  | .null => []
  | .node left address _ right => postorder left ++ (postorder right ++ [address])

/-- Each node once. -/
theorem postorder_perm (t : PlacedTree α) : (postorder t).Perm t.addresses := by
  induction t with
  | null => exact .refl _
  | node left address data right ihLeft ihRight =>
      rw [postorder, PlacedTree.addresses_node]
      exact ihLeft.append ((List.perm_append_singleton ..).trans (ihRight.cons address))

variable {m m' m'' : TreeMemory α} {stub : Nat} {c : List (TreeFrame α)} {s t : PlacedTree α}

/-- The subtree in a place is freed, and the place is empty. -/
structure Cleared (stub : Nat) (m m' : TreeMemory α) (c : List (TreeFrame α))
    (t : PlacedTree α) : Prop where
  framed : m'.Framed stub c 0
  gone : ∀ address ∈ t.addresses, m'.node? address = none
  kept : ∀ address, address ≠ parentOf stub c → address ∉ t.addresses →
    m'.node? address = m.node? address

/-- A tree with something in it has a root. -/
theorem exists_root {hole : Nat} (h : m.Framed stub c hole) (hsome : c ≠ [] ∨ hole ≠ 0) :
    ∃ root, m.node? stub = some root ∧ root.left ≠ 0 := by
  induction c generalizing hole with
  | nil => exact ⟨_, h, hsome.resolve_left (not_not_intro rfl)⟩
  | cons f c ih => exact ih h.2.2.2 (Or.inr h.1)

/-- Which child the place is. -/
theorem exists_parent_side {hole : Nat} (h : m.Framed stub c hole) (hne : hole ≠ 0)
    (hfresh : hole ∉ around c) :
    ∃ parent, m.node? (parentOf stub c) = some parent ∧
      (if parent.left = hole then Side.left else Side.right) = sideOf c := by
  cases c with
  | nil => exact ⟨_, h, if_pos rfl⟩
  | cons f c =>
      refine ⟨_, h.2.1, ?_⟩
      cases f with
      | left a d s => exact if_pos rfl
      | right s a d =>
          refine if_neg fun heq => hfresh ?_
          have hroot : s.root = hole := heq
          rw [around_cons, TreeFrame.addresses]
          refine List.mem_append_left _ (List.mem_cons_of_mem _ ?_)
          rw [← hroot]
          exact PlacedTree.root_mem (hroot ▸ hne)

/-- A leaf is cut from its parent and freed. -/
theorem exists_cut {a : Nat} {d : α} (hstub : stub ≠ 0) (h : m.Framed stub c a) (hne : a ≠ 0)
    (hnode : m.node? a =
      some { parent := parentOf stub c, left := 0, right := 0, data := some d })
    (hnodup : (stub :: (around c ++ [a])).Nodup) :
    ∃ m', Cleared stub m m' c (.node .null a d .null) ∧ ∀ fuel freed,
      destroyLoop stub (fuel + 1) m a freed =
        destroyLoop stub fuel m' (parentOf stub c) (freed ++ [a]) := by
  have hplace : (stub :: around c).Nodup ∧ a ∉ stub :: around c := by grind
  obtain ⟨root, hroot, hrootNe⟩ := exists_root h (Or.inr hne)
  obtain ⟨parent, hparent, hside⟩ := exists_parent_side h hne
    fun hmem => hplace.2 (List.mem_cons_of_mem _ hmem)
  have hparentNe := parentOf_ne_zero hstub h
  refine ⟨freeNode (m.setChild (parentOf stub c) (sideOf c) 0) a, ⟨?_, ?_, ?_⟩, fun fuel freed => ?_⟩
  · refine (h.setChild hplace.1 0).congr ?_ fun address hmem => ?_
    · exact Function.update_of_ne (fun heq : stub = a => hplace.2 (heq ▸ List.mem_cons_self)) ..
    · exact Function.update_of_ne
        (fun heq : address = a => hplace.2 (List.mem_cons_of_mem _ (heq ▸ hmem))) ..
  · intro address hmem
    obtain rfl : address = a := by simpa using hmem
    exact Function.update_self ..
  · intro address hother hmem
    have hdifferent : address ≠ a := by simpa using hmem
    exact (Function.update_of_ne hdifferent ..).trans (setChild_of_ne hother ..)
  · rw [destroyLoop]
    simp only [hroot, hrootNe, hnode, hparent, hparentNe, hside, Option.bind_eq_bind,
      Option.bind_some, ne_eq, not_true, not_false_iff, if_true, if_false]

/-- The loop clears the subtree in a place and goes on above it. -/
def Clears (stub : Nat) (m : TreeMemory α) (c : List (TreeFrame α)) (t : PlacedTree α) : Prop :=
  ∃ m', Cleared stub m m' c t ∧ ∀ fuel freed,
    destroyLoop stub (fuel + (2 * t.addresses.length - 1)) m t.root freed =
      destroyLoop stub fuel m' (parentOf stub c) (freed ++ postorder t)

/-- The loop at a node clears the child that it visits first, if there is one. -/
theorem exists_cleared_child {f : TreeFrame α} (h : m.Framed stub (f :: c) t.root)
    (ht : m.Stored f.address t) (hfirst : f.side = .left ∨ f.sibling = .null)
    (hclears : t.root ≠ 0 → Clears stub m (f :: c) t) :
    ∃ m', Cleared stub m m' (f :: c) t ∧ ∀ fuel freed,
      destroyLoop stub (fuel + 2 * t.addresses.length) m f.address freed =
        destroyLoop stub fuel m' f.address (freed ++ postorder t) := by
  by_cases hroot : t.root = 0
  · obtain rfl := ht.eq_null hroot
    refine ⟨m, ⟨h, fun _ hmem => absurd hmem List.not_mem_nil, fun _ _ _ => rfl⟩,
      fun fuel freed => ?_⟩
    rw [postorder, List.append_nil]
    rfl
  · obtain ⟨m', hcleared, hloop⟩ := hclears hroot
    refine ⟨m', hcleared, fun fuel freed => ?_⟩
    have hpos : 0 < t.addresses.length := List.length_pos_of_mem (PlacedTree.root_mem hroot)
    have hpasses : fuel + 2 * t.addresses.length = fuel + (2 * t.addresses.length - 1) + 1 := by
      omega
    obtain ⟨root, hrootNode, hrootNe⟩ := exists_root h (Or.inr hroot)
    have hnode := h.2.1
    refine Eq.trans ?_ (hloop fuel freed)
    rw [hpasses, destroyLoop]
    simp only [hrootNode, hrootNe, hnode, Option.bind_eq_bind, Option.bind_some, if_false]
    cases f with
    | left address data sibling =>
        simp only [TreeFrame.cell, ne_eq, hroot, not_false_iff, if_true]
    | right sibling address data =>
        have hempty : sibling.root = 0 := by
          rw [show sibling = .null from hfirst.resolve_left (fun h => by cases h)]
          rfl
        simp only [TreeFrame.cell, ne_eq, hempty, not_true, hroot, not_false_iff, if_true, if_false]

/-- Both children and the node are cleared. -/
theorem Cleared.node {m₁ m₂ m₃ : TreeMemory α} {l r : PlacedTree α} {a : Nat} {d : α}
    (h₁ : Cleared stub m m₁ (.left a d r :: c) l)
    (h₂ : Cleared stub m₁ m₂ (.right .null a d :: c) r)
    (h₃ : Cleared stub m₂ m₃ c (.node .null a d .null))
    (hnodup : (stub :: (around c ++ (l.addresses ++ a :: r.addresses))).Nodup) :
    Cleared stub m m₃ c (.node l a d r) := by
  have hparent := parentOf_mem stub c
  have hlast : ∀ address, address ≠ parentOf stub c → address ≠ a →
      m₃.node? address = m₂.node? address := fun address hother hne =>
    h₃.kept address hother (by simpa using hne)
  refine ⟨h₃.framed, fun address hmem => ?_, fun address hother hmem => ?_⟩
  · have hother : address ≠ parentOf stub c := by
      rw [PlacedTree.addresses_node] at hmem
      grind
    by_cases hne : address = a
    · exact h₃.gone address (by simpa using hne)
    · rw [hlast address hother hne]
      by_cases hr : address ∈ r.addresses
      · exact h₂.gone address hr
      · rw [h₂.kept address hne hr]
        refine h₁.gone address ?_
        rw [PlacedTree.addresses_node, List.mem_append, List.mem_cons] at hmem
        tauto
  · rw [PlacedTree.addresses_node, List.mem_append, List.mem_cons, not_or, not_or] at hmem
    rw [hlast address hother hmem.2.1, h₂.kept address hmem.2.1 hmem.2.2,
      h₁.kept address hmem.2.1 hmem.1]

/-- By induction on the subtree: the left child, the right child and the node itself. -/
theorem clears (hstub : stub ≠ 0) (h : m.Framed stub c t.root) (ht : m.Stored (parentOf stub c) t)
    (hne : t.root ≠ 0) (hnodup : (stub :: (around c ++ t.addresses)).Nodup) :
    Clears stub m c t := by
  induction t generalizing m c with
  | null => exact absurd rfl hne
  | node l a d r ihLeft ihRight =>
      obtain ⟨ha, hnode, hleft, hright⟩ := ht
      rw [PlacedTree.addresses_node] at hnodup
      have hplaceLeft : (stub :: (a :: r.addresses ++ around c ++ l.addresses)).Nodup := by grind
      have hplaceRight : (stub :: (a :: [] ++ around c ++ r.addresses)).Nodup := by grind
      have hplaceNode : (stub :: (around c ++ [a])).Nodup := by grind
      have hplace : m.Framed stub (.left a d r :: c) l.root := ⟨ha, hnode, hright, h⟩
      obtain ⟨m₁, h₁, hloop₁⟩ := exists_cleared_child hplace hleft (Or.inl rfl)
        fun hl => ihLeft hplace hleft hl hplaceLeft
      obtain ⟨-, hnode₁, hright₁, hframed₁⟩ := h₁.framed
      have hplace₁ : m₁.Framed stub (.right .null a d :: c) r.root :=
        ⟨ha, hnode₁, trivial, hframed₁⟩
      obtain ⟨m₂, h₂, hloop₂⟩ := exists_cleared_child hplace₁ hright₁ (Or.inr rfl)
        fun hr => ihRight hplace₁ hright₁ hr hplaceRight
      obtain ⟨-, hnode₂, -, hframed₂⟩ := h₂.framed
      obtain ⟨m₃, h₃, hloop₃⟩ := exists_cut hstub hframed₂ ha hnode₂ hplaceNode
      refine ⟨m₃, h₁.node h₂ h₃ hnodup, fun fuel freed => ?_⟩
      have hpasses : fuel + (2 * (PlacedTree.node l a d r).addresses.length - 1) =
          fuel + 1 + 2 * r.addresses.length + 2 * l.addresses.length := by
        rw [PlacedTree.addresses_node, List.length_append, List.length_cons]
        omega
      have hparts : freed ++ postorder (.node l a d r) =
          freed ++ postorder l ++ postorder r ++ [a] := by
        rw [postorder, List.append_assoc, List.append_assoc]
      rw [hpasses, hparts]
      exact (hloop₁ _ _).trans ((hloop₂ _ _).trans (hloop₃ _ _))

/-! ## The whole tree -/

/-- `BSTDestroy` frees the nodes of a tree and its stub, and nothing else. -/
theorem exists_bstDestroy (h : m.IsTree stub t) :
    ∃ m', (∀ fuel, 2 * t.addresses.length < fuel →
        bstDestroy m fuel stub = some (m', postorder t ++ [stub])) ∧
      (∀ address ∈ stub :: t.addresses, m'.node? address = none) ∧
      ∀ address, address ∉ stub :: t.addresses → m'.node? address = m.node? address := by
  have hstub : m.node? stub = _ := h.framed
  obtain ⟨m', hcleared, hloop⟩ : ∃ m', Cleared stub m m' [] t ∧
      ∀ fuel, 2 * t.addresses.length < fuel →
        destroyLoop stub fuel m t.root [] = some (m', postorder t) := by
    by_cases ht : t.root = 0
    · obtain rfl := h.stored.eq_null ht
      refine ⟨m, ⟨h.framed, fun _ hmem => absurd hmem List.not_mem_nil, fun _ _ _ => rfl⟩,
        fun fuel hfuel => ?_⟩
      obtain ⟨fuel, rfl⟩ : ∃ n, fuel = n + 1 := ⟨fuel - 1, by omega⟩
      simp only [destroyLoop, hstub, ht, Option.bind_eq_bind, Option.bind_some, if_true]
      rfl
    · obtain ⟨m', hcleared, hloop⟩ := clears h.stub_ne h.framed h.stored ht h.nodup
      have hpos := List.length_pos_of_mem (PlacedTree.root_mem ht)
      refine ⟨m', hcleared, fun fuel hfuel => ?_⟩
      obtain ⟨k, rfl⟩ : ∃ k, fuel = k + 1 + (2 * t.addresses.length - 1) :=
        ⟨fuel - 2 * t.addresses.length, by omega⟩
      have hempty : m'.node? stub = _ := hcleared.framed
      rw [hloop, destroyLoop, hempty]
      rfl
  refine ⟨freeNode m' stub, fun fuel hfuel => ?_, fun address hmem => ?_, fun address hmem => ?_⟩
  · simp only [bstDestroy, hstub, Option.bind_eq_bind, Option.bind_some, hloop fuel hfuel]
  · by_cases heq : address = stub
    · rw [heq]
      exact Function.update_self ..
    · refine (Function.update_of_ne heq ..).trans (hcleared.gone address ?_)
      exact (List.mem_cons.mp hmem).resolve_left heq
  · rw [List.mem_cons, not_or] at hmem
    exact (Function.update_of_ne hmem.1 ..).trans (hcleared.kept address hmem.1 hmem.2)

variable {C : Comparator α} {s : BstState α}

/-- After every sequence of insertions of new data and of removals, `BSTDestroy` comes to its end
without a pointer to a freed node; it frees every node and the tree itself once, and leaves the
rest of the memory. -/
theorem bst_destroys (h : (bstMachine C stub).Reached s) :
    ∃ memory freed, (∀ fuel, 2 * s.content.length < fuel →
        bstDestroy s.memory fuel stub = some (memory, freed)) ∧
      freed.Nodup ∧ freed.Perm (stub :: s.iterators) ∧
      (∀ address ∈ freed, memory.node? address = none) ∧
      ∀ address, address ∉ freed → memory.node? address = s.memory.node? address := by
  obtain ⟨t, htree, -, hperm⟩ := BstState.holds_of_reached h
  obtain ⟨memory, hdestroy, hgone, hkept⟩ := exists_bstDestroy htree
  have hiterators : t.addresses.Perm s.iterators := hperm.map Prod.fst
  have hfreed : (postorder t ++ [stub]).Perm (stub :: t.addresses) :=
    (List.perm_append_singleton stub _).trans ((postorder_perm t).cons stub)
  refine ⟨memory, postorder t ++ [stub], fun fuel hfuel => hdestroy fuel ?_, ?_,
    hfreed.trans (hiterators.cons stub), ?_, ?_⟩
  · rwa [length_addresses hperm]
  · exact hfreed.nodup_iff.mpr htree.nodup
  · exact fun address hmem => hgone address (hfreed.mem_iff.mp hmem)
  · exact fun address hmem => hkept address fun h => hmem (hfreed.mem_iff.mpr h)

/-- Three nodes: the leaves are freed before their parent. -/
theorem bst_destroys_newBst :
    ∃ s, (bstMachine natural 16).run newBst [.insert 4 32, .insert 9 48, .insert 2 64] = some s ∧
      (bstDestroy s.memory 7 16).map Prod.snd = some [64, 48, 32, 16] ∧
      ∃ memory freed, (∀ fuel, 2 * s.content.length < fuel →
          bstDestroy s.memory fuel 16 = some (memory, freed)) ∧
        freed.Nodup ∧ freed.Perm (16 :: s.iterators) ∧
        (∀ address ∈ freed, memory.node? address = none) ∧
        ∀ address, address ∉ freed → memory.node? address = s.memory.node? address := by
  have hrun : (bstMachine natural 16).run newBst
      [.insert 4 32, .insert 9 48, .insert 2 64] = some _ := rfl
  exact ⟨_, hrun, rfl, bst_destroys (Machine.Reached.run
    (.start ⟨⟨fun _ => none⟩, by decide, rfl, rfl⟩) hrun)⟩

end Ds
end InfinityLabs
