import InfinityLabs.Ds.BstShape
import InfinityLabs.Lib.Runs

/-!
# The binary search tree over its runs

By induction over insertions of new data and removals, the links of the tree go both ways, the
iterators visit its content in order, and an iterator refers to its datum until it is removed.
-/

namespace InfinityLabs
namespace Ds

open Lib Lib.ParentTree

variable {α : Type}

/-! ## The runs -/

/-- A tree in memory, and the iterators that were inserted and not removed, with their data.
Every iterator that a call returns is one of these, or the end. -/
structure BstState (α : Type) where
  memory : TreeMemory α
  content : List (Nat × α)

/-- The calls that change a tree; `node` is what `malloc` returns. -/
inductive BstAction (α : Type) where
  | insert (data : α) (node : Nat)
  | remove (iter : Nat)

/-- No datum in the tree is equal to the new one. -/
def BstState.IsNew (C : Comparator α) (s : BstState α) (data : α) : Prop :=
  ∀ x ∈ s.content, C.cmp data x.2 ≠ 0

instance BstState.decidableIsNew (C : Comparator α) (s : BstState α) (data : α) :
    Decidable (s.IsNew C data) :=
  inferInstanceAs (Decidable (∀ x ∈ s.content, C.cmp data x.2 ≠ 0))

/-- A call: the insertion of new data, or the removal of an iterator.  The loops of a call may
pass every node. -/
def BstState.step (C : Comparator α) (stub : Nat) (s : BstState α) :
    BstAction α → Option (BstState α)
  | .insert data node =>
      if s.IsNew C data ∧ IsFreeNode s.memory node then
        (bstInsert C.cmp s.memory stub s.content.length (some node) data).map
          fun (memory, iter) => { memory, content := (iter, data) :: s.content }
      else none
  | .remove iter =>
      if iter ∈ s.content.map Prod.fst then
        (bstRemove s.memory s.content.length iter).map
          fun memory => { memory, content := s.content.filter fun x => x.1 != iter }
      else none

/-- The runs of a tree that start with `BSTCreate`. -/
def bstMachine (C : Comparator α) (stub : Nat) : Machine (BstState α) (BstAction α) where
  start s := ∃ memory : TreeMemory α, IsFreeNode memory stub ∧
    s.memory = bstCreate memory stub ∧ s.content = []
  step := BstState.step C stub

/-- The memory stores a tree with the content, in order. -/
def BstState.Holds (C : Comparator α) (stub : Nat) (s : BstState α) : Prop :=
  ∃ t, s.memory.IsTree stub t ∧ C.Sorted (t.inorder.map Prod.snd) ∧ t.inorder.Perm s.content

variable {C : Comparator α} {stub : Nat} {s s' : BstState α}

/-- The new tree is empty. -/
theorem BstState.holds_start (h : (bstMachine C stub).start s) : s.Holds C stub := by
  obtain ⟨memory, hfree, hmemory, hcontent⟩ := h
  refine ⟨.null, ⟨hfree.1, ?_, trivial, List.nodup_singleton stub⟩, List.Pairwise.nil, ?_⟩
  · rw [hmemory]
    exact Function.update_self ..
  · rw [hcontent]
    exact .refl _

/-- The nodes of the tree are the iterators. -/
theorem length_addresses {t : PlacedTree α} (hperm : t.inorder.Perm s.content) :
    t.addresses.length = s.content.length := by
  rw [PlacedTree.addresses, List.length_map, hperm.length_eq]

/-- An insertion of new data gets through. -/
theorem BstState.Holds.insert (h : s.Holds C stub) {data : α} {node : Nat}
    (hnew : s.IsNew C data) (hfree : IsFreeNode s.memory node) :
    ∃ s', s.step C stub (.insert data node) = some s' ∧ s'.Holds C stub := by
  obtain ⟨t, htree, hsorted, hperm⟩ := h
  have hnew' : ∀ y ∈ t.inorder.map Prod.snd, C.cmp data y ≠ 0 := by
    intro y hy
    obtain ⟨x, hx, rfl⟩ := List.mem_map.mp hy
    exact hnew x (hperm.mem_iff.mp hx)
  obtain ⟨c, memory, rfl, hsurrounds, htree', hinsert⟩ :=
    exists_inserted htree hfree hsorted hnew'
  refine ⟨⟨memory, (node, data) :: s.content⟩, ?_, fill c (.node .null node data .null), htree',
    ?_, ?_⟩
  · rw [BstState.step, if_pos ⟨hnew, hfree⟩, hinsert _ (Nat.le_of_eq (length_addresses hperm))]
    rfl
  · rw [inorder_fill, PlacedTree.inorder, List.append_nil] at hsorted
    rw [inorder_fill, PlacedTree.inorder, PlacedTree.inorder, List.nil_append,
      List.append_assoc, List.singleton_append, List.map_append, List.map_cons,
      Comparator.sorted_append_cons]
    rw [List.map_append] at hsorted
    obtain ⟨hbelow, habove, -⟩ := List.pairwise_append.mp hsorted
    exact ⟨hbelow, habove, List.forall_mem_map.mpr hsurrounds.1,
      List.forall_mem_map.mpr hsurrounds.2⟩
  · rw [inorder_fill, PlacedTree.inorder, List.append_nil] at hperm
    rw [inorder_fill, PlacedTree.inorder, PlacedTree.inorder, List.nil_append,
      List.append_assoc, List.singleton_append]
    exact List.perm_middle.trans (hperm.cons _)

/-- Of nodes with different addresses one is filtered out. -/
theorem filter_ne_address {below above : List (Nat × α)} {a : Nat} {d : α}
    (h : ((below ++ (a, d) :: above).map Prod.fst).Nodup) :
    (below ++ (a, d) :: above).filter (fun x => x.1 != a) = below ++ above := by
  rw [List.map_append, List.map_cons, List.nodup_middle, List.nodup_cons, List.mem_append,
    not_or] at h
  have hothers : ∀ l : List (Nat × α), a ∉ l.map Prod.fst →
      l.filter (fun x => x.1 != a) = l := by
    intro l hl
    refine List.filter_eq_self.mpr fun x hx => bne_iff_ne.mpr fun heq => hl ?_
    exact heq ▸ List.mem_map_of_mem hx
  rw [List.filter_append, List.filter_cons_of_neg (by simp), hothers below h.1.1,
    hothers above h.1.2]

/-- What a removal does: one datum goes, and the other iterators keep theirs. -/
structure BstState.TakesOut (stub : Nat) (s : BstState α) (iter : Nat) (data : α)
    (s' : BstState α) : Prop where
  inorder : ∀ fuel, s.content.length < fuel → ∃ below above,
    bstInorder s.memory fuel stub = some (below ++ data :: above) ∧
      bstInorder s'.memory fuel stub = some (below ++ above)
  others : ∀ x ∈ s.content, x.1 ≠ iter → bstGetData s'.memory x.1 = some x.2

/-- A removal of an iterator gets through. -/
theorem BstState.Holds.remove (h : s.Holds C stub) {iter : Nat} {data : α}
    (hmem : (iter, data) ∈ s.content) :
    ∃ s', s.step C stub (.remove iter) = some s' ∧ s'.Holds C stub ∧
      s.TakesOut stub iter data s' := by
  obtain ⟨t, htree, hsorted, hperm⟩ := h
  obtain ⟨c, l, r, rfl⟩ := exists_fill_of_mem (hperm.mem_iff.mpr hmem)
  have hlength := length_addresses hperm
  obtain ⟨memory, t', hremove, htree', hinorder'⟩ := exists_removed htree (Nat.le_of_eq hlength)
  have hinorder : (fill c (.node l iter data r)).inorder =
      before c ++ l.inorder ++ (iter, data) :: (r.inorder ++ after c) := by
    rw [inorder_fill, PlacedTree.inorder]
    simp
  have hgone : t'.inorder = (before c ++ l.inorder) ++ (r.inorder ++ after c) := by
    rw [hinorder']
    simp
  have hfilter := hperm.filter fun x => x.1 != iter
  have hnodup := (List.nodup_cons.mp htree.nodup).2
  rw [PlacedTree.addresses, hinorder] at hnodup
  rw [hinorder, filter_ne_address hnodup, ← hgone] at hfilter
  refine ⟨⟨memory, s.content.filter fun x => x.1 != iter⟩, ?_, ⟨t', htree', ?_, hfilter⟩, ?_, ?_⟩
  · rw [BstState.step, if_pos (List.mem_map_of_mem hmem), hremove, Option.map_some]
  · rw [hinorder, List.map_append, List.map_cons, Comparator.Sorted] at hsorted
    rw [hgone, List.map_append]
    exact hsorted.sublist ((List.sublist_cons_self ..).append_left _)
  · intro fuel hfuel
    have hbefore := bstInorder_eq htree (hlength ▸ hfuel)
    have hless : t'.addresses.length < fuel := by
      rw [PlacedTree.addresses, List.length_map, hfilter.length_eq]
      exact Nat.lt_of_le_of_lt (List.length_filter_le ..) hfuel
    have hafter := bstInorder_eq htree' hless
    rw [hinorder, List.map_append, List.map_cons] at hbefore
    rw [hgone, List.map_append] at hafter
    exact ⟨_, _, hbefore, hafter⟩
  · intro x hx hne
    have hmem' : x ∈ t'.inorder := by
      rw [hfilter.mem_iff]
      exact List.mem_filter.mpr ⟨hx, bne_iff_ne.mpr hne⟩
    obtain ⟨node, hnode, hdata⟩ := htree'.stored.data_eq hmem'
    rw [bstGetData, hnode, Option.bind_some, hdata]

/-- A call keeps the tree. -/
theorem BstState.Holds.step {a : BstAction α} (h : s.Holds C stub)
    (hstep : s.step C stub a = some s') : s'.Holds C stub := by
  cases a with
  | insert data node =>
      obtain ⟨⟨hnew, hfree⟩, -⟩ := Option.ite_none_right_eq_some.mp hstep
      obtain ⟨t, ht, hholds⟩ := h.insert hnew hfree
      obtain rfl := Option.some.inj (ht.symm.trans hstep)
      exact hholds
  | remove iter =>
      obtain ⟨hmem, -⟩ := Option.ite_none_right_eq_some.mp hstep
      obtain ⟨⟨iter, data⟩, hcontent, rfl⟩ := List.mem_map.mp hmem
      obtain ⟨t, ht, hholds, -⟩ := h.remove hcontent
      obtain rfl := Option.some.inj (ht.symm.trans hstep)
      exact hholds

/-- Every run keeps the tree. -/
theorem BstState.holds_of_reached (h : (bstMachine C stub).Reached s) : s.Holds C stub :=
  Machine.ReachedBy.invariant (I := fun s => s.Holds C stub)
    (fun _ hstart => BstState.holds_start hstart) (fun _ _ _ hs _ hstep => hs.step hstep) h

/-! ## Consistency -/

/-- The iterators of a tree. -/
def BstState.iterators (s : BstState α) : List Nat := s.content.map Prod.fst

/-- The links of a tree, what its iterators show, and what the next call can do. -/
structure BstState.IsConsistent (C : Comparator α) (stub : Nat) (s : BstState α) : Prop where
  root : ∃ node, s.memory.node? stub = some node ∧ LinksBack s.memory s.iterators stub node .left
  children : ∀ iter ∈ s.iterators, ∃ node, s.memory.node? iter = some node ∧
    ∀ side, LinksBack s.memory s.iterators iter node side
  parents : ∀ iter ∈ s.iterators, ∃ node parent side, s.memory.node? iter = some node ∧
    s.memory.node? node.parent = some parent ∧ child parent side = iter
  distinct : (stub :: s.iterators).Nodup
  inorder : ∀ fuel, s.content.length < fuel → ∃ visited,
    bstInorder s.memory fuel stub = some visited ∧ C.Sorted visited ∧
      visited.Perm (s.content.map Prod.snd)
  data : ∀ x ∈ s.content, bstGetData s.memory x.1 = some x.2
  insert : ∀ data node, s.IsNew C data → IsFreeNode s.memory node →
    (s.step C stub (.insert data node)).isSome
  remove : ∀ iter data, (iter, data) ∈ s.content → ∃ s',
    s.step C stub (.remove iter) = some s' ∧ s.TakesOut stub iter data s'

/-- A tree with its content in order is consistent. -/
theorem BstState.Holds.isConsistent (h : s.Holds C stub) : s.IsConsistent C stub := by
  obtain ⟨t, htree, hsorted, hperm⟩ := id h
  have hiterators : t.addresses.Perm s.iterators := hperm.map Prod.fst
  have hlinks : ∀ {address : Nat} {node : TreeNode α} {side : Side},
      LinksBack s.memory t.addresses address node side →
        LinksBack s.memory s.iterators address node side := fun hback hne =>
    ⟨hiterators.mem_iff.mp (hback hne).1, (hback hne).2⟩
  constructor
  case root =>
    obtain ⟨node, hnode, hback⟩ := IsTree.linksBack_stub htree
    exact ⟨node, hnode, hlinks hback⟩
  case children =>
    intro iter hiter
    obtain ⟨node, hnode, hback⟩ := IsTree.linksBack htree (hiterators.mem_iff.mpr hiter)
    exact ⟨node, hnode, fun side => hlinks (hback side)⟩
  case parents => exact fun iter hiter => IsTree.isChild htree (hiterators.mem_iff.mpr hiter)
  case distinct => exact (hiterators.cons stub).nodup_iff.mp htree.nodup
  case inorder =>
    intro fuel hfuel
    exact ⟨_, bstInorder_eq htree (length_addresses hperm ▸ hfuel), hsorted, hperm.map _⟩
  case data =>
    intro x hx
    obtain ⟨node, hnode, hdata⟩ := htree.stored.data_eq (hperm.mem_iff.mpr hx)
    rw [bstGetData, hnode, Option.bind_some, hdata]
  case insert =>
    intro data node hnew hfree
    obtain ⟨s', hstep, -⟩ := h.insert hnew hfree
    rw [hstep]
    rfl
  case remove =>
    intro iter data hmem
    obtain ⟨s', hstep, -, hout⟩ := h.remove hmem
    exact ⟨s', hstep, hout⟩

/-- After every sequence of insertions of new data and of removals the links of the tree are
consistent, its order is that of its content, and its iterators refer to their data. -/
theorem bst_isConsistent (h : (bstMachine C stub).Reached s) : s.IsConsistent C stub :=
  (BstState.holds_of_reached h).isConsistent

/-- An empty memory with a new tree. -/
def newBst : BstState Nat := { memory := bstCreate ⟨fun _ => none⟩ 16, content := [] }

/-- A removal of each kind: of a node with two children whose next node is deeper, of a node with
one child, and of a node whose right child is the next node. -/
theorem bst_isConsistent_newBst :
    ∃ s, (bstMachine natural 16).run newBst
        [.insert 4 32, .insert 2 48, .insert 9 64, .insert 6 80, .insert 7 96, .remove 32,
          .remove 64, .remove 80, .insert 5 32] = some s ∧
      s.content = [(32, 5), (96, 7), (48, 2)] ∧ s.IsConsistent natural 16 := by
  have hrun : (bstMachine natural 16).run newBst
      [.insert 4 32, .insert 2 48, .insert 9 64, .insert 6 80, .insert 7 96, .remove 32,
        .remove 64, .remove 80, .insert 5 32] = some _ := rfl
  exact ⟨_, hrun, rfl, bst_isConsistent (Machine.Reached.run
    (.start ⟨⟨fun _ => none⟩, by decide, rfl, rfl⟩) hrun)⟩

end Ds
end InfinityLabs
