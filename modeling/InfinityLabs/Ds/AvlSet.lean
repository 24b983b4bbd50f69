import InfinityLabs.Lib.Runs
import InfinityLabs.Lib.Comparator
import InfinityLabs.Ds.Avl

/-!
# The AVL tree as an ordered set

Runs of insertions of new elements and of removals.  What an operation does to the
in-order sequence is read off its derivation: an insertion puts its element in its place,
a removal takes out the elements equal to its own, and `PopMin` takes off the first one.
-/

namespace InfinityLabs
namespace Ds

open Lib

namespace AvlNode

variable {α : Type} {C : Comparator α}

/-! ## The search order -/

/-- Every node has lower data to its left and higher data to its right. -/
def SearchOrder (C : Comparator α) : AvlNode α → Prop
  | .null => True
  | .node _ data left right =>
      (∀ y ∈ left.inorder, C.cmp y data < 0) ∧ (∀ y ∈ right.inorder, C.cmp data y < 0) ∧
        left.SearchOrder C ∧ right.SearchOrder C

/-- A tree is a search tree when its in-order sequence is sorted. -/
theorem searchOrder_iff {t : AvlNode α} : t.SearchOrder C ↔ C.Sorted t.inorder := by
  induction t with
  | null => exact iff_of_true trivial List.Pairwise.nil
  | node storedHeight data left right ihLeft ihRight =>
      rw [SearchOrder, inorder, Comparator.sorted_append_cons, ihLeft, ihRight]
      constructor
      · rintro ⟨hbelow, habove, hleft, hright⟩
        exact ⟨hleft, hright, hbelow, habove⟩
      · rintro ⟨hleft, hright, hbelow, habove⟩
        exact ⟨hbelow, habove, hleft, hright⟩

/-- **`FindRec` finds the members**: in a search tree it returns the element that is equal
to the searched one. -/
theorem findRec_eq_some {t : AvlNode α} (ht : C.Sorted t.inorder) (data x : α) :
    findRec C.cmp data t = some x ↔ x ∈ t.inorder ∧ C.cmp data x = 0 := by
  induction t with
  | null => simp [findRec]
  | node storedHeight y left right ihLeft ihRight =>
      obtain ⟨hleft, hright, hbelow, habove⟩ := Comparator.sorted_append_cons.mp ht
      simp only [findRec, inorder, List.mem_append, List.mem_cons]
      by_cases hequal : C.cmp data y = 0
      · rw [if_pos hequal, Option.some.injEq]
        constructor
        · rintro rfl
          exact ⟨Or.inr (Or.inl rfl), hequal⟩
        · rintro ⟨hx, hequal'⟩
          have hyx : C.cmp y x = 0 := Comparator.eq_trans (C.eq_swap.mp hequal) hequal'
          exact ht.eq_of_eq (by simp [inorder]) (by simpa [inorder] using hx) hyx
      · rw [if_neg hequal]
        by_cases hlow : C.cmp data y < 0
        · rw [if_pos hlow, ihLeft hleft]
          apply and_congr_left
          intro hequal'
          have hxy : C.cmp x y < 0 :=
            Comparator.lt_of_le_of_lt (Int.le_of_eq (C.eq_swap.mp hequal')) hlow
          constructor
          · exact Or.inl
          · rintro (hx | rfl | hx)
            · exact hx
            · exact absurd hequal' hequal
            · exact absurd ((C.swap x y).mp hxy) (Int.not_lt.mpr (Int.le_of_lt (habove x hx)))
        · rw [if_neg hlow, ihRight hright]
          apply and_congr_left
          intro hequal'
          have hyd : C.cmp y data < 0 := (C.swap y data).mpr (by omega)
          have hyx : C.cmp y x < 0 :=
            Comparator.lt_of_lt_of_le hyd (Int.le_of_eq hequal')
          constructor
          · exact fun hx => Or.inr (Or.inr hx)
          · rintro (hx | rfl | hx)
            · exact absurd ((C.swap y x).mp hyx) (Int.not_lt.mpr (Int.le_of_lt (hbelow x hx)))
            · exact absurd hequal' hequal
            · exact hx

/-! ## The operations on the in-order sequence -/

/-- An insertion puts its element in its place. -/
theorem Inserted.placed {data : α} {t t' : AvlNode α} (h : Inserted C.cmp data t t')
    (ht : C.Sorted t.inorder) : C.Placed data t.inorder t'.inorder := by
  induction h with
  | here => exact ⟨[], [], rfl, rfl, by simp, by simp⟩
  | left hbelow _ hbalance ih =>
      obtain ⟨hleft, _, _, habove⟩ := Comparator.sorted_append_cons.mp ht
      rw [hbalance.inorder]
      exact (ih hleft).append_right hbelow habove
  | right habove _ hbalance ih =>
      obtain ⟨_, hright, hbelow, _⟩ := Comparator.sorted_append_cons.mp ht
      rw [hbalance.inorder]
      exact (ih hright).append_left ((C.swap _ _).mpr habove) hbelow

/-- `PopMin` takes off the first element. -/
theorem Popped.inorder {t t' : AvlNode α} {minimum : α} (h : Popped t t' minimum) :
    t.inorder = minimum :: t'.inorder := by
  induction h with
  | here => rfl
  | left _ ih =>
      rw [inorder_sized, inorder_sized, ih]
      rfl

/-- A removal takes out the elements equal to its own. -/
theorem Removed.inorder {data : α} {t t' : AvlNode α} (h : Removed C.cmp data t t')
    (ht : C.Sorted t.inorder) : t'.inorder = C.without data t.inorder := by
  induction h with
  | absent => rfl
  | left hbelow _ hbalance ih =>
      obtain ⟨hleft, _, _, habove⟩ := Comparator.sorted_append_cons.mp ht
      rw [hbalance.inorder, ih hleft, inorder_sized, Comparator.without_of_lt hbelow habove]
  | right habove _ hbalance ih =>
      obtain ⟨_, hright, hbelow, _⟩ := Comparator.sorted_append_cons.mp ht
      rw [hbalance.inorder, ih hright, inorder_sized, Comparator.without_of_gt habove hbelow]
  | noLeft hequal =>
      obtain ⟨_, _, hbelow, habove⟩ := Comparator.sorted_append_cons.mp ht
      rw [inorder_sized, Comparator.without_of_eq hequal hbelow habove]
      rfl
  | noRight hequal _ =>
      obtain ⟨_, _, hbelow, habove⟩ := Comparator.sorted_append_cons.mp ht
      rw [inorder_sized, Comparator.without_of_eq hequal hbelow habove]
      exact (List.append_nil _).symm
  | both hequal _ hpop hbalance =>
      obtain ⟨_, _, hbelow, habove⟩ := Comparator.sorted_append_cons.mp ht
      rw [hbalance.inorder, inorder_sized, Comparator.without_of_eq hequal hbelow habove,
        hpop.inorder]

end AvlNode

/-! ## The machine -/

variable {α : Type}

/-- No member is equal to `data`. -/
def IsNew (C : Comparator α) (members : List α) (data : α) : Prop :=
  ∀ y ∈ members, C.cmp data y ≠ 0

instance (C : Comparator α) (members : List α) (data : α) :
    Decidable (IsNew C members data) :=
  inferInstanceAs (Decidable (∀ y ∈ members, C.cmp data y ≠ 0))

/-- A tree with the data that were inserted and not yet removed. -/
structure AvlState (α : Type) where
  tree : Avl α
  members : List α

/-- The calls that change a tree. -/
inductive AvlAction (α : Type) where
  | insert (data : α)
  | remove (data : α)

/-- A call; an insertion is of a new element, and finds memory.  It is `none` where the
code follows a missing child or fails an assertion. -/
def AvlState.step (C : Comparator α) (s : AvlState α) : AvlAction α → Option (AvlState α)
  | .insert data =>
      if IsNew C s.members data then
        (avlInsert true s.tree data).map fun result => ⟨result.1, data :: s.members⟩
      else none
  | .remove data =>
      (avlRemove s.tree data).map fun tree => ⟨tree, C.without data s.members⟩

/-- The runs that start with `AVLCreate`. -/
def avlMachine (C : Comparator α) : Machine (AvlState α) (AvlAction α) where
  start s := s = ⟨avlCreate C.cmp, []⟩
  step s a := s.step C a

/-! ## The invariant -/

/-- The invariant of the runs. -/
structure AvlState.Wf (C : Comparator α) (s : AvlState α) : Prop where
  cmp : s.tree.cmp = C.cmp
  exact : s.tree.root.Exact
  sorted : C.Sorted s.tree.root.inorder
  members : s.tree.root.inorder.Perm s.members

variable {C : Comparator α} {s s' : AvlState α}

/-- An element is new exactly if it is equal to none in the tree. -/
theorem AvlState.Wf.isNew_iff (hs : s.Wf C) (data : α) :
    IsNew C s.members data ↔ ∀ y ∈ s.tree.root.inorder, C.cmp data y ≠ 0 :=
  forall_congr' fun y => by rw [hs.members.mem_iff]

/-- **Insertions succeed**: `AVLInsert` of a new element gets through with status 0. -/
theorem AvlState.Wf.avlInsert (hs : s.Wf C) {data : α} (hnew : IsNew C s.members data) :
    ∃ root, avlInsert true s.tree data = some (⟨root, s.tree.cmp⟩, 0) ∧ root.Exact ∧
      AvlNode.Inserted C.cmp data s.tree.root root := by
  obtain ⟨root, hinsert, hexact, hinserted⟩ :=
    AvlNode.insertRec_spec C.cmp data hs.exact ((hs.isNew_iff data).mp hnew)
  refine ⟨root, ?_, hexact, hinserted⟩
  rw [Ds.avlInsert, hs.cmp, hinsert]
  rfl

/-- **Removals succeed**: `AVLRemove` gets through. -/
theorem AvlState.Wf.avlRemove (hs : s.Wf C) (data : α) :
    ∃ root, avlRemove s.tree data = some ⟨root, s.tree.cmp⟩ ∧ root.Exact ∧
      AvlNode.Removed C.cmp data s.tree.root root := by
  obtain ⟨root, hremove, hexact, hremoved⟩ :=
    AvlNode.removeRec_spec C.cmp data hs.exact
  refine ⟨root, ?_, hexact, hremoved⟩
  rw [Ds.avlRemove, hs.cmp, hremove]
  rfl

/-- What a call makes of the state. -/
theorem AvlState.Wf.step_cases (hs : s.Wf C) {a : AvlAction α} (hstep : s.step C a = some s') :
    (∃ data root, a = .insert data ∧ IsNew C s.members data ∧
      AvlNode.Inserted C.cmp data s.tree.root root ∧ root.Exact ∧
        s' = ⟨⟨root, s.tree.cmp⟩, data :: s.members⟩) ∨
    ∃ data root, a = .remove data ∧ AvlNode.Removed C.cmp data s.tree.root root ∧
      root.Exact ∧ s' = ⟨⟨root, s.tree.cmp⟩, C.without data s.members⟩ := by
  cases a with
  | insert data =>
      rw [AvlState.step] at hstep
      split at hstep
      · rename_i hnew
        obtain ⟨root, hinsert, hexact, hinserted⟩ := hs.avlInsert hnew
        rw [hinsert] at hstep
        exact Or.inl ⟨data, root, rfl, hnew, hinserted, hexact, (Option.some.inj hstep).symm⟩
      · cases hstep
  | remove data =>
      obtain ⟨root, hremove, hexact, hremoved⟩ := hs.avlRemove data
      rw [AvlState.step, hremove] at hstep
      exact Or.inr ⟨data, root, rfl, hremoved, hexact, (Option.some.inj hstep).symm⟩

/-- A call keeps the invariant. -/
theorem AvlState.Wf.step (hs : s.Wf C) {a : AvlAction α} (hstep : s.step C a = some s') :
    s'.Wf C := by
  obtain ⟨data, root, -, -, hinserted, hexact, rfl⟩ | ⟨data, root, -, hremoved, hexact, rfl⟩ :=
    hs.step_cases hstep
  · have hplaced := hinserted.placed hs.sorted
    exact ⟨hs.cmp, hexact, hplaced.sorted hs.sorted, hplaced.perm.trans (hs.members.cons data)⟩
  · have hinorder := hremoved.inorder hs.sorted
    refine ⟨hs.cmp, hexact, ?_, ?_⟩
    · show C.Sorted root.inorder
      rw [hinorder]
      exact hs.sorted.without data
    · show root.inorder.Perm _
      rw [hinorder]
      exact hs.members.filter _

/-- The invariant holds at the start. -/
theorem AvlState.wf_start : AvlState.Wf C ⟨avlCreate C.cmp, []⟩ :=
  ⟨rfl, trivial, List.Pairwise.nil, .nil⟩

/-- **Every reachable tree meets the invariant**, also in the runs of a guard. -/
theorem avlMachine_wf {guard : AvlState α → AvlAction α → Prop}
    (hreached : (avlMachine C).ReachedBy guard s) : s.Wf C :=
  hreached.invariant (I := fun s => s.Wf C)
    (fun _ hstart => hstart ▸ AvlState.wf_start) fun _ _ _ hs _ hstep => hs.step hstep

/-! ## The ordered set -/

/-- The tree of a state is the ordered set of its members, and the next call gets
through. -/
structure AvlState.IsOrderedSet (C : Comparator α) (s : AvlState α) : Prop where
  searchOrder : s.tree.root.SearchOrder C
  inorder_sorted : C.Sorted s.tree.root.inorder
  inorder_members : s.tree.root.inorder.Perm s.members
  find : ∀ data x, avlFind s.tree data = some x ↔ x ∈ s.members ∧ C.cmp data x = 0
  heights : s.tree.root.Exact
  insert_proceeds : ∀ data, IsNew C s.members data →
    ∃ tree, avlInsert true s.tree data = some (tree, 0)
  remove_proceeds : ∀ data, ∃ tree, avlRemove s.tree data = some tree

/-- **An AVL tree is a correct ordered set**: after every run of insertions of new elements
and of removals the tree is a search tree whose in-order sequence is the sorted sequence of
the members, a search finds exactly the members, the stored heights are right, and no
rotation of the next call follows a missing child. -/
theorem avl_orderedSet (C : Comparator α) (hreached : (avlMachine C).Reached s) :
    s.IsOrderedSet C := by
  have hs := avlMachine_wf hreached
  refine ⟨AvlNode.searchOrder_iff.mpr hs.sorted, hs.sorted, hs.members, fun data x => ?_,
    hs.exact, fun data hnew => ?_, fun data => ?_⟩
  · rw [avlFind, hs.cmp, AvlNode.findRec_eq_some hs.sorted, hs.members.mem_iff]
  · obtain ⟨root, hinsert, -⟩ := hs.avlInsert hnew
    exact ⟨_, hinsert⟩
  · obtain ⟨root, hremove, -⟩ := hs.avlRemove data
    exact ⟨_, hremove⟩

/-- Three insertions with a double rotation, and the removal of the root. -/
theorem avl_orderedSet_sample :
    ∃ s : AvlState Nat, (s.tree.root, s.members) =
        (.node 2 3 (.node 1 1 .null .null) .null, [1, 3]) ∧ s.IsOrderedSet natural := by
  have hstart : (avlMachine natural).Reached ⟨avlCreate natural.cmp, []⟩ := .start rfl
  have hrun : ((avlMachine natural).run ⟨avlCreate natural.cmp, []⟩
      [.insert 3, .insert 1, .insert 2, .remove 2]).map (fun s => (s.tree.root, s.members)) =
        some (.node 2 3 (.node 1 1 .null .null) .null, [1, 3]) := by decide
  obtain ⟨s, hs, hshown⟩ := hstart.run_map hrun
  exact ⟨s, hshown, avl_orderedSet natural hs⟩

end Ds
end InfinityLabs
