import InfinityLabs.Ds.BstRuns
import InfinityLabs.Lib.ListParts
import Mathlib.Data.List.Induction

/-!
# Iteration over the binary search tree

`BSTNext` and `BSTPrev` descend into one child, or climb to a parent.  The climbs end at the stub,
which is its own right child and has the tree on its left, so that the two directions are not
mirror images there.
-/

namespace InfinityLabs
namespace Ds

open Lib Lib.ParentTree Lib.ParentTree.TreeMemory

variable {α : Type}

/-! ## The functions -/

/-- The loop of `IsBegin`. -/
def isBeginLoop (m : TreeMemory α) : Nat → Nat → Option Bool
  | 0, _ => none
  | fuel + 1, node => do
      let cell ← m.node? node
      if cell.parent = 0 then some true
      else
        let parent ← m.node? cell.parent
        if parent.right = node then some false else isBeginLoop m fuel cell.parent

/-- `IsBegin`. -/
def isBegin (m : TreeMemory α) (fuel iter : Nat) : Option Bool := do
  let cell ← m.node? iter
  if cell.left ≠ 0 then some false else isBeginLoop m fuel iter

/-- `BSTPrev`. -/
def bstPrev (m : TreeMemory α) (fuel iter : Nat) : Option Nat := do
  let begins ← isBegin m fuel iter
  if begins then none else stepInOrder m fuel iter .left .right

/-- `AddOne`; the parameter is a `size_t`. -/
def addOne (_data : α) (count : Nat) : Int × Nat := (0, (count + 1) % 2 ^ 64)

/-- `BSTSize`. -/
def bstSize (m : TreeMemory α) (fuel stub : Nat) : Option Nat := do
  let first ← bstBegin m fuel stub
  let last ← bstEnd m stub
  let (_, count) ← bstForEach m addOne fuel last fuel first 0
  some count

/-- The iterator that `k` calls of `BSTNext` reach from `BSTBegin`. -/
def bstIterAt (m : TreeMemory α) (fuel stub : Nat) : Nat → Option Nat
  | 0 => bstBegin m fuel stub
  | k + 1 => (bstIterAt m fuel stub k).bind (bstNext m fuel)

/-! ## The step back -/

variable {m : TreeMemory α} {stub : Nat}

/-- `Rightmost` looks for the first node of the mirrored tree. -/
theorem rightmost_eq_leftmost (m : TreeMemory α) (fuel node : Nat) :
    rightmost m fuel node = leftmost m.mirror fuel node := by
  rw [rightmost, leftmost]
  induction fuel generalizing node with
  | zero => rfl
  | succ fuel ih =>
      have hmirror : m.mirror.node? node = (m.node? node).map TreeNode.mirror := rfl
      rw [outermost, outermost, hmirror]
      cases m.node? node with
      | none => rfl
      | some cell =>
          have hchild : child cell.mirror .left = child cell .right := rfl
          simp only [Option.map_some, hchild, ih]

/-- `Rightmost` finds the last node of a tree. -/
theorem exists_rightmost {parent : Nat} {t : PlacedTree α} (h : m.Stored parent t)
    (hnodup : t.addresses.Nodup) (ht : t.root ≠ 0) :
    ∃ (rest : List (Nat × α)) (b : Nat) (data : α), t.inorder = rest ++ [(b, data)] ∧
      ∀ fuel, t.addresses.length ≤ fuel → rightmost m fuel t.root = some b := by
  have haddresses : t.mirror.addresses = t.addresses.reverse := by
    rw [PlacedTree.addresses, PlacedTree.inorder_mirror, List.map_reverse]
    rfl
  obtain ⟨c, b, data, r, hmirror, hbefore, hloop⟩ := exists_leftmost h.mirror
    (by rwa [haddresses, List.nodup_reverse]) (by rwa [PlacedTree.root_mirror])
  have hinorder := congrArg List.reverse (PlacedTree.inorder_mirror t)
  rw [List.reverse_reverse, hmirror, inorder_fill, hbefore] at hinorder
  refine ⟨(r.inorder ++ after c).reverse, b, data, ?_, fun fuel hfuel => ?_⟩
  · rw [← hinorder]
    simp [PlacedTree.inorder]
  · rw [haddresses, List.length_reverse, PlacedTree.root_mirror] at hloop
    rw [rightmost_eq_leftmost]
    exact hloop fuel hfuel

/-- The climb of `BSTPrev` finds the last node before the place. -/
theorem climb_left_eq {c : List (TreeFrame α)} {hole p : Nat} {node : TreeNode α} {e : α}
    {rest : List (Nat × α)} (h : m.Framed stub c hole) (hnode : m.node? hole = some node)
    (hparent : node.parent = parentOf stub c) (hne : hole ≠ 0)
    (hnodup : (hole :: stub :: around c).Nodup) (hbefore : before c = rest ++ [(p, e)])
    {fuel : Nat} (hfuel : c.length < fuel) :
    climb m .left fuel hole = some p := by
  induction c generalizing hole node fuel with
  | nil => simp [before] at hbefore
  | cons f c ih =>
      obtain ⟨fuel, rfl⟩ : ∃ n, fuel = n + 1 := ⟨fuel - 1, by omega⟩
      obtain ⟨hfne, hcell, -, hframed⟩ := h
      cases f with
      | left a d s =>
          have hlength : c.length < fuel := Nat.lt_of_succ_lt_succ hfuel
          have hrest : before c = rest ++ [(p, e)] := by
            rw [← hbefore, before, TreeFrame.before, List.append_nil]
          have hnext := ih hframed hcell rfl hfne (nodup_climb hnodup) hrest hlength
          simp only [TreeFrame.address, TreeFrame.cell] at hfne hcell hnext
          simp only [climb, hnode, hparent, parentOf_cons, TreeFrame.address, hfne, if_false,
            hcell, child, if_true]
          exact hnext
      | right s a d =>
          have hleft : s.root ≠ hole := sibling_root_ne hne hnodup
          have hlast : (before (.right s a d :: c)).getLast? = some (a, d) := by
            simp [before, TreeFrame.before]
          rw [hbefore, List.getLast?_concat, Option.some.injEq, Prod.mk.injEq] at hlast
          simp only [TreeFrame.address, TreeFrame.cell] at hfne hcell
          simp only [climb, hnode, hparent, parentOf_cons, TreeFrame.address, hfne, if_false,
            hcell, child, hleft, hlast.1]

/-- The climb of `IsBegin` meets a node whose right child it came from where something comes
before the place. -/
theorem isBeginLoop_eq {c : List (TreeFrame α)} {hole : Nat} {node : TreeNode α}
    (h : m.Framed stub c hole) (hnode : m.node? hole = some node)
    (hparent : node.parent = parentOf stub c) (hne : hole ≠ 0)
    (hnodup : (hole :: stub :: around c).Nodup) (hbefore : before c ≠ []) {fuel : Nat}
    (hfuel : c.length < fuel) : isBeginLoop m fuel hole = some false := by
  induction c generalizing hole node fuel with
  | nil => exact absurd rfl hbefore
  | cons f c ih =>
      obtain ⟨fuel, rfl⟩ : ∃ n, fuel = n + 1 := ⟨fuel - 1, by omega⟩
      obtain ⟨hfne, hcell, -, hframed⟩ := h
      cases f with
      | left a d s =>
          have hright : s.root ≠ hole := sibling_root_ne hne hnodup
          have hrest : before c ≠ [] := by
            rwa [before, TreeFrame.before, List.append_nil] at hbefore
          have hlength : c.length < fuel := Nat.lt_of_succ_lt_succ hfuel
          have hnext := ih hframed hcell rfl hfne (nodup_climb hnodup) hrest hlength
          simp only [TreeFrame.address, TreeFrame.cell] at hfne hcell hnext
          simp only [isBeginLoop, hnode, hparent, parentOf_cons, TreeFrame.address, hfne,
            if_false, hcell, Option.bind_eq_bind, Option.bind_some, hright]
          exact hnext
      | right s a d =>
          simp only [TreeFrame.address, TreeFrame.cell] at hfne hcell
          simp only [isBeginLoop, hnode, hparent, parentOf_cons, TreeFrame.address, hfne,
            if_false, hcell, Option.bind_eq_bind, Option.bind_some, if_true]

/-- A node is on its way to the stub. -/
theorem length_lt_of_fill {c : List (TreeFrame α)} {l r : PlacedTree α} {a fuel : Nat} {d : α}
    (hfuel : (fill c (.node l a d r)).addresses.length ≤ fuel) : c.length < fuel := by
  rw [(addresses_fill c _).length_eq, PlacedTree.addresses_node] at hfuel
  simp only [List.length_append, List.length_cons] at hfuel
  have hframes := length_le_around c
  omega

/-- `BSTPrev` of a node with one before it is the last of these. -/
theorem bstPrev_eq {c : List (TreeFrame α)} {l r : PlacedTree α} {a p fuel : Nat} {d e : α}
    {rest : List (Nat × α)} (h : m.IsTree stub (fill c (.node l a d r)))
    (hfuel : (fill c (.node l a d r)).addresses.length ≤ fuel)
    (hbefore : before c ++ l.inorder = rest ++ [(p, e)]) : bstPrev m fuel a = some p := by
  obtain ⟨hframed, ⟨hne, hnode, hleft, -⟩, hnodup⟩ := h.framed_of_fill
  have hlength := length_lt_of_fill hfuel
  rw [PlacedTree.addresses_node] at hnodup
  by_cases hl : l.root = 0
  · obtain rfl := hleft.eq_null hl
    rw [PlacedTree.inorder, List.append_nil] at hbefore
    have hplace : (a :: stub :: around c).Nodup := by grind
    have hsome : before c ≠ [] := hbefore ▸ List.append_ne_nil_of_right_ne_nil _ (by simp)
    have hbegin := isBeginLoop_eq hframed hnode rfl hne hplace hsome hlength
    have hclimb := climb_left_eq hframed hnode rfl hne hplace hbefore hlength
    rw [PlacedTree.root_node] at hbegin hclimb
    simp only [bstPrev, isBegin, hnode, hl, hbegin, hclimb, stepInOrder, child,
      Option.bind_eq_bind, Option.bind_some, ne_eq, not_true, if_false, Bool.false_eq_true]
  · obtain ⟨front, b, data, hinorder, hloop⟩ := exists_rightmost hleft (by grind) hl
    have hlast : (b, data) = (p, e) := by
      have heq := congrArg List.getLast? hbefore
      rw [hinorder, ← List.append_assoc] at heq
      simpa using heq
    have hless : l.addresses.length ≤ fuel := by
      rw [(addresses_fill c _).length_eq, PlacedTree.addresses_node] at hfuel
      simp only [List.length_append, List.length_cons] at hfuel
      omega
    simp only [bstPrev, isBegin, hnode, hl, stepInOrder, child, Option.bind_eq_bind,
      Option.bind_some, ne_eq, not_false_iff, if_true, if_false, Bool.false_eq_true, reduceCtorEq,
      hloop fuel hless, (Prod.mk.inj hlast).1]

/-- `BSTPrev` of the end is the last node of a tree that has one. -/
theorem bstPrev_end {t : PlacedTree α} {p fuel : Nat} {e : α} {rest : List (Nat × α)}
    (h : m.IsTree stub t) (hfuel : t.addresses.length ≤ fuel)
    (hinorder : t.inorder = rest ++ [(p, e)]) : bstPrev m fuel stub = some p := by
  have hstub : m.node? stub = _ := h.framed
  have ht : t.root ≠ 0 := by
    intro hroot
    rw [h.stored.eq_null hroot] at hinorder
    simp [PlacedTree.inorder] at hinorder
  obtain ⟨front, b, data, hlast, hloop⟩ :=
    exists_rightmost h.stored (List.nodup_cons.mp h.nodup).2 ht
  rw [hinorder] at hlast
  have hsame := (List.append_inj' hlast rfl).2
  simp only [List.cons.injEq, Prod.mk.injEq, and_true] at hsame
  simp only [bstPrev, isBegin, hstub, ht, stepInOrder, child, Option.bind_eq_bind,
    Option.bind_some, ne_eq, not_false_iff, if_true, if_false, Bool.false_eq_true, reduceCtorEq,
    hloop fuel hfuel, hsame.1]

/-- `BSTPrev` in the order of the whole tree. -/
theorem bstPrev_of_inorder {t : PlacedTree α} {before' after' : List (Nat × α)} {p fuel : Nat}
    {e : α} (h : m.IsTree stub t) (hinorder : t.inorder = before' ++ (p, e) :: after')
    (hfuel : t.addresses.length ≤ fuel) :
    bstPrev m fuel ((after'.map Prod.fst).headD stub) = some p := by
  cases after' with
  | nil => exact bstPrev_end h hfuel hinorder
  | cons x after' =>
      obtain ⟨a, d⟩ := x
      rw [List.map_cons, List.headD_cons]
      have hsplit : t.inorder = (before' ++ [(p, e)]) ++ (a, d) :: after' := by
        rw [hinorder, List.append_assoc]
        rfl
      obtain ⟨c, l, r, rfl, hbefore, -⟩ :=
        exists_fill_of_inorder (List.nodup_cons.mp h.nodup).2 hsplit
      exact bstPrev_eq h hfuel hbefore.symm

/-! ## The whole iteration -/

/-- The nodes from the `k`-th on, and the end behind them. -/
theorem bstIterAt_eq {t : PlacedTree α} (h : m.IsTree stub t) {fuel : Nat}
    (hfuel : t.addresses.length ≤ fuel) {below above : List (Nat × α)}
    (hinorder : t.inorder = below ++ above) :
    bstIterAt m fuel stub below.length = some ((above.map Prod.fst).headD stub) := by
  induction below using List.reverseRecOn generalizing above with
  | nil =>
      have hbegin := bstBegin_eq_headD h hfuel
      rw [PlacedTree.addresses, hinorder, List.nil_append] at hbegin
      exact hbegin
  | append_singleton below x ih =>
      obtain ⟨a, d⟩ := x
      have hsplit : t.inorder = below ++ (a, d) :: above := by
        rw [hinorder, List.append_assoc]
        rfl
      rw [List.length_append, List.length_singleton, bstIterAt, ih hsplit, Option.bind_some,
        List.map_cons, List.headD_cons, bstNext_of_inorder h hsplit hfuel]

/-- `BSTSize` counts the nodes. -/
theorem bstSize_eq {t : PlacedTree α} (h : m.IsTree stub t) {fuel : Nat}
    (hfuel : t.addresses.length < fuel) :
    bstSize m fuel stub = some (t.inorder.length % 2 ^ 64) := by
  have hlength : t.inorder.length < fuel := by rwa [PlacedTree.addresses, List.length_map] at hfuel
  have hloop := bstForEach_eq h (fun _ count => (count + 1) % 2 ^ 64) (Nat.le_of_lt hfuel)
    (List.nil_append t.inorder).symm 0 hlength
  have hcount : ∀ (l : List α) (n : Nat), n < 2 ^ 64 →
      l.foldl (fun count _ => (count + 1) % 2 ^ 64) n = (n + l.length) % 2 ^ 64 := by
    intro l
    induction l with
    | nil => exact fun n hn => (Nat.mod_eq_of_lt hn).symm
    | cons d l ih =>
        intro n hn
        rw [List.foldl_cons, ih _ (Nat.mod_lt _ (Nat.two_pow_pos 64)), List.length_cons]
        omega
  rw [hcount _ 0 (Nat.two_pow_pos 64), Nat.zero_add, List.length_map] at hloop
  simp only [bstSize, bstBegin_eq_headD h (Nat.le_of_lt hfuel), Option.bind_eq_bind,
    Option.bind_some, bstEnd_eq h]
  show (bstForEach m (fun (_ : α) count => (0, (count + 1) % 2 ^ 64)) fuel stub fuel
    ((t.inorder.map Prod.fst).headD stub) 0).bind _ = _
  rw [hloop]
  rfl

/-- The iterators that `BSTNext` reaches from `BSTBegin` have the data of the tree in ascending
order, each once; the end is behind them, and `BSTNext` takes back what `BSTPrev` does. -/
structure BstState.Iterates (C : Comparator α) (stub : Nat) (s : BstState α) (fuel : Nat)
    (visited : List (Nat × α)) : Prop where
  size : bstSize s.memory fuel stub = some visited.length
  content : visited.Perm s.content
  ascending : C.Sorted (visited.map Prod.snd)
  visits : ∀ (k : Nat) iter data, visited[k]? = some (iter, data) →
    bstIterAt s.memory fuel stub k = some iter ∧ bstGetData s.memory iter = some data ∧
      bstEnd s.memory stub ≠ some iter
  ends : bstIterAt s.memory fuel stub visited.length = bstEnd s.memory stub
  back : ∀ iter, iter ∈ s.iterators ∨ bstEnd s.memory stub = some iter →
    bstBegin s.memory fuel stub ≠ some iter →
      (bstPrev s.memory fuel iter).bind (bstNext s.memory fuel) = some iter

variable {C : Comparator α} {s : BstState α}

/-- An iterator is the first of some of the last nodes, or the end. -/
theorem exists_parts_of_iter {t : PlacedTree α} {iter : Nat} (hmem : iter ∈ stub :: t.addresses) :
    ∃ below above, t.inorder = below ++ above ∧ (above.map Prod.fst).headD stub = iter := by
  rcases List.mem_cons.mp hmem with rfl | hmem
  · exact ⟨t.inorder, [], (List.append_nil _).symm, rfl⟩
  · obtain ⟨⟨iter, d⟩, hnode, rfl⟩ := List.mem_map.mp hmem
    obtain ⟨below, above, hinorder⟩ := List.append_of_mem hnode
    exact ⟨below, (iter, d) :: above, hinorder, rfl⟩

/-- `BSTNext` takes back what `BSTPrev` does. -/
theorem bstNext_bstPrev {t : PlacedTree α} (h : m.IsTree stub t) {fuel iter : Nat}
    (hfuel : t.addresses.length ≤ fuel) (hmem : iter ∈ stub :: t.addresses)
    (hbegin : bstBegin m fuel stub ≠ some iter) :
    (bstPrev m fuel iter).bind (bstNext m fuel) = some iter := by
  obtain ⟨below, above, hinorder, rfl⟩ := exists_parts_of_iter hmem
  rcases List.eq_nil_or_concat below with rfl | ⟨front, ⟨p, e⟩, rfl⟩
  · have hfirst := bstBegin_eq_headD h hfuel
    rw [PlacedTree.addresses, hinorder, List.nil_append] at hfirst
    exact absurd hfirst hbegin
  · rw [List.concat_eq_append, List.append_assoc, List.singleton_append] at hinorder
    rw [bstPrev_of_inorder h hinorder hfuel, Option.bind_some, bstNext_of_inorder h hinorder hfuel]

/-- A tree with its content in order is iterated over. -/
theorem BstState.Holds.iterates (h : s.Holds C stub) (hmemory : ∀ iter ∈ s.iterators, iter < 2 ^ 64) :
    ∃ visited, ∀ fuel, s.content.length < fuel → s.Iterates C stub fuel visited := by
  obtain ⟨t, htree, hsorted, hperm⟩ := h
  have hlength := length_addresses hperm
  have hiterators : t.addresses.Perm s.iterators := hperm.map Prod.fst
  have hnodup := List.nodup_cons.mp htree.nodup
  have hcount : t.inorder.length < 2 ^ 64 := by
    have hlt := length_lt_of_nodup (Nat.two_pow_pos 64) hnodup.2 htree.stored.ne_zero
      fun iter hmem => hmemory iter (hiterators.mem_iff.mp hmem)
    rwa [PlacedTree.addresses, List.length_map] at hlt
  refine ⟨t.inorder, fun fuel hfuel => ?_⟩
  have hfuel' : t.addresses.length < fuel := hlength ▸ hfuel
  have hend := bstEnd_eq htree
  constructor
  case size => rw [bstSize_eq htree hfuel', Nat.mod_eq_of_lt hcount]
  case content => exact hperm
  case ascending => exact hsorted
  case visits =>
    intro k iter data hget
    obtain ⟨below, above, hinorder, rfl⟩ := exists_append_cons_of_getElem? hget
    have hmem : (iter, data) ∈ t.inorder := List.mem_of_getElem? hget
    obtain ⟨node, hnode, hdata⟩ := htree.stored.data_eq hmem
    refine ⟨bstIterAt_eq htree (Nat.le_of_lt hfuel') hinorder, ?_, ?_⟩
    · rw [bstGetData, hnode, Option.bind_some, hdata]
    · rw [hend]
      intro heq
      exact hnodup.1 (Option.some.inj heq ▸ List.mem_map_of_mem hmem)
  case ends =>
    rw [hend]
    exact bstIterAt_eq htree (Nat.le_of_lt hfuel') (List.append_nil t.inorder).symm
  case back =>
    intro iter hiter hbegin
    refine bstNext_bstPrev htree (Nat.le_of_lt hfuel') ?_ hbegin
    rcases hiter with hmem | heq
    · exact List.mem_cons_of_mem _ (hiterators.mem_iff.mpr hmem)
    · rw [hend] at heq
      exact Option.some.inj heq ▸ List.mem_cons_self

/-! ## The runs -/

/-- The addresses that `malloc` returns are those of the address space. -/
def BstAction.InMemory : BstAction α → Prop
  | .insert _ node => node < 2 ^ 64
  | .remove _ => True

/-- `BSTInsert` returns the new node. -/
theorem iter_of_bstInsert {cmp : α → α → Int} {m' : TreeMemory α} {fuel node iter : Nat}
    {data : α} (hinsert : bstInsert cmp m stub fuel (some node) data = some (m', iter)) :
    iter = node := by
  obtain ⟨root, -, hroot⟩ := Option.bind_eq_some_iff.mp hinsert
  split at hroot
  · exact (Prod.mk.inj (Option.some.inj hroot)).2.symm
  · obtain ⟨⟨parent, cmpResult⟩, -, hplace⟩ := Option.bind_eq_some_iff.mp hroot
    exact (Prod.mk.inj (Option.some.inj hplace)).2.symm

/-- A call keeps the iterators in the address space. -/
theorem BstState.iterators_lt {s' : BstState α} {a : BstAction α} (haction : a.InMemory)
    (h : ∀ iter ∈ s.iterators, iter < 2 ^ 64) (hstep : s.step C stub a = some s') :
    ∀ iter ∈ s'.iterators, iter < 2 ^ 64 := by
  cases a with
  | insert data node =>
      obtain ⟨-, hcall⟩ := Option.ite_none_right_eq_some.mp hstep
      obtain ⟨⟨memory, iter⟩, hinsert, rfl⟩ := Option.map_eq_some_iff.mp hcall
      obtain rfl := iter_of_bstInsert hinsert
      exact List.forall_mem_cons.mpr ⟨haction, h⟩
  | remove iter =>
      obtain ⟨-, hcall⟩ := Option.ite_none_right_eq_some.mp hstep
      obtain ⟨memory, -, rfl⟩ := Option.map_eq_some_iff.mp hcall
      intro other hmem
      obtain ⟨x, hx, rfl⟩ := List.mem_map.mp hmem
      exact h x.1 (List.mem_map_of_mem (List.mem_of_mem_filter hx))

/-- After every sequence of insertions of new data and of removals, `BSTNext` leads from
`BSTBegin` through the data in ascending order to `BSTEnd`, in `BSTSize` steps, and takes back
every `BSTPrev`. -/
theorem bst_iterates (h : (bstMachine C stub).ReachedBy (fun _ a => a.InMemory) s) :
    ∃ visited, ∀ fuel, s.content.length < fuel → s.Iterates C stub fuel visited := by
  have hreached : (bstMachine C stub).Reached s := h.mono fun _ _ _ => trivial
  have hmemory : ∀ iter ∈ s.iterators, iter < 2 ^ 64 := by
    refine Machine.ReachedBy.invariant (I := fun s => ∀ iter ∈ s.iterators, iter < 2 ^ 64) ?_ ?_ h
    · rintro s ⟨-, -, -, hcontent⟩
      rw [BstState.iterators, hcontent]
      exact fun iter hmem => absurd hmem List.not_mem_nil
    · exact fun s a s' hs haction hstep => BstState.iterators_lt haction hs hstep
  exact (BstState.holds_of_reached hreached).iterates hmemory

/-- Four data, one of which is removed. -/
theorem bst_iterates_newBst :
    ∃ s, (bstMachine natural 16).run newBst
        [.insert 4 32, .insert 2 48, .insert 9 64, .insert 6 80, .remove 32] = some s ∧
      s.content = [(80, 6), (64, 9), (48, 2)] ∧
      ∃ visited, ∀ fuel, s.content.length < fuel → s.Iterates natural 16 fuel visited := by
  have hrun : (bstMachine natural 16).run newBst
      [.insert 4 32, .insert 2 48, .insert 9 64, .insert 6 80, .remove 32] = some _ := rfl
  refine ⟨_, hrun, rfl, bst_iterates (Machine.ReachedBy.run
    (.start ⟨⟨fun _ => none⟩, by decide, rfl, rfl⟩) ?_ hrun)⟩
  have hmemory : ∀ node ≤ 80, node < 2 ^ 64 := fun node hle => Nat.lt_of_le_of_lt hle (by decide)
  exact ⟨hmemory 32 (by decide), hmemory 48 (by decide), hmemory 64 (by decide),
    hmemory 80 (by decide), trivial, trivial⟩

end Ds
end InfinityLabs
