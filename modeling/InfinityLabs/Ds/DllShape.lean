import InfinityLabs.Ds.Dll

/-!
# What the calls do to a doubly linked list

Each write changes one link of one node, and insertion and removal are two such writes in each
direction.
-/

namespace InfinityLabs
namespace Ds

open Lib

namespace DllMemory

/-! ## Writes -/

variable {m : DllMemory} {address : Nat}

@[simp] theorem setNode_node?_self (m : DllMemory) (address : Nat) (node : DllNode) :
    (m.setNode address node).node? address = some node :=
  Function.update_self ..

theorem setNode_node?_of_ne {other : Nat} (m : DllMemory) (h : other ≠ address)
    (node : DllNode) : (m.setNode address node).node? other = m.node? other :=
  Function.update_of_ne h ..

/-- A node that is allocated is its data and its links. -/
theorem node?_eq (h : (m.node? address).isSome) :
    m.node? address =
      some { data := m.data address, next := m.next address, prev := m.prev address } := by
  obtain ⟨node, hnode⟩ := Option.isSome_iff_exists.mp h
  rw [data, next, prev, field, field, field, hnode]
  rfl

/-- Only the head has no place before it. -/
theorem isHead_eq_false (h : (m.node? address).isSome) (hprev : m.prev address ≠ 0) :
    m.isHead address = some false := by
  rw [isHead, node?_eq h, Option.map_some, beq_eq_false_iff_ne.mpr hprev]

/-- Only the tail has no place behind it. -/
theorem isTail_eq_false (h : (m.node? address).isSome) (hnext : m.next address ≠ 0) :
    m.isTail address = some false := by
  rw [isTail, node?_eq h, Option.map_some, beq_eq_false_iff_ne.mpr hnext]

/-- A write changes the fields of one node. -/
theorem field_setNode (m : DllMemory) (f : DllNode → Nat) (address : Nat) (node : DllNode) :
    (m.setNode address node).field f = Function.update (m.field f) address (f node) := by
  funext other
  by_cases h : other = address
  · subst h
    rw [Function.update_self, field, setNode_node?_self]
    rfl
  · rw [Function.update_of_ne h, field, field, setNode_node?_of_ne m h]

theorem isSome_setNode {other : Nat} (m : DllMemory) (node : DllNode)
    (h : (m.node? other).isSome) : ((m.setNode address node).node? other).isSome := by
  by_cases heq : other = address
  · subst heq
    rw [setNode_node?_self]
    rfl
  · rwa [setNode_node?_of_ne m heq]

theorem freeNode_node?_of_ne {other : Nat} (m : DllMemory) (h : other ≠ address) :
    (m.freeNode address).node? other = m.node? other :=
  Function.update_of_ne h ..

theorem field_freeNode (m : DllMemory) (f : DllNode → Nat) {other : Nat} (h : other ≠ address) :
    (m.freeNode address).field f other = m.field f other := by
  rw [field, field, freeNode_node?_of_ne m h]

/-- `JoinNode` writes the link of the one node and the link back of the other. -/
theorem joinNode_eq {left right : Nat} (hleft : (m.node? left).isSome)
    (hright : (m.node? right).isSome) (hleftNe : left ≠ 0) (hrightNe : right ≠ 0) :
    ∃ m', m.joinNode left right = some m' ∧ m'.next = Function.update m.next left right ∧
      m'.prev = Function.update m.prev right left ∧ m'.data = m.data ∧
      ∀ other, (m.node? other).isSome → (m'.node? other).isSome := by
  obtain ⟨m₁, hm₁⟩ : ∃ m₁, m₁ =
      m.setNode left { data := m.data left, next := right, prev := m.prev left } := ⟨_, rfl⟩
  have hnext₁ : m₁.next = Function.update m.next left right := hm₁ ▸ field_setNode ..
  have hprev₁ : m₁.prev = m.prev :=
    hm₁ ▸ (field_setNode ..).trans (Function.update_eq_self left m.prev)
  have hdata₁ : m₁.data = m.data :=
    hm₁ ▸ (field_setNode ..).trans (Function.update_eq_self left m.data)
  have hright₁ : (m₁.node? right).isSome := hm₁ ▸ isSome_setNode m _ hright
  refine ⟨m₁.setNode right { data := m₁.data right, next := m₁.next right, prev := left },
    ?_, ?_, ?_, ?_, fun other hother => ?_⟩
  · simp only [joinNode, hleftNe, hrightNe, or_self, if_false, node?_eq hleft,
      Option.bind_eq_bind, Option.bind_some, ← hm₁, node?_eq hright₁]
  · rw [← hnext₁]
    exact (field_setNode ..).trans (Function.update_eq_self right m₁.next)
  · rw [← hprev₁]
    exact field_setNode ..
  · rw [← hdata₁]
    exact (field_setNode ..).trans (Function.update_eq_self right m₁.data)
  · exact isSome_setNode m₁ _ (hm₁ ▸ isSome_setNode m _ hother)

/-! ## The links of a list -/

section Links

variable {list : Nat} {nodes l₁ l₂ content : List Nat}

/-- The links between neighbours. -/
theorem IsDll.neighbours (h : m.IsDll list nodes content) {p q : List Nat} {left right : Nat}
    (hsplit : places list nodes = p ++ left :: right :: q) :
    m.next left = right ∧ right ≠ 0 ∧ m.prev right = left ∧ left ≠ 0 := by
  have hforward := h.forward
  have hbackward := h.backward
  rw [hsplit] at hforward
  rw [hsplit, reverse_pair] at hbackward
  obtain ⟨-, -, hnext, hright, -⟩ := hforward.suffix
  obtain ⟨-, -, hprev, hleft, -⟩ := hbackward.suffix
  exact ⟨hnext, hright, hprev, hleft⟩

/-- The places around a gap between the nodes. -/
theorem exists_gap (list : Nat) (l₁ l₂ : List Nat) :
    ∃ p q, places list (l₁ ++ l₂) = p ++ l₁.getLastD list :: l₂.headD (dllTail list) :: q ∧
      ∀ node, places list (l₁ ++ node :: l₂) =
        p ++ l₁.getLastD list :: node :: l₂.headD (dllTail list) :: q := by
  obtain ⟨p, hp⟩ : ∃ p, list :: l₁ = p ++ [l₁.getLastD list] := by
    refine ⟨(list :: l₁).dropLast, (List.dropLast_append_getLast? _ ?_).symm⟩
    rw [List.getLast?_cons, List.getLastD_eq_getLast?]
    rfl
  obtain ⟨q, hq⟩ : ∃ q, l₂ ++ [dllTail list] = l₂.headD (dllTail list) :: q := by
    cases l₂ with
    | nil => exact ⟨[], rfl⟩
    | cons a l₂ => exact ⟨l₂ ++ [dllTail list], rfl⟩
  refine ⟨p, q, ?_, fun node => ?_⟩
  · rw [places, List.append_assoc, ← List.cons_append, hp, hq, List.append_assoc]
    rfl
  · rw [places, List.append_assoc, ← List.cons_append, hp, List.cons_append, hq,
      List.append_assoc]
    rfl

/-- The iterators of a list are its nodes and its tail. -/
theorem IsDll.head_tail (h : m.IsDll list (l₁ ++ l₂) content) :
    m.next (l₁.getLastD list) = l₂.headD (dllTail list) ∧
      l₂.headD (dllTail list) ≠ 0 ∧ m.prev (l₂.headD (dllTail list)) = l₁.getLastD list ∧
      l₁.getLastD list ≠ 0 := by
  obtain ⟨p, q, hgap, -⟩ := exists_gap list l₁ l₂
  exact h.neighbours hgap

end Links

/-! ## Insertion and removal -/

section Calls

variable {list node x : Nat} {nodes l₁ l₂ content : List Nat}

/-- `InsertBetween` writes two links in each direction. -/
theorem insertBetween_eq {left right : Nat} (hleft : (m.node? left).isSome)
    (hright : (m.node? right).isSome) (hnode : (m.node? node).isSome) (hleftNe : left ≠ 0)
    (hrightNe : right ≠ 0) (hnodeNe : node ≠ 0) :
    ∃ m', m.insertBetween left right node = some m' ∧
      m'.next = Function.update (Function.update m.next left node) node right ∧
      m'.prev = Function.update (Function.update m.prev node left) right node ∧
      m'.data = m.data ∧ ∀ other, (m.node? other).isSome → (m'.node? other).isSome := by
  obtain ⟨m₁, hjoin₁, hnext₁, hprev₁, hdata₁, hsome₁⟩ := joinNode_eq hleft hnode hleftNe hnodeNe
  obtain ⟨m₂, hjoin₂, hnext₂, hprev₂, hdata₂, hsome₂⟩ :=
    joinNode_eq (hsome₁ node hnode) (hsome₁ right hright) hnodeNe hrightNe
  refine ⟨m₂, ?_, ?_, ?_, hdata₂.trans hdata₁, fun other h => hsome₂ other (hsome₁ other h)⟩
  · rw [insertBetween, hjoin₁, Option.bind_some, hjoin₂]
  · rw [hnext₂, hnext₁]
  · rw [hprev₂, hprev₁]

/-- `DLLInsert` places the data before the iterator. -/
theorem IsDll.insert (h : m.IsDll list (l₁ ++ l₂) content) (hfree : m.IsFree node) (x : Nat) :
    ∃ m', m.dllInsert list (l₂.headD (dllTail list)) (some node) x = some (m', node) ∧
      m'.IsDll list (l₁ ++ node :: l₂) (l₁.map m.data ++ x :: l₂.map m.data) := by
  obtain ⟨p, q, hgap, hplaces⟩ := exists_gap list l₁ l₂
  generalize l₁.getLastD list = left at hgap hplaces
  generalize l₂.headD (dllTail list) = right at hgap hplaces ⊢
  obtain ⟨hnext, hrightNe, hprev, hleftNe⟩ := h.neighbours hgap
  have hforward := h.forward
  have hbackward := h.backward
  have halloc := h.allocated
  have hfresh : ∀ address ∈ places list (l₁ ++ l₂), address ≠ node := by
    rintro address hmem rfl
    have hsome := halloc address hmem
    rw [hfree.2] at hsome
    cases hsome
  have hnew : ∀ address ∈ l₁ ++ l₂, address ≠ node := fun address hmem =>
    hfresh address (List.mem_cons_of_mem _ (List.mem_append_left _ hmem))
  rw [hgap] at hforward hbackward halloc hfresh
  have hnodup := hforward.nodup
  rw [reverse_pair] at hbackward
  have hleftMem : left ∈ p ++ left :: right :: q :=
    List.mem_append_right _ List.mem_cons_self
  have hrightMem : right ∈ p ++ left :: right :: q :=
    List.mem_append_right _ (List.mem_cons_of_mem _ List.mem_cons_self)
  have hcreated : ∀ address, (m.node? address).isSome →
      ((m.createNode node x).node? address).isSome := fun address => isSome_setNode m _
  obtain ⟨m', hinsert, hnext', hprev', hdata', hsome'⟩ := insertBetween_eq
    (hcreated left (halloc left hleftMem)) (hcreated right (halloc right hrightMem))
    (by rw [createNode, setNode_node?_self]; rfl) hleftNe hrightNe hfree.1
  have hnextOther : ∀ address, address ≠ left → address ≠ node →
      m'.next address = m.next address := by
    intro address hleft hnode
    rw [hnext', Function.update_of_ne hnode, Function.update_of_ne hleft]
    exact congrFun (field_setNode ..) address |>.trans (Function.update_of_ne hnode ..)
  have hprevOther : ∀ address, address ≠ right → address ≠ node →
      m'.prev address = m.prev address := by
    intro address hright hnode
    rw [hprev', Function.update_of_ne hright, Function.update_of_ne hnode]
    exact congrFun (field_setNode ..) address |>.trans (Function.update_of_ne hnode ..)
  have hdataOther : ∀ address, address ≠ node → m'.data address = m.data address := by
    intro address hnode
    rw [hdata']
    exact congrFun (field_setNode ..) address |>.trans (Function.update_of_ne hnode ..)
  have hdataNode : m'.data node = x := by
    rw [hdata']
    exact congrFun (field_setNode ..) node |>.trans (Function.update_self ..)
  refine ⟨m', ?_, ?_, ?_, ?_, ?_⟩
  · have hhead := isHead_eq_false (halloc right hrightMem) (hprev ▸ hleftNe)
    have hprevRight : (m.createNode node x).dllPrev right = some left := by
      rw [dllPrev, createNode, setNode_node?_of_ne m (hfresh right hrightMem),
        node?_eq (halloc right hrightMem), Option.map_some, hprev]
    simp only [dllInsert, hhead, hprevRight, hinsert, Option.bind_eq_bind, Option.bind_some,
      Bool.false_eq_true, if_false]
  · -- forward, behind the left neighbour
    rw [hplaces]
    refine hforward.insert hfree.1 ?_ ?_ fun y hy => ?_
    · rw [hnext', Function.update_of_ne (hfresh left hleftMem), Function.update_self]
    · rw [hnext', Function.update_self, hnext]
    · exact hnextOther y (ne_of_mem_split hforward.nodup hy) (hfresh y (mem_split_of_mem hy))
  · -- backward, behind the right one
    rw [hplaces, reverse_triple]
    refine hbackward.insert hfree.1 ?_ ?_ fun y hy => ?_
    · rw [hprev', Function.update_self]
    · rw [hprev', Function.update_of_ne (hfresh right hrightMem).symm, Function.update_self, hprev]
    · refine hprevOther y (ne_of_mem_split hbackward.nodup hy) (hfresh y ?_)
      rw [← List.mem_reverse, reverse_pair]
      exact mem_split_of_mem hy
  · rw [List.map_append, List.map_cons, hdataNode,
      List.map_congr_left fun y hy => hdataOther y (hnew y (List.mem_append_left _ hy)),
      List.map_congr_left fun y hy => hdataOther y (hnew y (List.mem_append_right _ hy))]
  · intro address hmem
    refine hsome' address ?_
    rw [hplaces] at hmem
    by_cases hnode : address = node
    · rw [hnode, createNode, setNode_node?_self]
      rfl
    · refine hcreated address (halloc address ?_)
      simp only [List.mem_append, List.mem_cons] at hmem ⊢
      tauto

/-- `DLLRemove` takes the node out of the list, and returns the next. -/
theorem IsDll.remove (h : m.IsDll list (l₁ ++ node :: l₂) content) :
    ∃ m', m.dllRemove node = some (m', l₂.headD (dllTail list)) ∧
      m'.IsDll list (l₁ ++ l₂) (l₁.map m.data ++ l₂.map m.data) := by
  obtain ⟨p, q, hplaces, hgap⟩ := exists_gap list l₁ l₂
  have hgap := hgap node
  generalize l₁.getLastD list = left at hgap hplaces
  generalize l₂.headD (dllTail list) = right at hgap hplaces ⊢
  have hgap' : places list (l₁ ++ node :: l₂) = (p ++ [left]) ++ node :: right :: q := by
    rw [hgap, List.append_assoc, List.singleton_append]
  obtain ⟨hnextLeft, hnodeNe, hprevNode, hleftNe⟩ := h.neighbours hgap
  obtain ⟨hnextNode, hrightNe, hprevRight, -⟩ := h.neighbours hgap'
  have hforward := h.forward
  have hbackward := h.backward
  have halloc := h.allocated
  rw [hgap] at hforward hbackward halloc
  rw [reverse_triple] at hbackward
  have hleft := halloc left (List.mem_append_right _ List.mem_cons_self)
  have hnode := halloc node (List.mem_append_right _ (List.mem_cons_of_mem _ List.mem_cons_self))
  have hright := halloc right (List.mem_append_right _
    (List.mem_cons_of_mem _ (List.mem_cons_of_mem _ List.mem_cons_self)))
  obtain ⟨m', hjoin, hnext', hprev', hdata', hsome'⟩ := joinNode_eq hleft hright hleftNe hrightNe
  have hnodup : (p ++ left :: node :: right :: q).Nodup := hforward.nodup
  have hothers : ∀ address ∈ p ++ left :: right :: q, address ≠ node := by
    intro address hmem
    have hnodup' : ((p ++ [left]) ++ node :: right :: q).Nodup := by
      rwa [List.append_assoc, List.singleton_append]
    refine ne_of_mem_split hnodup' ?_
    rwa [List.append_assoc, List.singleton_append]
  refine ⟨m'.freeNode node, ?_, ?_, ?_, ?_, ?_⟩
  · have hhead := isHead_eq_false hnode (hprevNode ▸ hleftNe)
    have htail := isTail_eq_false hnode (hnextNode ▸ hrightNe)
    simp only [dllRemove, hhead, htail, removeNode, node?_eq hnode, hprevNode, hnextNode, hjoin,
      Option.bind_eq_bind, Option.bind_some, Bool.false_eq_true, or_self, if_false]
  · rw [hplaces]
    refine hforward.remove ?_ fun y hy => ?_
    · exact (field_freeNode m' _ (hothers left (List.mem_append_right _ List.mem_cons_self))).trans
        (by rw [← next, hnext', Function.update_self, hnextNode])
    · have hy' : y ∈ p ++ left :: right :: q := mem_split_of_mem hy
      refine (field_freeNode m' _ (hothers y hy')).trans ?_
      rw [← next, hnext', Function.update_of_ne (ne_of_mem_split hforward.nodup ?_)]
      simp only [List.mem_append, List.mem_cons] at hy ⊢
      tauto
  · rw [hplaces, reverse_pair]
    refine hbackward.remove ?_ fun y hy => ?_
    · exact (field_freeNode m' _ (hothers right (List.mem_append_right _
        (List.mem_cons_of_mem _ List.mem_cons_self)))).trans
          (by rw [← prev, hprev', Function.update_self, hprevNode])
    · have hy' : y ∈ p ++ left :: right :: q := by
        rw [← List.mem_reverse, reverse_pair]
        exact mem_split_of_mem hy
      refine (field_freeNode m' _ (hothers y hy')).trans ?_
      rw [← prev, hprev', Function.update_of_ne (ne_of_mem_split hbackward.nodup ?_)]
      simp only [List.mem_append, List.mem_cons] at hy ⊢
      tauto
  · have hdata : ∀ y ∈ l₁ ++ l₂, (m'.freeNode node).data y = m.data y := by
      intro y hy
      have hy' : y ∈ places list (l₁ ++ l₂) :=
        List.mem_cons_of_mem _ (List.mem_append_left _ hy)
      rw [hplaces] at hy'
      exact (field_freeNode m' _ (hothers y hy')).trans (congrFun hdata' y)
    rw [List.map_append, List.map_congr_left fun y hy => hdata y (List.mem_append_left _ hy),
      List.map_congr_left fun y hy => hdata y (List.mem_append_right _ hy)]
  · intro address hmem
    rw [hplaces] at hmem
    rw [freeNode_node?_of_ne m' (hothers address hmem)]
    refine hsome' address (halloc address ?_)
    simp only [List.mem_append, List.mem_cons] at hmem ⊢
    tauto

/-- `DLLCreate` makes an empty list. -/
theorem isDll_dllCreate {list : Nat} (hlist : m.IsFree list) :
    ∃ m', m.dllCreate (some list) = some (m', list) ∧ m'.IsDll list [] [] := by
  have htailNe : dllTail list ≠ 0 := by
    rw [dllTail]
    omega
  have hne : list ≠ dllTail list := by
    rw [dllTail]
    omega
  obtain ⟨m₀, hm₀⟩ : ∃ m₀, m₀ = (m.setNode list { data := 0, next := 0, prev := 0 }).setNode
      (dllTail list) { data := 0, next := 0, prev := 0 } := ⟨_, rfl⟩
  have hlist₀ : m₀.node? list = some { data := 0, next := 0, prev := 0 } := by
    rw [hm₀, setNode_node?_of_ne _ hne, setNode_node?_self]
  have htail₀ : m₀.node? (dllTail list) = some { data := 0, next := 0, prev := 0 } := by
    rw [hm₀, setNode_node?_self]
  have hlistSome : (m₀.node? list).isSome := by
    rw [hlist₀]
    rfl
  have htailSome : (m₀.node? (dllTail list)).isSome := by
    rw [htail₀]
    rfl
  obtain ⟨m', hjoin, hnext, hprev, -, hsome⟩ :=
    joinNode_eq hlistSome htailSome hlist.1 htailNe
  refine ⟨m', ?_, ⟨rfl, hlist.1, ?_, htailNe, ?_⟩, ⟨rfl, htailNe, ?_, hlist.1, ?_⟩, rfl, ?_⟩
  · simp only [dllCreate, ← hm₀, hjoin, Option.map_some]
  · rw [hnext, Function.update_self]
  · rw [hnext, Function.update_of_ne hne.symm, next, field, htail₀]
    rfl
  · rw [hprev, Function.update_self]
  · rw [hprev, Function.update_of_ne hne, prev, field, hlist₀]
    rfl
  · intro address hmem
    simp only [places, List.nil_append, List.mem_cons, List.not_mem_nil, or_false] at hmem
    rcases hmem with rfl | rfl
    · exact hsome _ hlistSome
    · exact hsome _ htailSome

/-- `DLLGetData` of a node of a list. -/
theorem IsDll.getData (h : m.IsDll list (l₁ ++ node :: l₂) content) :
    m.dllGetData node = some (m.data node) := by
  obtain ⟨p, q, -, hgap⟩ := exists_gap list l₁ l₂
  have hgap := hgap node
  have hgap' : places list (l₁ ++ node :: l₂) =
      (p ++ [l₁.getLastD list]) ++ node :: l₂.headD (dllTail list) :: q := by
    rw [hgap, List.append_assoc, List.singleton_append]
  obtain ⟨-, -, hprev, hprevNe⟩ := h.neighbours hgap
  obtain ⟨hnext, hnextNe, -, -⟩ := h.neighbours hgap'
  have hnode := h.allocated node
    (List.mem_cons_of_mem _ (List.mem_append_left _ (List.mem_append_right _ List.mem_cons_self)))
  have hhead := isHead_eq_false hnode (hprev ▸ hprevNe)
  have htail := isTail_eq_false hnode (hnext ▸ hnextNe)
  simp only [dllGetData, hhead, htail, node?_eq hnode, Option.map_some, Option.bind_eq_bind,
    Option.bind_some, Bool.false_eq_true, or_self, if_false]

/-- `DLLNext` of a node of a list. -/
theorem IsDll.dllNext_eq (h : m.IsDll list (l₁ ++ node :: l₂) content) :
    m.dllNext node = some (l₂.headD (dllTail list)) := by
  have h' : m.IsDll list ((l₁ ++ [node]) ++ l₂) content := by
    rwa [List.append_assoc, List.singleton_append]
  obtain ⟨hnext, -⟩ := h'.head_tail
  have hnode := node?_eq (h.allocated node
    (List.mem_cons_of_mem _ (List.mem_append_left _ (List.mem_append_right _ List.mem_cons_self))))
  rw [dllNext, hnode, Option.map_some, ← hnext]
  simp

/-- The tail has no data. -/
theorem IsDll.getData_tail (h : m.IsDll list nodes content) :
    m.dllGetData (dllTail list) = none := by
  have hmem : dllTail list ∈ places list nodes := by simp [places]
  have hnode := node?_eq (h.allocated _ hmem)
  have hnext : m.next (dllTail list) = 0 := by
    have hforward := h.forward
    rw [places, ← List.cons_append] at hforward
    exact hforward.suffix.2.2
  have hhead : m.isHead (dllTail list) = some (m.prev (dllTail list) == 0) := by
    rw [isHead, hnode, Option.map_some]
  have htail : m.isTail (dllTail list) = some true := by
    rw [isTail, hnode, Option.map_some, hnext, beq_self_eq_true]
  simp only [dllGetData, hhead, htail, Option.bind_eq_bind, Option.bind_some, or_true, if_true]

/-- A node of a range is not the end of it. -/
theorem IsDll.headD_ne {l₃ : List Nat} (h : m.IsDll list (l₁ ++ (node :: l₂ ++ l₃)) content) :
    l₃.headD (dllTail list) ≠ node := by
  have hnodup := h.forward.nodup
  rw [places, List.append_assoc, ← List.cons_append] at hnodup
  have hmem : l₃.headD (dllTail list) ∈ (list :: l₁) ++ (l₂ ++ l₃ ++ [dllTail list]) := by
    cases l₃ with
    | nil => simp
    | cons last l₃ => simp
  exact ne_of_mem_split hnodup hmem

/-- `DLLFind` stops at the first node that matches, and at the end of the range. -/
theorem IsDll.find {l₃ : List Nat} (h : m.IsDll list (l₁ ++ (l₂ ++ l₃)) content)
    (isMatch : Nat → Int) {fuel : Nat} (hfuel : l₂.length < fuel) :
    ∃ before after, l₂ = before ++ after ∧
      (∀ address ∈ before, isMatch (m.data address) = 0) ∧
      (∀ address ∈ after.head?, isMatch (m.data address) ≠ 0) ∧
      m.dllFind isMatch fuel ((l₂ ++ l₃).headD (dllTail list)) (l₃.headD (dllTail list)) =
        some ((after ++ l₃).headD (dllTail list)) := by
  obtain ⟨fuel, rfl⟩ : ∃ n, fuel = n + 1 := ⟨fuel - 1, by omega⟩
  have hto : l₃.headD (dllTail list) ≠ 0 := by
    have h' : m.IsDll list ((l₁ ++ l₂) ++ l₃) content := by rwa [List.append_assoc]
    exact h'.head_tail.2.1
  induction l₂ generalizing l₁ fuel with
  | nil =>
      refine ⟨[], [], rfl, by simp, by simp, ?_⟩
      simp only [dllFind, List.nil_append, dllIsEqual, hto, or_self, if_false,
        beq_self_eq_true, Option.bind_eq_bind, Option.bind_some, if_true]
  | cons node l₂ ih =>
      obtain ⟨fuel, rfl⟩ : ∃ n, fuel = n + 1 :=
        ⟨fuel - 1, by rw [List.length_cons] at hfuel; omega⟩
      have hnodeNe : node ≠ 0 := h.head_tail.2.1
      have hne : l₃.headD (dllTail list) ≠ node := h.headD_ne
      have hnext : m.dllNext node = some ((l₂ ++ l₃).headD (dllTail list)) := h.dllNext_eq
      have h' : m.IsDll list ((l₁ ++ [node]) ++ (l₂ ++ l₃)) content := by
        rwa [List.append_assoc, List.singleton_append]
      obtain ⟨before, after, rfl, hbefore, hafter, hrest⟩ :=
        ih h' fuel (Nat.lt_of_succ_lt_succ hfuel)
      have hequal : dllIsEqual node (l₃.headD (dllTail list)) = some false := by
        simp only [dllIsEqual, hnodeNe, hto, or_self, if_false, beq_eq_false_iff_ne.mpr hne.symm]
      rw [dllFind, List.cons_append, List.headD_cons, hequal, h.getData, hnext]
      simp only [Option.bind_eq_bind, Option.bind_some, Bool.false_eq_true, if_false]
      by_cases hmatch : isMatch (m.data node) = 0
      · refine ⟨node :: before, after, rfl, fun address hmem => ?_, hafter, ?_⟩
        · rcases List.mem_cons.mp hmem with rfl | hmem
          · exact hmatch
          · exact hbefore address hmem
        · rw [if_neg (not_not.mpr hmatch)]
          exact hrest
      · refine ⟨[], node :: (before ++ after), rfl, by simp, fun address hmem => ?_, ?_⟩
        · obtain rfl : node = address := by simpa using hmem
          exact hmatch
        · rw [if_pos hmatch]
          rfl

/-- `DLLBegin` and `DLLEnd` are the places behind the head and at the end. -/
theorem IsDll.dllBegin_eq (h : m.IsDll list nodes content) :
    m.dllBegin list = some (nodes.headD (dllTail list)) := by
  have h' : m.IsDll list ([] ++ nodes) content := h
  have hnext : m.next list = nodes.headD (dllTail list) := h'.head_tail.1
  rw [dllBegin, node?_eq (h.allocated list List.mem_cons_self), Option.map_some, hnext]

/-- `DLLPrev` of the tail is the last node. -/
theorem IsDll.dllPrev_tail (h : m.IsDll list nodes content) :
    m.dllPrev (dllTail list) = some (nodes.getLastD list) := by
  have h' : m.IsDll list (nodes ++ []) content := by rwa [List.append_nil]
  have hprev : m.prev (dllTail list) = nodes.getLastD list := h'.head_tail.2.2.1
  rw [dllPrev, node?_eq (h.allocated _ (by simp [places])), Option.map_some, hprev]

/-- `DLLIsEmpty` compares the first place with the end. -/
theorem IsDll.dllIsEmpty_eq (h : m.IsDll list nodes content) :
    m.dllIsEmpty list = some (nodes == []) := by
  have h' : m.IsDll list ([] ++ nodes) content := h
  have hhead := h'.head_tail.2.1
  have hnodup := h.forward.nodup
  rw [dllIsEmpty, h.dllBegin_eq, Option.bind_some, dllIsEqual, dllEnd]
  cases nodes with
  | nil =>
      rw [List.headD_nil] at hhead ⊢
      simp only [hhead, or_self, if_false, beq_self_eq_true]
  | cons node nodes =>
      have htail : dllTail list ≠ 0 := h.forward.ne_zero _ (by simp [places])
      rw [places, List.cons_append, List.nodup_cons, List.nodup_cons] at hnodup
      have hne : node ≠ dllTail list := by
        rintro rfl
        exact hnodup.2.1 (List.mem_append_right _ List.mem_cons_self)
      rw [List.headD_cons] at hhead ⊢
      simp only [hhead, htail, or_self, if_false, beq_eq_false_iff_ne.mpr hne]
      rfl

/-- `DLLPopFront` takes the first element. -/
theorem IsDll.popFront (h : m.IsDll list (node :: nodes) content) :
    ∃ m', m.dllPopFront list = some (m', m.data node) ∧
      m'.IsDll list nodes (nodes.map m.data) := by
  have h' : m.IsDll list ([] ++ node :: nodes) content := h
  have hempty : m.dllIsEmpty list = some false := h.dllIsEmpty_eq
  obtain ⟨m', hremove, hlist⟩ := h'.remove
  refine ⟨m', ?_, hlist⟩
  simp only [dllPopFront, hempty, h.dllBegin_eq, List.headD_cons, h'.getData, hremove,
    Option.bind_eq_bind, Option.bind_some, Bool.false_eq_true, if_false]

/-- `DLLPopBack` takes the last element. -/
theorem IsDll.popBack (h : m.IsDll list (nodes ++ [node]) content) :
    ∃ m', m.dllPopBack list = some (m', m.data node) ∧
      m'.IsDll list nodes (nodes.map m.data) := by
  have hempty : m.dllIsEmpty list = some false := by
    rw [h.dllIsEmpty_eq, beq_eq_false_iff_ne.mpr (List.append_ne_nil_of_right_ne_nil _
      (List.cons_ne_nil node []))]
  have hback : m.dllPrev (dllTail list) = some node := by
    rw [h.dllPrev_tail]
    simp
  obtain ⟨m', hremove, hlist⟩ := h.remove
  rw [List.append_nil, List.map_nil, List.append_nil] at hlist
  refine ⟨m', ?_, hlist⟩
  simp only [dllPopBack, hempty, dllEnd, hback, h.getData, hremove, Option.bind_eq_bind,
    Option.bind_some, Bool.false_eq_true, if_false]

/-- An empty list has nothing to take. -/
theorem IsDll.pop_nil (h : m.IsDll list [] content) :
    m.dllPopFront list = none ∧ m.dllPopBack list = none := by
  have hempty : m.dllIsEmpty list = some true := h.dllIsEmpty_eq
  constructor
  · simp only [dllPopFront, hempty, Option.bind_eq_bind, Option.bind_some, if_true]
  · simp only [dllPopBack, hempty, Option.bind_eq_bind, Option.bind_some, if_true]

end Calls

/-! ## Iterators -/

/-- The iterator that `k` calls of `DLLNext` reach from `DLLBegin`; null is none. -/
def iterAt (m : DllMemory) (list : Nat) : Nat → Option Nat
  | 0 => m.dllBegin list
  | k + 1 => (m.iterAt list k).bind fun iter =>
      (m.dllNext iter).bind fun next => if next = 0 then none else some next

/-- The iterators of a list are its nodes and its tail. -/
theorem IsDll.iterAt_eq {m : DllMemory} {list : Nat} {nodes content : List Nat}
    (h : m.IsDll list nodes content) (k : Nat) :
    m.iterAt list k = (nodes ++ [dllTail list])[k]? := by
  induction k with
  | zero =>
      rw [iterAt, h.dllBegin_eq]
      cases nodes with
      | nil => rfl
      | cons node nodes => rfl
  | succ k ih =>
      rw [iterAt, ih]
      by_cases hlt : k < (nodes ++ [dllTail list]).length
      case neg =>
        rw [List.getElem?_eq_none (Nat.le_of_not_lt hlt), Option.bind_none,
          List.getElem?_eq_none (Nat.le_succ_of_le (Nat.le_of_not_lt hlt))]
      case pos =>
        obtain ⟨l₁, iter, l₂, hsplit, rfl⟩ := exists_append_cons_of_lt hlt
        have hplaces : places list nodes = (list :: l₁) ++ iter :: l₂ := by
          rw [places, hsplit, List.cons_append]
        have hnode := node?_eq (h.allocated iter (by rw [hplaces]; simp))
        rw [hsplit, getElem?_split, Option.bind_some, dllNext, hnode, Option.map_some,
          Option.bind_some, List.getElem?_append_right (Nat.le_add_right _ 1),
          Nat.add_sub_cancel_left, List.getElem?_cons_succ]
        cases l₂ with
        | nil =>
            have hforward := h.forward
            rw [hplaces] at hforward
            exact if_pos hforward.suffix.2.2
        | cons next l₂ =>
            obtain ⟨hnext, hne, -⟩ := h.neighbours hplaces
            rw [hnext, if_neg hne]
            rfl

/-- The iterator between two parts of a list. -/
theorem IsDll.iterAt_split {m : DllMemory} {list : Nat} {l₁ l₂ content : List Nat}
    (h : m.IsDll list (l₁ ++ l₂) content) :
    m.iterAt list l₁.length = some (l₂.headD (dllTail list)) := by
  rw [h.iterAt_eq, List.append_assoc]
  cases l₂ with
  | nil => exact getElem?_split l₁ [] _
  | cons node l₂ => exact getElem?_split l₁ _ node

/-- An iterator of a list is at one of its places. -/
theorem IsDll.le_of_iterAt {m : DllMemory} {list k iter : Nat} {nodes content : List Nat}
    (h : m.IsDll list nodes content) (hiter : m.iterAt list k = some iter) : k ≤ nodes.length := by
  rw [h.iterAt_eq] at hiter
  have hlt := (List.getElem?_eq_some_iff.mp hiter).1
  rw [List.length_append, List.length_singleton] at hlt
  exact Nat.le_of_lt_succ hlt

/-- An iterator parts a list. -/
theorem IsDll.exists_split_of_iterAt {m : DllMemory} {list k iter : Nat} {nodes content : List Nat}
    (h : m.IsDll list nodes content) (hiter : m.iterAt list k = some iter) :
    ∃ l₁ l₂, nodes = l₁ ++ l₂ ∧ l₁.length = k ∧ l₂.headD (dllTail list) = iter := by
  obtain ⟨l₁, l₂, rfl, rfl⟩ := exists_append_of_le (h.le_of_iterAt hiter)
  exact ⟨l₁, l₂, rfl, rfl, Option.some.inj (h.iterAt_split.symm.trans hiter)⟩

/-- Two iterators part a list into what is before, between and behind them. -/
theorem IsDll.exists_range_of_iterAt {m : DllMemory} {list i j from_ to_ : Nat}
    {nodes content : List Nat} (h : m.IsDll list nodes content) (hij : i ≤ j)
    (hfrom : m.iterAt list i = some from_) (hto : m.iterAt list j = some to_) :
    ∃ l₁ range l₂, nodes = l₁ ++ (range ++ l₂) ∧ l₁.length = i ∧ l₁.length + range.length = j ∧
      (range ++ l₂).headD (dllTail list) = from_ ∧ l₂.headD (dllTail list) = to_ := by
  obtain ⟨l, l₂, rfl, rfl, hhead⟩ := h.exists_split_of_iterAt hto
  obtain ⟨l₁, range, rfl, rfl⟩ := exists_append_of_le hij
  rw [List.append_assoc] at h
  exact ⟨l₁, range, l₂, List.append_assoc .., rfl, List.length_append.symm,
    Option.some.inj (h.iterAt_split.symm.trans hfrom), hhead⟩

end DllMemory

end Ds
end InfinityLabs
