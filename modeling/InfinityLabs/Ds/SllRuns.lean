import InfinityLabs.Ds.Sll
import InfinityLabs.Lib.ListParts
import InfinityLabs.Lib.Runs
import Mathlib.Data.List.Nodup
import Mathlib.Data.List.Perm.Subperm

/-!
# The singly linked list over its runs

What insertion, removal and the loops do to a list in memory, and, by induction over the calls,
that the list represents its content after every sequence of them.
-/

namespace InfinityLabs
namespace Ds

open Lib

namespace SllMemory

/-! ## Insertion -/

/-- A free address is not that of a node of a list. -/
theorem IsFree.ne_of_mem {m : SllMemory} {node list : Nat} {header : SllHeader}
    {nodes content : List Nat} (hfree : m.IsFree node)
    (h : m.IsList list header nodes content) : ∀ address ∈ nodes, address ≠ node := by
  rintro address hmem rfl
  have halloc := (h.allocated address hmem).2
  rw [hfree.2.2.1] at halloc
  cases halloc

/-- The list in a memory in which a new node behind the iterator has taken its place. -/
theorem IsList.inserted {m m' : SllMemory} {list iter node x : Nat} {header header' : SllHeader}
    {l₁ l₂ content : List Nat} (h : m.IsList list header (l₁ ++ iter :: l₂) content)
    (hfree : m.IsFree node) (hiter : m'.node? iter = some { data := x, next := node })
    (hnode : m'.node? node = m.node? iter)
    (hothers : ∀ address, address ≠ iter → address ≠ node → m'.node? address = m.node? address)
    (hheader : m'.list? list = some header') (hhead : header'.head = header.head)
    (htail : header'.tail = if l₂ = [] then node else header.tail) :
    m'.IsList list header' (l₁ ++ iter :: node :: l₂) (content.insertIdx l₁.length x) := by
  have hfresh := hfree.ne_of_mem h
  have hnodup := h.linked.nodup
  rw [List.nodup_middle, List.nodup_cons, List.mem_append, not_or] at hnodup
  have hsame : ∀ address, address ∈ l₁ ∨ address ∈ l₂ →
      m'.node? address = m.node? address := by
    intro address hmem
    refine hothers address (fun heq => ?_) (hfresh address ?_)
    · exact hmem.elim (fun h₁ => hnodup.1.1 (heq ▸ h₁)) fun h₂ => hnodup.1.2 (heq ▸ h₂)
    · simp only [List.mem_append, List.mem_cons]
      exact hmem.elim Or.inl fun h₂ => Or.inr (Or.inr h₂)
  constructor
  case ne_null => exact h.ne_null
  case header_eq => exact hheader
  case linked =>
    rw [hhead]
    have hnext : m'.next node = m.next iter := by rw [next, next, sllNext, sllNext, hnode]
    exact h.linked.insert (Nat.ne_of_gt hfree.1) (next_of_node? hiter) hnext fun address hmem =>
      next_congr (hsame address (List.mem_append.mp hmem))
  case tail_eq =>
    have htail_eq := h.tail_eq
    rw [List.getLast?_append_cons] at htail_eq ⊢
    rw [htail]
    cases l₂ with
    | nil => rfl
    | cons a l₂ =>
        rw [List.getLast?_cons_cons] at htail_eq
        rw [List.getLast?_cons_cons, List.getLast?_cons_cons, htail_eq]
        rfl
  case data_eq =>
    have hdata := h.data_eq
    rw [List.map_append, List.map_cons] at hdata
    have hmap : ∀ l : List Nat, (∀ address ∈ l, address ∈ l₁ ∨ address ∈ l₂) →
        l.map m'.data = l.map m.data := fun l hl =>
      List.map_congr_left fun address hmem => data_congr (hsame address (hl address hmem))
    rw [List.map_append, List.map_cons, List.map_cons, hmap l₁ fun _ => Or.inl,
      hmap l₂ fun _ => Or.inr, data_of_node? hiter,
      show m'.data node = m.data iter by rw [data, data, sllGetData, sllGetData, hnode],
      ← insertIdx_append_singleton hdata.symm, List.length_map]
  case allocated =>
    intro address hmem
    simp only [List.mem_append, List.mem_cons] at hmem
    have hold := h.allocated
    simp only [List.mem_append, List.mem_cons] at hold
    rcases hmem with hmem | rfl | rfl | hmem
    · rw [hsame address (Or.inl hmem)]
      exact hold address (Or.inl hmem)
    · exact ⟨(hold address (Or.inr (Or.inl rfl))).1, by rw [hiter]; rfl⟩
    · rw [hnode]
      exact ⟨hfree.2.1, (hold iter (Or.inr (Or.inl rfl))).2⟩
    · rw [hsame address (Or.inr hmem)]
      exact hold address (Or.inr (Or.inr hmem))

/-- Only the nodes and the header of one list are written. -/
structure SameElsewhere (m m' : SllMemory) (list : Nat) (nodes : List Nat) : Prop where
  node_eq : ∀ address, address ∉ nodes → m'.node? address = m.node? address
  list_eq : ∀ other, other ≠ list → m'.list? other = m.list? other

/-- A list that shares nothing with what is written stays as it is. -/
theorem IsList.elsewhere {m m' : SllMemory} {list other : Nat} {header : SllHeader}
    {nodes content written : List Nat} (h : m.IsList other header nodes content)
    (hsame : SameElsewhere m m' list written) (hne : other ≠ list)
    (hdisjoint : ∀ address ∈ nodes, address ∉ written) :
    m'.IsList other header nodes content :=
  h.congr (fun address hmem => hsame.node_eq address (hdisjoint address hmem))
    (hsame.list_eq other hne)

/-- The last node refers back to the list. -/
theorem IsList.data_last {m : SllMemory} {list iter : Nat} {header : SllHeader}
    {nodes content : List Nat} (h : m.IsList list header nodes content)
    (hlast : nodes.getLast? = some iter) : m.data iter = list := by
  have hdata := congrArg List.getLast? h.data_eq
  rw [List.getLast?_map, hlast, List.getLast?_concat] at hdata
  exact Option.some.inj hdata

/-- `SLLInsert` at an iterator of the list places the data before it. -/
theorem IsList.insert {m : SllMemory} {list iter node : Nat} {header : SllHeader}
    {l₁ l₂ content : List Nat} (h : m.IsList list header (l₁ ++ iter :: l₂) content)
    (hfree : m.IsFree node) (fuel x : Nat) :
    ∃ m' header', m.sllInsert fuel (some node) iter x = some (m', iter) ∧
      m'.IsList list header' (l₁ ++ iter :: node :: l₂) (content.insertIdx l₁.length x) ∧
      SameElsewhere m m' list [iter, node] := by
  have hmem : iter ∈ l₁ ++ iter :: l₂ := List.mem_append_right _ List.mem_cons_self
  have hold := node?_eq (h.allocated iter hmem).2
  have hne : iter ≠ node := hfree.ne_of_mem h iter hmem
  -- the nodes after the call, whatever becomes of the header
  have hnodes : ∀ m' : SllMemory,
      m'.node? = ((m.setNode node { data := m.data iter, next := m.next iter }).setNode iter
        { data := x, next := node }).node? →
      m'.node? iter = some { data := x, next := node } ∧ m'.node? node = m.node? iter ∧
        ∀ address, address ≠ iter → address ≠ node →
          m'.node? address = m.node? address := by
    intro m' heq
    simp only [heq, setNode, Function.update_self, Function.update_of_ne hne.symm, hold, true_and]
    intro address hiter hnode
    rw [Function.update_of_ne hiter, Function.update_of_ne hnode]
  simp only [sllInsert, hold]
  by_cases hend : l₂ = []
  · subst hend
    have hzero : m.next iter = 0 := h.linked.suffix.2.2
    have hdata : m.data iter = list := h.data_last List.getLast?_concat
    obtain ⟨hiter, hnode, hothers⟩ := hnodes (((m.setNode node _).setNode iter _).setList list
      { header with tail := node }) rfl
    refine ⟨_, { header with tail := node }, ?_,
      h.inserted hfree hiter hnode hothers (Function.update_self ..) rfl (if_pos rfl).symm,
      fun address hother => ?_, fun other hother => Function.update_of_ne hother ..⟩
    · simp only [hzero, if_true, setTail, hdata]
      rw [show ((m.setNode node _).setNode iter _).list? list = m.list? list from rfl, h.header_eq]
      rfl
    · rw [List.mem_cons, List.mem_singleton, not_or] at hother
      exact hothers address hother.1 hother.2
  · have hnonzero : m.next iter ≠ 0 := by
      intro hzero
      have hrest := h.linked.suffix.2.2
      rw [hzero] at hrest
      exact hend hrest.eq_nil
    obtain ⟨hiter, hnode, hothers⟩ := hnodes ((m.setNode node _).setNode iter _) rfl
    refine ⟨_, header, if_neg hnonzero,
      h.inserted hfree hiter hnode hothers h.header_eq rfl (if_neg hend).symm,
      fun address hother => ?_, fun _ _ => rfl⟩
    rw [List.mem_cons, List.mem_singleton, not_or] at hother
    exact hothers address hother.1 hother.2

/-! ## Removal -/

/-- The list in a memory in which the iterator has taken the place of the next node. -/
theorem IsList.removed {m m' : SllMemory} {list iter tmp : Nat} {header header' : SllHeader}
    {l₁ l₂ content : List Nat} (h : m.IsList list header (l₁ ++ iter :: tmp :: l₂) content)
    (hiter : m'.node? iter = m.node? tmp)
    (hothers : ∀ address, address ≠ iter → address ≠ tmp → m'.node? address = m.node? address)
    (hheader : m'.list? list = some header') (hhead : header'.head = header.head)
    (htail : header'.tail = if l₂ = [] then iter else header.tail) :
    m'.IsList list header' (l₁ ++ iter :: l₂) (content.eraseIdx l₁.length) := by
  have hnodup := h.linked.nodup
  rw [List.nodup_middle, List.nodup_cons, List.nodup_middle, List.nodup_cons, List.mem_append,
    List.mem_append, List.mem_cons] at hnodup
  simp only [not_or] at hnodup
  have hsame : ∀ address, address ∈ l₁ ∨ address ∈ l₂ →
      m'.node? address = m.node? address := by
    rintro address (hmem | hmem)
    · exact hothers address (fun heq => hnodup.1.1 (heq ▸ hmem))
        fun heq => hnodup.2.1.1 (heq ▸ hmem)
    · exact hothers address (fun heq => hnodup.1.2.2 (heq ▸ hmem))
        fun heq => hnodup.2.1.2 (heq ▸ hmem)
  constructor
  case ne_null => exact h.ne_null
  case header_eq => exact hheader
  case linked =>
    rw [hhead]
    have hnext : m'.next iter = m.next tmp := by rw [next, next, sllNext, sllNext, hiter]
    exact h.linked.remove hnext fun address hmem =>
      next_congr (hsame address (List.mem_append.mp hmem))
  case tail_eq =>
    have htail_eq := h.tail_eq
    rw [List.getLast?_append_cons] at htail_eq ⊢
    rw [htail]
    cases l₂ with
    | nil => rfl
    | cons a l₂ =>
        rw [List.getLast?_cons_cons, List.getLast?_cons_cons] at htail_eq
        rw [List.getLast?_cons_cons, htail_eq]
        rfl
  case data_eq =>
    have hdata := h.data_eq
    rw [List.map_append, List.map_cons, List.map_cons] at hdata
    have hmap : ∀ l : List Nat, (∀ address ∈ l, address ∈ l₁ ∨ address ∈ l₂) →
        l.map m'.data = l.map m.data := fun l hl =>
      List.map_congr_left fun address hmem => data_congr (hsame address (hl address hmem))
    rw [List.map_append, List.map_cons, hmap l₁ fun _ => Or.inl, hmap l₂ fun _ => Or.inr,
      show m'.data iter = m.data tmp by rw [data, data, sllGetData, sllGetData, hiter],
      ← eraseIdx_append_singleton hdata.symm, List.length_map]
  case allocated =>
    intro address hmem
    simp only [List.mem_append, List.mem_cons] at hmem
    have hold := h.allocated
    simp only [List.mem_append, List.mem_cons] at hold
    rcases hmem with hmem | rfl | hmem
    · rw [hsame address (Or.inl hmem)]
      exact hold address (Or.inl hmem)
    · rw [hiter]
      exact ⟨(hold address (Or.inr (Or.inl rfl))).1, (hold tmp (Or.inr (Or.inr (Or.inl rfl)))).2⟩
    · rw [hsame address (Or.inr hmem)]
      exact hold address (Or.inr (Or.inr (Or.inr hmem)))

/-- `SLLRemove` of an iterator with a next node. -/
theorem sllRemove_of_next {m : SllMemory} {iter tmp : Nat} {node : SllNode}
    (hnext : m.sllNext iter = some tmp) (hne : tmp ≠ 0) (htmp : m.node? tmp = some node) :
    m.sllRemove iter =
      if node.next = 0 then
        (((m.setNode iter node).freeNode tmp).setTail node.data iter).map fun m' => (m', iter)
      else some ((m.setNode iter node).freeNode tmp, iter) := by
  rw [sllRemove, hnext]
  split
  case h_1 heq => cases heq
  case h_2 heq => exact absurd (Option.some.inj heq) hne
  case h_3 heq =>
    obtain rfl := Option.some.inj heq
    rw [htmp]

/-- `SLLRemove` at an iterator that is not the end takes its element out. -/
theorem IsList.remove {m : SllMemory} {list iter tmp : Nat} {header : SllHeader}
    {l₁ l₂ content : List Nat} (h : m.IsList list header (l₁ ++ iter :: tmp :: l₂) content) :
    ∃ m' header', m.sllRemove iter = some (m', iter) ∧
      m'.IsList list header' (l₁ ++ iter :: l₂) (content.eraseIdx l₁.length) ∧
      SameElsewhere m m' list [iter, tmp] := by
  have hiterMem : iter ∈ l₁ ++ iter :: tmp :: l₂ := List.mem_append_right _ List.mem_cons_self
  have htmpMem : tmp ∈ l₁ ++ iter :: tmp :: l₂ :=
    List.mem_append_right _ (List.mem_cons_of_mem _ List.mem_cons_self)
  have hold := node?_eq (h.allocated iter hiterMem).2
  have htmp := node?_eq (h.allocated tmp htmpMem).2
  obtain ⟨-, -, hnext, htmpNe, hrest⟩ := h.linked.suffix
  have hne : iter ≠ tmp := by
    have hnodup := h.linked.nodup
    rw [List.nodup_middle, List.nodup_cons] at hnodup
    rintro rfl
    exact hnodup.1 (List.mem_append_right _ List.mem_cons_self)
  have hsllNext : m.sllNext iter = some tmp := by rw [sllNext, hold, Option.map_some, hnext]
  -- the nodes after the call, whatever becomes of the header
  have hnodes : ∀ m' : SllMemory,
      m'.node? = ((m.setNode iter { data := m.data tmp, next := m.next tmp }).freeNode tmp).node? →
      m'.node? iter = m.node? tmp ∧
        ∀ address, address ≠ iter → address ≠ tmp →
          m'.node? address = m.node? address := by
    intro m' heq
    simp only [heq, setNode, freeNode, Function.update_self, Function.update_of_ne hne, htmp,
      true_and]
    intro address hiter htmp
    rw [Function.update_of_ne htmp, Function.update_of_ne hiter]
  rw [sllRemove_of_next hsllNext htmpNe htmp]
  by_cases hend : l₂ = []
  · subst hend
    have hzero : m.next tmp = 0 := hrest
    have hdata : m.data tmp = list := h.data_last (by
      rw [List.getLast?_append_cons, List.getLast?_cons_cons, List.getLast?_singleton])
    obtain ⟨hiter, hothers⟩ := hnodes (((m.setNode iter _).freeNode tmp).setList list
      { header with tail := iter }) rfl
    refine ⟨_, { header with tail := iter }, ?_,
      h.removed hiter hothers (Function.update_self ..) rfl (if_pos rfl).symm,
      fun address hother => ?_, fun other hother => Function.update_of_ne hother ..⟩
    · simp only [hzero, if_true, setTail, hdata]
      rw [show ((m.setNode iter _).freeNode tmp).list? list = m.list? list from rfl, h.header_eq]
      rfl
    · rw [List.mem_cons, List.mem_singleton, not_or] at hother
      exact hothers address hother.1 hother.2
  · have hnonzero : m.next tmp ≠ 0 := by
      intro hzero
      rw [hzero] at hrest
      exact hend hrest.eq_nil
    obtain ⟨hiter, hothers⟩ := hnodes ((m.setNode iter _).freeNode tmp) rfl
    refine ⟨_, header, if_neg hnonzero,
      h.removed hiter hothers h.header_eq rfl (if_neg hend).symm,
      fun address hother => ?_, fun _ _ => rfl⟩
    rw [List.mem_cons, List.mem_singleton, not_or] at hother
    exact hothers address hother.1 hother.2

/-! ## The loops -/

/-- What the loop of `SLLForEach` computes on a content. -/
def forEachElement {σ : Type} (action : Nat → σ → Int × σ) : List Nat → σ → Int × σ
  | [], param => (0, param)
  | data :: rest, param =>
      let (rc, param) := action data param
      if rc = 0 then forEachElement action rest param else (rc, param)

/-- A list is its elements' nodes and its tail. -/
theorem IsList.exists_concat {m : SllMemory} {list : Nat} {header : SllHeader}
    {nodes content : List Nat} (h : m.IsList list header nodes content) :
    ∃ elements, nodes = elements ++ [header.tail] ∧ elements.map m.data = content := by
  obtain ⟨elements, rfl⟩ := List.getLast?_eq_some_iff.mp h.tail_eq
  have hdata := h.data_eq
  rw [List.map_append, List.map_singleton] at hdata
  exact ⟨elements, rfl, (List.append_inj' hdata rfl).1⟩

/-- `SLLForEach` visits the nodes up to the end. -/
theorem sllForEach_eq {σ : Type} {m : SllMemory} (action : Nat → σ → Int × σ)
    {from_ to_ : Nat} {elements : List Nat} (hlinked : Linked m.next from_ (elements ++ [to_]))
    (halloc : ∀ address ∈ elements, (m.node? address).isSome) {fuel : Nat}
    (hfuel : elements.length < fuel) (param : σ) :
    m.sllForEach action fuel from_ to_ param =
      some (forEachElement action (elements.map m.data) param) := by
  induction elements generalizing from_ fuel param with
  | nil =>
      obtain ⟨fuel, rfl⟩ := Nat.exists_eq_add_of_lt hfuel
      rw [show from_ = to_ from hlinked.1, sllForEach, if_pos rfl]
      rfl
  | cons address elements ih =>
      obtain ⟨fuel, rfl⟩ : ∃ n, fuel = n + 1 := ⟨fuel - 1, by omega⟩
      obtain ⟨rfl, hne, hrest⟩ := hlinked.cons_concat
      have hnode := node?_eq (halloc from_ List.mem_cons_self)
      have hnext := ih hrest (fun a ha => halloc a (List.mem_cons_of_mem _ ha))
        (Nat.lt_of_succ_lt_succ hfuel)
      rw [sllForEach, if_neg hne, hnode]
      simp only [List.map_cons, forEachElement]
      split
      · exact hnext _
      · rfl

/-- The count of the elements that have been visited. -/
theorem forEachElement_countAction (content : List Nat) {count : Nat}
    (hlt : count + content.length < 2 ^ 64) :
    forEachElement countAction content count = (0, count + content.length) := by
  induction content generalizing count with
  | nil => rfl
  | cons data rest ih =>
      rw [List.length_cons] at hlt
      simp only [forEachElement, countAction, if_true]
      rw [Nat.mod_eq_of_lt (by omega), ih (by omega), List.length_cons, Nat.add_assoc,
        Nat.add_comm 1]

/-- `SLLCount` is the number of the elements. -/
theorem IsList.count {m : SllMemory} {list : Nat} {header : SllHeader}
    {nodes content : List Nat} (h : m.IsList list header nodes content) {fuel : Nat}
    (hfuel : content.length < fuel) :
    m.sllCount fuel list = some content.length := by
  obtain ⟨elements, rfl, hdata⟩ := h.exists_concat
  have hlength : elements.length = content.length := by rw [← hdata, List.length_map]
  have hlt : (elements ++ [header.tail]).length < 2 ^ 64 :=
    length_lt_of_nodup (Nat.two_pow_pos 64) h.linked.nodup h.linked.ne_zero
      fun address hmem => (h.allocated address hmem).1
  rw [List.length_append, List.length_singleton, hlength] at hlt
  rw [sllCount, if_neg h.ne_null, h.header_eq]
  simp only
  rw [sllForEach_eq countAction h.linked (fun address hmem =>
    (h.allocated address (List.mem_append_left _ hmem)).2) (hlength ▸ hfuel), hdata,
    forEachElement_countAction content (by omega), Nat.zero_add]
  rfl

/-- `SLLFind` returns the first node whose data match, and the end where there is none. -/
theorem sllFind_eq {m : SllMemory} (isMatch : Nat → Int) {from_ to_ : Nat}
    {elements : List Nat} (hlinked : Linked m.next from_ (elements ++ [to_]))
    (halloc : ∀ address ∈ elements, (m.node? address).isSome) {fuel : Nat}
    (hfuel : elements.length < fuel) :
    m.sllFind isMatch fuel from_ to_ =
      some ((elements.find? fun address => isMatch (m.data address) ≠ 0).getD to_) := by
  induction elements generalizing from_ fuel with
  | nil =>
      obtain ⟨fuel, rfl⟩ := Nat.exists_eq_add_of_lt hfuel
      rw [show from_ = to_ from hlinked.1, sllFind, if_pos rfl]
      rfl
  | cons address elements ih =>
      obtain ⟨fuel, rfl⟩ : ∃ n, fuel = n + 1 := ⟨fuel - 1, by omega⟩
      obtain ⟨rfl, hne, hrest⟩ := hlinked.cons_concat
      have hnode := node?_eq (halloc from_ List.mem_cons_self)
      rw [sllFind, if_neg hne, hnode, List.find?_cons]
      by_cases hmatch : isMatch (m.data from_) = 0
      · simp only [hmatch, ne_eq, not_true, if_false, decide_false]
        exact ih hrest (fun a ha => halloc a (List.mem_cons_of_mem _ ha))
          (Nat.lt_of_succ_lt_succ hfuel)
      · simp only [hmatch, ne_eq, not_false_iff, if_true, decide_true, Option.getD_some]

/-- `SLLFind` over a whole list comes to its end, or to the node of the first element that
matches. -/
theorem IsList.find {m : SllMemory} {list : Nat} {header : SllHeader}
    {nodes content : List Nat} (h : m.IsList list header nodes content) (isMatch : Nat → Int)
    {fuel : Nat} (hfuel : content.length < fuel) :
    (∀ data ∈ content, isMatch data = 0) ∧
        m.sllFind isMatch fuel header.head header.tail = some header.tail ∨
      ∃ l₁ iter tmp l₂ before after, nodes = l₁ ++ iter :: tmp :: l₂ ∧
        content = before ++ m.data iter :: after ∧ before.length = l₁.length ∧
        (∀ data ∈ before, isMatch data = 0) ∧ isMatch (m.data iter) ≠ 0 ∧
        iter ≠ header.tail ∧ m.sllFind isMatch fuel header.head header.tail = some iter := by
  obtain ⟨elements, rfl, rfl⟩ := h.exists_concat
  rw [List.length_map] at hfuel
  have hlinked : Linked m.next header.head (elements ++ [header.tail]) := h.linked
  have hfind := sllFind_eq isMatch hlinked
    (fun address hmem => (h.allocated address (List.mem_append_left _ hmem)).2) hfuel
  cases hfound : elements.find? fun address => isMatch (m.data address) ≠ 0 with
  | none =>
      refine Or.inl ⟨fun data hmem => ?_, by rw [hfind, hfound, Option.getD_none]⟩
      obtain ⟨address, haddress, rfl⟩ := List.mem_map.mp hmem
      simpa using List.find?_eq_none.mp hfound address haddress
  | some iter =>
      obtain ⟨hmatch, l₁, l₂, rfl, hbefore⟩ := List.find?_eq_some_iff_append.mp hfound
      have hne : iter ≠ header.tail := by
        have hnodup := hlinked.nodup
        rw [List.append_assoc, List.cons_append, List.nodup_middle, List.nodup_cons] at hnodup
        rintro rfl
        exact hnodup.1 (List.mem_append_right _ (List.mem_append_right _ List.mem_cons_self))
      obtain ⟨tmp, rest, hrest⟩ := List.exists_cons_of_ne_nil
        (List.append_ne_nil_of_right_ne_nil l₂ (List.cons_ne_nil header.tail []))
      refine Or.inr ⟨l₁, iter, tmp, rest, l₁.map m.data, l₂.map m.data, ?_, ?_,
        List.length_map .., fun data hmem => ?_, of_decide_eq_true hmatch, hne,
        by rw [hfind, hfound, Option.getD_some]⟩
      · rw [List.append_assoc, List.cons_append, hrest]
      · rw [List.map_append, List.map_cons]
      · obtain ⟨address, haddress, rfl⟩ := List.mem_map.mp hmem
        simpa using hbefore address haddress

/-- A call that writes to the nodes of one list and to a free address keeps the others. -/
theorem IsList.keeps_others {m m' : SllMemory} {list : Nat} {header : SllHeader}
    {nodes content written : List Nat} (h : m.IsList list header nodes content)
    (hsame : SameElsewhere m m' list written)
    (hwritten : ∀ address ∈ written, address ∈ nodes ∨ m.IsFree address) {other : Nat}
    {otherHeader : SllHeader} {others otherContent : List Nat} (hne : other ≠ list)
    (hother : m.IsList other otherHeader others otherContent) :
    m'.IsList other otherHeader others otherContent := by
  refine hother.elsewhere hsame hne fun address hmem hmem' => ?_
  rcases hwritten address hmem' with hnode | hfree
  · exact h.disjoint hother hne.symm address hnode hmem
  · exact hfree.ne_of_mem hother address hmem rfl

/-! ## The ends of a list -/

/-- `SLLBegin` and `SLLEnd` read the header. -/
theorem IsList.sllBegin_eq {m : SllMemory} {list : Nat} {header : SllHeader}
    {nodes content : List Nat} (h : m.IsList list header nodes content) :
    m.sllBegin list = some header.head := by
  rw [sllBegin, h.header_eq, Option.map_some]

theorem IsList.sllEnd_eq {m : SllMemory} {list : Nat} {header : SllHeader}
    {nodes content : List Nat} (h : m.IsList list header nodes content) :
    m.sllEnd list = some header.tail := by
  rw [sllEnd, h.header_eq, Option.map_some]

/-- An empty list is its tail. -/
theorem IsList.nodes_of_nil {m : SllMemory} {list : Nat} {header : SllHeader}
    {nodes : List Nat} (h : m.IsList list header nodes []) :
    nodes = [header.tail] ∧ header.head = header.tail := by
  obtain ⟨elements, rfl, hdata⟩ := h.exists_concat
  obtain rfl := List.map_eq_nil_iff.mp hdata
  exact ⟨rfl, h.linked.1⟩

/-- A list with elements begins with the node of the first, which is not its tail. -/
theorem IsList.nodes_of_cons {m : SllMemory} {list data : Nat} {header : SllHeader}
    {nodes content : List Nat} (h : m.IsList list header nodes (data :: content)) :
    ∃ tmp rest, nodes = header.head :: tmp :: rest ∧ m.data header.head = data ∧
      header.head ≠ header.tail := by
  obtain ⟨elements, rfl, hdata⟩ := h.exists_concat
  cases elements with
  | nil => cases hdata
  | cons head elements =>
      have hlinked := h.linked
      have hnodup := hlinked.nodup
      rw [List.cons_append] at hlinked hnodup
      obtain ⟨rfl, -⟩ := hlinked
      have hne : header.head ≠ header.tail := fun heq =>
        (List.nodup_cons.mp hnodup).1 (heq ▸ List.mem_append_right _ List.mem_cons_self)
      cases elements with
      | nil => exact ⟨_, [], rfl, (List.cons.inj hdata).1, hne⟩
      | cons tmp rest => exact ⟨tmp, _, rfl, (List.cons.inj hdata).1, hne⟩

/-- `SLLIsEmpty` compares the ends. -/
theorem IsList.isEmpty {m : SllMemory} {list : Nat} {header : SllHeader}
    {nodes content : List Nat} (h : m.IsList list header nodes content) :
    m.sllIsEmpty list = some (content == []) := by
  rw [sllIsEmpty, h.header_eq, Option.map_some]
  cases content with
  | nil => rw [h.nodes_of_nil.2, beq_self_eq_true, beq_self_eq_true]
  | cons data content =>
      obtain ⟨-, -, -, -, hne⟩ := h.nodes_of_cons
      rw [beq_eq_false_iff_ne.mpr hne, beq_eq_false_iff_ne.mpr (List.cons_ne_nil _ _)]

/-- The data of the first node. -/
theorem IsList.getData_head {m : SllMemory} {list data : Nat} {header : SllHeader}
    {nodes content : List Nat} (h : m.IsList list header nodes (data :: content)) :
    m.sllGetData header.head = some data := by
  obtain ⟨tmp, rest, rfl, hdata, -⟩ := h.nodes_of_cons
  rw [sllGetData, node?_eq (h.allocated _ List.mem_cons_self).2, Option.map_some, hdata]

/-- The loop of `SLLInsert` ends at the tail. -/
theorem IsList.sllLast_eq {m : SllMemory} {list iter : Nat} {header : SllHeader}
    {l₁ l₂ content : List Nat} (h : m.IsList list header (l₁ ++ iter :: l₂) content)
    {fuel : Nat} (hfuel : l₂.length < fuel) : m.sllLast fuel iter = some header.tail := by
  obtain ⟨fuel, rfl⟩ : ∃ n, fuel = n + 1 := ⟨fuel - 1, by omega⟩
  have hnode := node?_eq (h.allocated iter (List.mem_append_right _ List.mem_cons_self)).2
  induction l₂ generalizing l₁ iter fuel with
  | nil =>
      have htail := h.tail_eq
      rw [List.getLast?_concat, Option.some.injEq] at htail
      have hnext : m.next iter = 0 := h.linked.suffix.2.2
      simp only [sllLast, sllNext, hnode, Option.map_some, hnext]
      rw [htail]
  | cons next l₂ ih =>
      obtain ⟨fuel, rfl⟩ : ∃ n, fuel = n + 1 :=
        ⟨fuel - 1, by rw [List.length_cons] at hfuel; omega⟩
      obtain ⟨hnext, hne, -⟩ := h.linked.suffix.2.2
      have hlist : m.IsList list header ((l₁ ++ [iter]) ++ next :: l₂) content := by
        rwa [List.append_assoc, List.singleton_append]
      have hrest := ih hlist fuel (Nat.lt_of_succ_lt_succ hfuel)
        (node?_eq (hlist.allocated next (List.mem_append_right _ List.mem_cons_self)).2)
      rw [sllLast, sllNext, hnode, Option.map_some, hnext]
      cases next with
      | zero => exact absurd rfl hne
      | succ next => exact hrest

/-- `SLLInsert` without memory changes nothing and returns the tail. -/
theorem IsList.insert_fails {m : SllMemory} {list iter : Nat} {header : SllHeader}
    {l₁ l₂ content : List Nat} (h : m.IsList list header (l₁ ++ iter :: l₂) content)
    {fuel : Nat} (hfuel : l₂.length < fuel) (x : Nat) :
    m.sllInsert fuel none iter x = some (m, header.tail) := by
  have hnode := node?_eq (h.allocated iter (List.mem_append_right _ List.mem_cons_self)).2
  simp only [sllInsert, hnode, h.sllLast_eq hfuel, Option.map_some]

/-- `SLLInsert` at the end appends. -/
theorem IsList.insert_end {m : SllMemory} {list node : Nat} {header : SllHeader}
    {nodes content : List Nat} (h : m.IsList list header nodes content)
    (hfree : m.IsFree node) (fuel x : Nat) :
    ∃ m' header', m.sllInsert fuel (some node) header.tail x = some (m', header.tail) ∧
      m'.IsList list header' (nodes ++ [node]) (content ++ [x]) ∧
      SameElsewhere m m' list [header.tail, node] := by
  obtain ⟨elements, rfl, hdata⟩ := h.exists_concat
  obtain ⟨m', header', hinsert, hlist, hsame⟩ := h.insert hfree fuel x
  have hlength : elements.length = content.length := by rw [← hdata, List.length_map]
  rw [hlength, List.insertIdx_length_self] at hlist
  refine ⟨m', header', hinsert, ?_, hsame⟩
  rwa [List.append_assoc, List.singleton_append]

/-- The head is the first node. -/
theorem IsList.nodes_eq {m : SllMemory} {list : Nat} {header : SllHeader}
    {nodes content : List Nat} (h : m.IsList list header nodes content) :
    ∃ rest, nodes = header.head :: rest ∧ rest.length = content.length := by
  have hlinked := h.linked
  have hlength := h.length_eq
  cases nodes with
  | nil => cases hlength
  | cons address rest => exact ⟨rest, by rw [hlinked.1], Nat.succ.inj hlength⟩

/-- Without memory `SLLInsert` at the begin returns the tail as well. -/
theorem IsList.insert_head_fails {m : SllMemory} {list : Nat} {header : SllHeader}
    {nodes content : List Nat} (h : m.IsList list header nodes content) {fuel : Nat}
    (hfuel : content.length < fuel) (x : Nat) :
    m.sllInsert fuel none header.head x = some (m, header.tail) := by
  obtain ⟨rest, rfl, hlength⟩ := h.nodes_eq
  have hsplit : m.IsList list header ([] ++ header.head :: rest) content := h
  exact hsplit.insert_fails (hlength ▸ hfuel) x

/-- `SLLInsert` at the begin puts an element before the others. -/
theorem IsList.insert_head {m : SllMemory} {list node : Nat} {header : SllHeader}
    {nodes content : List Nat} (h : m.IsList list header nodes content)
    (hfree : m.IsFree node) (fuel x : Nat) :
    ∃ m' header' nodes', m.sllInsert fuel (some node) header.head x = some (m', header.head) ∧
      m'.IsList list header' nodes' (x :: content) ∧ header'.head = header.head ∧
      SameElsewhere m m' list [header.head, node] ∧ header.head ∈ nodes := by
  obtain ⟨rest, rfl, -⟩ := h.nodes_eq
  have hsplit : m.IsList list header ([] ++ header.head :: rest) content := h
  obtain ⟨m', header', hinsert, hlist, hsame⟩ := hsplit.insert hfree fuel x
  exact ⟨m', header', _, hinsert, hlist, hlist.linked.1, hsame, List.mem_cons_self⟩

/-- `SLLRemove` at the begin takes the first element. -/
theorem IsList.remove_head {m : SllMemory} {list data : Nat} {header : SllHeader}
    {nodes content : List Nat} (h : m.IsList list header nodes (data :: content)) :
    ∃ m' header' tmp rest, nodes = header.head :: tmp :: rest ∧
      m.sllRemove header.head = some (m', header.head) ∧
      m'.IsList list header' (header.head :: rest) content ∧
      SameElsewhere m m' list [header.head, tmp] := by
  obtain ⟨tmp, rest, rfl, -, -⟩ := h.nodes_of_cons
  have hsplit : m.IsList list header ([] ++ header.head :: tmp :: rest) (data :: content) := h
  obtain ⟨m', header', hremove, hlist, hsame⟩ := hsplit.remove
  exact ⟨m', header', tmp, rest, rfl, hremove, hlist, hsame⟩

/-! ## Iterators -/

/-- The iterator that `k` calls of `SLLNext` reach from `SLLBegin`; null is none. -/
def iterAt (m : SllMemory) (list : Nat) : Nat → Option Nat
  | 0 => m.sllBegin list
  | k + 1 => (m.iterAt list k).bind fun iter =>
      (m.sllNext iter).bind fun next => if next = 0 then none else some next

/-- The iterators of a list are its nodes. -/
theorem IsList.iterAt_eq {m : SllMemory} {list : Nat} {header : SllHeader}
    {nodes content : List Nat} (h : m.IsList list header nodes content) (k : Nat) :
    m.iterAt list k = nodes[k]? := by
  induction k with
  | zero =>
      obtain ⟨elements, rfl, -⟩ := h.exists_concat
      rw [iterAt, sllBegin, h.header_eq, Option.map_some]
      cases elements with
      | nil => rw [h.linked.1]; rfl
      | cons head elements => rw [h.linked.1]; rfl
  | succ k ih =>
      rw [iterAt, ih]
      by_cases hlt : k < nodes.length
      case neg =>
        rw [List.getElem?_eq_none (Nat.le_of_not_lt hlt), Option.bind_none,
          List.getElem?_eq_none (Nat.le_succ_of_le (Nat.le_of_not_lt hlt))]
      case pos =>
        obtain ⟨l₁, iter, l₂, rfl, rfl⟩ := exists_append_cons_of_lt hlt
        have hmem : iter ∈ l₁ ++ iter :: l₂ := List.mem_append_right _ List.mem_cons_self
        have hrest := h.linked.suffix.2.2
        rw [getElem?_split, Option.bind_some, sllNext,
          node?_eq (h.allocated iter hmem).2, Option.map_some, Option.bind_some,
          List.getElem?_append_right (Nat.le_add_right _ 1), Nat.add_sub_cancel_left,
          List.getElem?_cons_succ]
        cases l₂ with
        | nil => exact if_pos hrest
        | cons next l₂ =>
            rw [show m.next iter = next from hrest.1, if_neg hrest.2.1]
            rfl

end SllMemory

/-! ## The runs -/

/-- A list in memory, and the content that its calls should give it. -/
structure SllState where
  memory : SllMemory
  content : List Nat

/-- The calls at the `k`-th iterator.  Every iterator that is valid is one of these; `node` is
what `malloc` returns. -/
inductive SllAction where
  | insert (k data node : Nat)
  | remove (k : Nat)
  deriving DecidableEq, Repr

/-- A call at a valid iterator; the content changes at the place of the iterator. -/
def SllState.step (list : Nat) (s : SllState) : SllAction → Option SllState
  | .insert k data node =>
      if s.memory.IsFree node then
        (s.memory.iterAt list k).bind fun iter =>
          (s.memory.sllInsert 0 (some node) iter data).map fun (memory, _) =>
            { memory, content := s.content.insertIdx k data }
      else none
  | .remove k =>
      (s.memory.iterAt list k).bind fun iter =>
        (s.memory.sllRemove iter).map fun (memory, _) =>
          { memory, content := s.content.eraseIdx k }

/-- The runs of a list that start with `SLLCreate`. -/
def sllMachine (list : Nat) : Machine SllState SllAction where
  start s := ∃ (memory : SllMemory) (dummy : Nat), memory.IsFree list ∧ memory.IsFree dummy ∧
    dummy ≠ list ∧ memory.sllCreate (some list) (some dummy) = (s.memory, list) ∧ s.content = []
  step := SllState.step list

/-- The list is well formed and holds the content. -/
def SllState.Holds (list : Nat) (s : SllState) : Prop :=
  ∃ header nodes, s.memory.IsList list header nodes s.content

/-- The list is well formed, holds the content and counts it, and the calls at its iterators
are defined, removal only before the end. -/
structure SllState.Represents (list : Nat) (s : SllState) : Prop where
  holds : s.Holds list
  count : ∀ fuel, s.content.length < fuel → s.memory.sllCount fuel list = some s.content.length
  insert : ∀ k data node, k ≤ s.content.length → s.memory.IsFree node →
    (s.step list (.insert k data node)).isSome
  remove : ∀ k, k < s.content.length → (s.step list (.remove k)).isSome

/-- The new list is its dummy node. -/
theorem holds_start {list : Nat} {s : SllState} (h : (sllMachine list).start s) :
    s.Holds list := by
  obtain ⟨memory, dummy, hlist, hdummy, -, hcreate, hcontent⟩ := h
  obtain ⟨hmemory, -⟩ := Prod.mk.inj hcreate
  have hnode : s.memory.node? dummy = some { data := list, next := 0 } := by
    rw [← hmemory]
    exact Function.update_self ..
  refine ⟨{ head := dummy, tail := dummy }, [dummy], Nat.ne_of_gt hlist.1, ?_,
    ⟨rfl, Nat.ne_of_gt hdummy.1, ?_⟩, rfl, ?_, ?_⟩
  · rw [← hmemory]
    exact Function.update_self ..
  · exact SllMemory.next_of_node? hnode
  · rw [List.map_singleton, SllMemory.data_of_node? hnode, hcontent]
    rfl
  · intro address hmem
    rw [List.mem_singleton.mp hmem, hnode]
    exact ⟨hdummy.2.1, rfl⟩

/-- The other lists in memory stay as they are. -/
def SllState.KeepsOthers (list : Nat) (s s' : SllState) : Prop :=
  ∀ other header nodes content, other ≠ list → s.memory.IsList other header nodes content →
    s'.memory.IsList other header nodes content

/-- An insertion at a valid iterator is defined, and keeps the list and the others. -/
theorem SllState.Holds.insert {list : Nat} {s : SllState} (h : s.Holds list) {k node : Nat}
    (hk : k ≤ s.content.length) (data : Nat) (hfree : s.memory.IsFree node) :
    ∃ s', s.step list (.insert k data node) = some s' ∧ s'.Holds list ∧
      s.KeepsOthers list s' := by
  obtain ⟨header, nodes, hlist⟩ := h
  have hlt : k < nodes.length := by
    rw [hlist.length_eq]
    exact Nat.lt_succ_of_le hk
  obtain ⟨l₁, iter, l₂, rfl, rfl⟩ := exists_append_cons_of_lt hlt
  obtain ⟨m', header', hinsert, hlist', hsame⟩ := hlist.insert hfree 0 data
  refine ⟨⟨m', s.content.insertIdx l₁.length data⟩, ?_, ⟨header', _, hlist'⟩, ?_⟩
  · rw [SllState.step, if_pos hfree, hlist.iterAt_eq, getElem?_split,
      Option.bind_some, hinsert, Option.map_some]
  · intro other otherHeader others content hne hother
    refine hlist.keeps_others hsame (fun address hwritten => ?_) hne hother
    rcases List.mem_cons.mp hwritten with rfl | hwritten
    · exact Or.inl (List.mem_append_right _ List.mem_cons_self)
    · exact Or.inr (List.mem_singleton.mp hwritten ▸ hfree)

/-- So is a removal before the end, and it keeps them too. -/
theorem SllState.Holds.remove {list : Nat} {s : SllState} (h : s.Holds list) {k : Nat}
    (hk : k < s.content.length) :
    ∃ s', s.step list (.remove k) = some s' ∧ s'.Holds list ∧ s.KeepsOthers list s' := by
  obtain ⟨header, nodes, hlist⟩ := h
  have hlength := hlist.length_eq
  have hlt : k < nodes.length := by omega
  obtain ⟨l₁, iter, l₂, rfl, rfl⟩ := exists_append_cons_of_lt hlt
  cases l₂ with
  | nil =>
      rw [List.length_append, List.length_singleton] at hlength
      omega
  | cons tmp l₂ =>
      obtain ⟨m', header', hremove, hlist', hsame⟩ := hlist.remove
      refine ⟨⟨m', s.content.eraseIdx l₁.length⟩, ?_, ⟨header', _, hlist'⟩, ?_⟩
      · rw [SllState.step, hlist.iterAt_eq, getElem?_split, Option.bind_some,
          hremove, Option.map_some]
      · intro other otherHeader others content hne hother
        refine hlist.keeps_others hsame (fun address hwritten => Or.inl ?_) hne hother
        refine List.mem_append_right _ ?_
        simp only [List.mem_cons, List.not_mem_nil, or_false] at hwritten ⊢
        exact hwritten.elim Or.inl fun heq => Or.inr (Or.inl heq)

/-- The end is not removed. -/
theorem SllState.Holds.lt_of_remove {list : Nat} {s s' : SllState} (h : s.Holds list) {k : Nat}
    (hstep : s.step list (.remove k) = some s') : k < s.content.length := by
  obtain ⟨header, nodes, hlist⟩ := h
  obtain ⟨iter, hiter, hremove⟩ := Option.bind_eq_some_iff.mp hstep
  rw [hlist.iterAt_eq] at hiter
  have hlt := (List.getElem?_eq_some_iff.mp hiter).1
  have hlength := hlist.length_eq
  obtain ⟨l₁, iter', l₂, rfl, rfl⟩ := exists_append_cons_of_lt hlt
  rw [getElem?_split] at hiter
  obtain rfl := Option.some.inj hiter
  cases l₂ with
  | nil =>
      have hmem : iter' ∈ l₁ ++ [iter'] := List.mem_append_right _ List.mem_cons_self
      have hnode := SllMemory.node?_eq (hlist.allocated iter' hmem).2
      have hnext : s.memory.sllNext iter' = some 0 := by
        rw [SllMemory.sllNext, hnode, Option.map_some, hlist.linked.suffix.2.2]
      rw [SllMemory.sllRemove, hnext] at hremove
      cases hremove
  | cons tmp l₂ =>
      rw [List.length_append, List.length_cons, List.length_cons] at hlength
      omega

/-- A call keeps the list and the others. -/
theorem SllState.Holds.step {list : Nat} {s s' : SllState} {a : SllAction} (h : s.Holds list)
    (hstep : s.step list a = some s') : s'.Holds list ∧ s.KeepsOthers list s' := by
  cases a with
  | insert k data node =>
      obtain ⟨header, nodes, hlist⟩ := id h
      obtain ⟨hfree, hbind⟩ := Option.ite_none_right_eq_some.mp hstep
      obtain ⟨iter, hiter, -⟩ := Option.bind_eq_some_iff.mp hbind
      rw [hlist.iterAt_eq] at hiter
      have hlt := (List.getElem?_eq_some_iff.mp hiter).1
      rw [hlist.length_eq] at hlt
      obtain ⟨t, ht, hholds⟩ := h.insert (Nat.le_of_lt_succ hlt) data hfree
      obtain rfl := Option.some.inj (ht.symm.trans hstep)
      exact hholds
  | remove k =>
      obtain ⟨t, ht, hholds⟩ := h.remove (h.lt_of_remove hstep)
      obtain rfl := Option.some.inj (ht.symm.trans hstep)
      exact hholds

/-- A list that holds its content represents it. -/
theorem SllState.Holds.represents {list : Nat} {s : SllState} (h : s.Holds list) :
    s.Represents list where
  holds := h
  count := by
    obtain ⟨header, nodes, hnodes⟩ := h
    exact fun fuel hfuel => hnodes.count hfuel
  insert := by
    intro k data node hk hfree
    obtain ⟨s', hstep, -⟩ := h.insert hk data hfree
    rw [hstep]
    rfl
  remove := by
    intro k hk
    obtain ⟨s', hstep, -⟩ := h.remove hk
    rw [hstep]
    rfl

/-- After every sequence of insertions and removals at valid iterators the list is well formed,
and holds and counts what they should have left. -/
theorem sll_represents {list : Nat} {s : SllState} (h : (sllMachine list).Reached s) :
    s.Represents list := by
  have hholds : s.Holds list :=
    Machine.ReachedBy.invariant (I := fun s => s.Holds list) (fun s hstart => holds_start hstart)
      (fun s a s' hs _ hstep => (hs.step hstep).1) h
  exact hholds.represents

/-- An empty memory with a new list. -/
def newSll : SllState :=
  { memory := (SllMemory.sllCreate ⟨fun _ => none, fun _ => none⟩ (some 16) (some 32)).1,
    content := [] }

/-- The address of the dummy becomes that of an element, and is removed as such. -/
theorem sll_represents_newSll :
    ∃ s, (sllMachine 16).run newSll
        [.insert 0 5 48, .insert 0 6 64, .insert 2 7 80, .remove 1, .remove 1, .insert 1 8 48] =
      some s ∧ s.content = [6, 8] ∧ s.Represents 16 := by
  have hrun : (sllMachine 16).run newSll
      [.insert 0 5 48, .insert 0 6 64, .insert 2 7 80, .remove 1, .remove 1, .insert 1 8 48] =
    some _ := rfl
  exact ⟨_, hrun, rfl, sll_represents (Machine.Reached.run
    (.start ⟨⟨fun _ => none, fun _ => none⟩, 32, by decide, by decide, by decide, rfl, rfl⟩) hrun)⟩

end Ds
end InfinityLabs
