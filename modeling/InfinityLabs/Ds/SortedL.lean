import InfinityLabs.Ds.DllShape
import InfinityLabs.Ds.DllSplice
import InfinityLabs.Lib.Comparator
import InfinityLabs.Lib.MergeRuns
import InfinityLabs.Lib.Runs

/-!
# The sorted list

`ds/src/sortedl.c`: a doubly linked list whose elements are inserted before the first that is
not less.  An iterator is that of the doubly linked list.
-/

namespace InfinityLabs
namespace Ds

open Lib

/-- A `sortedl_t`. -/
structure SortedL where
  list : Nat
  cmp : Comparator Nat

/-- `SortedLCreate`, with whether there is memory for the sorted list, and with what `malloc`
returns for its list. -/
def sortedLCreate (m : DllMemory) (cmp : Comparator Nat) (sortedList : Bool)
    (list : Option Nat) : Option (DllMemory × Option SortedL) :=
  if sortedList = false then some (m, none)
  else
    (m.dllCreate list).map fun (m, list) =>
      (m, if list = 0 then none else some { list, cmp })

namespace SortedL

variable (t : SortedL)

/-- `IsNotLessThanInsertValue`. -/
def isNotLessThanInsertValue (data dataInList : Nat) : Int :=
  if 0 ≤ t.cmp.cmp dataInList data then 1 else 0

/-- `GetSortedPosition`. -/
def getSortedPosition (m : DllMemory) (fuel from_ to_ data : Nat) : Option Nat :=
  m.dllFind (t.isNotLessThanInsertValue data) fuel from_ to_

/-- `SortedLInsert`, with what `malloc` returns. -/
def sortedLInsert (m : DllMemory) (fuel : Nat) (node : Option Nat) (data : Nat) :
    Option (DllMemory × Nat) := do
  let begin_ ← m.dllBegin t.list
  let where_ ← t.getSortedPosition m fuel begin_ (DllMemory.dllEnd t.list) data
  m.dllInsert t.list where_ node data

/-- `SortedLRemove`. -/
def sortedLRemove (m : DllMemory) (toRemove : Nat) : Option (DllMemory × Nat) := do
  let afterIter ← m.dllNext toRemove
  let (m, _) ← m.dllRemove toRemove
  some (m, afterIter)

/-- `SortedLFind`. -/
def sortedLFind (m : DllMemory) (fuel from_ to_ target : Nat) : Option Nat := do
  let from_ ← t.getSortedPosition m fuel from_ to_ target
  if from_ = to_ then some to_
  else
    let data ← m.dllGetData from_
    if t.cmp.cmp target data = 0 then some from_ else some to_

/-- `SortedLPopFront`. -/
def sortedLPopFront (m : DllMemory) : Option (DllMemory × Nat) := m.dllPopFront t.list

/-- `SortedLPopBack`. -/
def sortedLPopBack (m : DllMemory) : Option (DllMemory × Nat) := m.dllPopBack t.list

/-! ## The operations on an ordered list -/

variable {t} {m : DllMemory} {nodes content : List Nat}

/-- The test of the position. -/
theorem isNotLessThanInsertValue_eq_zero {data dataInList : Nat} :
    t.isNotLessThanInsertValue data dataInList = 0 ↔ t.cmp.cmp dataInList data < 0 := by
  rw [isNotLessThanInsertValue]
  split
  · omega
  · omega

/-- The position splits a range of an ordered list into the elements below and the elements not
below. -/
theorem position {l₁ l₂ l₃ : List Nat} (h : m.IsDll t.list (l₁ ++ (l₂ ++ l₃)) content)
    (hordered : t.cmp.Ordered content) {fuel : Nat} (hfuel : l₂.length < fuel) (data : Nat) :
    ∃ before after, l₂ = before ++ after ∧
      (∀ address ∈ before, t.cmp.cmp (m.data address) data < 0) ∧
      (∀ address ∈ after, t.cmp.cmp data (m.data address) ≤ 0) ∧
      t.getSortedPosition m fuel ((l₂ ++ l₃).headD (dllTail t.list))
        (l₃.headD (dllTail t.list)) data = some ((after ++ l₃).headD (dllTail t.list)) := by
  obtain ⟨before, after, rfl, hbefore, hafter, hfind⟩ :=
    h.find (t.isNotLessThanInsertValue data) hfuel
  refine ⟨before, after, rfl, fun address hmem =>
    isNotLessThanInsertValue_eq_zero.mp (hbefore address hmem), ?_, hfind⟩
  cases after with
  | nil => exact fun address hmem => absurd hmem List.not_mem_nil
  | cons first after =>
      have hfirst : 0 ≤ t.cmp.cmp (m.data first) data := by
        have hne := hafter first rfl
        rw [ne_eq, isNotLessThanInsertValue_eq_zero] at hne
        exact Int.not_lt.mp hne
      have hrest : t.cmp.Ordered ((first :: after).map m.data) := by
        rw [← h.data_eq] at hordered
        refine hordered.sublist (List.Sublist.map _ ?_)
        rw [List.append_assoc, ← List.append_assoc]
        exact (List.sublist_append_left _ l₃).trans (List.sublist_append_right _ _)
      intro address hmem
      rw [List.map_cons] at hrest
      exact hrest.le_of_head hfirst _ (List.mem_map_of_mem hmem)

/-- `SortedLInsert` places the data before the first element that is not below them. -/
theorem insert_eq (h : m.IsDll t.list nodes content) (hordered : t.cmp.Ordered content)
    {node fuel : Nat} (hfree : m.IsFree node) (hfuel : content.length < fuel) (data : Nat) :
    ∃ m' nodes' content', t.sortedLInsert m fuel (some node) data = some (m', node) ∧
      m'.IsDll t.list nodes' content' ∧ t.cmp.PlacedFirst data content content' := by
  have hlength : nodes.length = content.length := by rw [← h.data_eq, List.length_map]
  have hlist : m.IsDll t.list ([] ++ (nodes ++ [])) content := by rwa [List.append_nil]
  obtain ⟨before, after, rfl, hbefore, hafter, hposition⟩ :=
    position hlist hordered (hlength ▸ hfuel) data
  rw [List.append_nil, List.append_nil, List.headD_nil] at hposition
  obtain ⟨m', hinsert, hlist'⟩ := h.insert hfree data
  refine ⟨m', _, _, ?_, hlist', before.map m.data, after.map m.data, ?_, rfl, ?_, ?_⟩
  · simp only [sortedLInsert, h.dllBegin_eq, DllMemory.dllEnd, hposition, hinsert,
      Option.bind_eq_bind, Option.bind_some]
  · rw [← h.data_eq, List.map_append]
  · exact List.forall_mem_map.mpr hbefore
  · exact List.forall_mem_map.mpr hafter

/-- `SortedLRemove` takes the element out, and returns the next iterator. -/
theorem remove_eq {node : Nat} {l₁ l₂ : List Nat}
    (h : m.IsDll t.list (l₁ ++ node :: l₂) content) :
    ∃ m', sortedLRemove m node = some (m', l₂.headD (dllTail t.list)) ∧
      m'.IsDll t.list (l₁ ++ l₂) (content.eraseIdx l₁.length) := by
  obtain ⟨m', hremove, hlist⟩ := h.remove
  have hcontent : content.eraseIdx l₁.length = l₁.map m.data ++ l₂.map m.data := by
    rw [← h.data_eq, List.map_append, List.map_cons, ← List.length_map (f := m.data),
      eraseIdx_split]
  rw [← hcontent] at hlist
  refine ⟨m', ?_, hlist⟩
  simp only [sortedLRemove, h.dllNext_eq, hremove, Option.bind_eq_bind, Option.bind_some]

/-- `SortedLFind` over a range returns the iterator of the first equal element, and the end of
the range where there is none. -/
theorem find_eq {i j from_ to_ fuel : Nat} (h : m.IsDll t.list nodes content)
    (hordered : t.cmp.Ordered content) (hij : i ≤ j)
    (hfrom : m.iterAt t.list i = some from_) (hto : m.iterAt t.list j = some to_)
    (hfuel : content.length < fuel) (target : Nat) :
    t.sortedLFind m fuel from_ to_ target = m.iterAt t.list
      (i + ((content.drop i).take (j - i)).findIdx fun data => t.cmp.cmp target data = 0) := by
  obtain ⟨l₁, l₂, l₃, rfl, rfl, rfl, hatFrom, hatTo⟩ :=
    h.exists_range_of_iterAt hij hfrom hto
  have hrange : (content.drop l₁.length).take (l₁.length + l₂.length - l₁.length) =
      l₂.map m.data := by
    rw [← h.data_eq, List.map_append, List.map_append, Nat.add_sub_cancel_left,
      List.drop_left' (List.length_map ..), List.take_left' (List.length_map ..)]
  rw [hrange]
  have hlength : l₂.length ≤ content.length := by
    rw [← h.data_eq, List.length_map, List.length_append, List.length_append]
    omega
  obtain ⟨before, after, rfl, hbefore, hafter, hposition⟩ :=
    position h hordered (Nat.lt_of_le_of_lt hlength hfuel) target
  rw [hatFrom, hatTo] at hposition
  have hnot : ∀ data ∈ before.map m.data, decide (t.cmp.cmp target data = 0) = false := by
    intro data hmem
    obtain ⟨address, haddress, rfl⟩ := List.mem_map.mp hmem
    have hlt := hbefore address haddress
    have hswap := t.cmp.swap (m.data address) target
    exact decide_eq_false (by omega)
  rw [List.map_append, List.findIdx_append,
    if_neg (by rw [List.findIdx_eq_length_of_false hnot]; exact Nat.lt_irrefl _)]
  cases after with
  | nil =>
      rw [List.nil_append, hatTo] at hposition
      have hend : m.IsDll t.list ((l₁ ++ before) ++ l₃) content := by simpa using h
      have hiter := hend.iterAt_split
      rw [List.length_append, hatTo] at hiter
      simp only [sortedLFind, hposition, Option.bind_eq_bind, Option.bind_some, if_true,
        List.map_nil, List.findIdx_nil, Nat.zero_add, List.length_map, hiter]
  | cons first after =>
      have hfirst : m.IsDll t.list ((l₁ ++ before) ++ (first :: after ++ l₃)) content := by
        simpa using h
      have hne : first ≠ to_ := by
        rw [← hatTo]
        exact hfirst.headD_ne.symm
      have hdata : m.dllGetData first = some (m.data first) := hfirst.getData
      rw [List.cons_append, List.headD_cons] at hposition
      simp only [sortedLFind, hposition, hdata, Option.bind_eq_bind, Option.bind_some, if_neg hne,
        List.map_cons, List.findIdx_cons, List.length_map]
      by_cases heq : t.cmp.cmp target (m.data first) = 0
      · have hiter := hfirst.iterAt_split
        rw [List.length_append] at hiter
        simp only [heq, if_true, decide_true, cond_true, Nat.zero_add, hiter]
        rfl
      · -- what follows is above the first element that is not below the target
        have hle := hafter first List.mem_cons_self
        have hlt : t.cmp.cmp target (m.data first) < 0 := by omega
        have hrest : t.cmp.Ordered (m.data first :: after.map m.data) := by
          rw [← hfirst.data_eq] at hordered
          simp only [List.map_append, List.map_cons] at hordered
          exact hordered.sublist
            ((List.sublist_append_left _ _).trans (List.sublist_append_right _ _))
        have hnot' : ∀ data ∈ after.map m.data, decide (t.cmp.cmp target data = 0) = false :=
          fun data hmem => decide_eq_false (Int.ne_of_lt (Comparator.lt_of_lt_of_le hlt
            (List.rel_of_pairwise_cons hrest hmem)))
        have hend : m.IsDll t.list ((l₁ ++ before ++ first :: after) ++ l₃) content := by
          simpa using h
        have hiter := hend.iterAt_split
        rw [List.length_append, List.length_append, List.length_cons, hatTo] at hiter
        rw [if_neg heq, List.findIdx_eq_length_of_false hnot', List.length_map,
          decide_eq_false heq, cond_false, Nat.add_comm _ before.length, ← Nat.add_assoc, hiter]

end SortedL

/-! ## The runs -/

/-- A sorted list in memory, with the elements that were inserted and those that were removed. -/
structure SortedState where
  memory : DllMemory
  inserted : List Nat
  removed : List Nat

/-- The calls that change a sorted list; `node` is what `malloc` returns, and every iterator of
an element is the `k`-th for some `k`. -/
inductive SortedAction where
  | insert (data node : Nat)
  | remove (k : Nat)
  | popFront
  | popBack
  deriving DecidableEq, Repr

/-- A call; no loop of it makes more passes than elements were inserted. -/
def SortedState.step (t : SortedL) (s : SortedState) : SortedAction → Option SortedState
  | .insert data node =>
      if s.memory.IsFree node then
        (t.sortedLInsert s.memory (s.inserted.length + 1) (some node) data).map
          fun (memory, _) => { s with memory, inserted := data :: s.inserted }
      else none
  | .remove k => do
      let iter ← s.memory.iterAt t.list k
      let data ← s.memory.dllGetData iter
      let (memory, _) ← SortedL.sortedLRemove s.memory iter
      some { s with memory, removed := data :: s.removed }
  | .popFront =>
      (t.sortedLPopFront s.memory).map fun (memory, data) =>
        { s with memory, removed := data :: s.removed }
  | .popBack =>
      (t.sortedLPopBack s.memory).map fun (memory, data) =>
        { s with memory, removed := data :: s.removed }

/-- The runs of a sorted list from `SortedLCreate` on. -/
def sortedLMachine (t : SortedL) : Machine SortedState SortedAction where
  start s := ∃ m : DllMemory, m.IsFree t.list ∧
    sortedLCreate m t.cmp true (some t.list) = some (s.memory, some t) ∧
    s.inserted = [] ∧ s.removed = []
  step := SortedState.step t

/-- The list holds the content. -/
def SortedState.Holds (t : SortedL) (s : SortedState) (content : List Nat) : Prop :=
  ∃ nodes, s.memory.IsDll t.list nodes content

/-- The list is in order and holds what was inserted and not removed.  An insertion places its
element before those that are not below it, the removals take out their element, and a search
over a range returns the first equal element, or else the end of the range. -/
structure SortedState.IsSorted (t : SortedL) (s : SortedState) (content : List Nat) : Prop where
  holds : s.Holds t content
  ordered : t.cmp.Ordered content
  perm : (content ++ s.removed).Perm s.inserted
  insert : ∀ data node, s.memory.IsFree node → ∃ s' content',
    s.step t (.insert data node) = some s' ∧ s'.Holds t content' ∧
      t.cmp.PlacedFirst data content content'
  remove : ∀ k, k < content.length → ∃ s', s.step t (.remove k) = some s' ∧
    s'.Holds t (content.eraseIdx k)
  popFront : content ≠ [] → ∃ s', s.step t .popFront = some s' ∧ s'.Holds t content.tail
  popBack : content ≠ [] → ∃ s', s.step t .popBack = some s' ∧ s'.Holds t content.dropLast
  find : ∀ i j from_ to_ target fuel, i ≤ j → s.memory.iterAt t.list i = some from_ →
    s.memory.iterAt t.list j = some to_ → content.length < fuel →
    t.sortedLFind s.memory fuel from_ to_ target = s.memory.iterAt t.list
      (i + ((content.drop i).take (j - i)).findIdx fun data => t.cmp.cmp target data = 0)

/-- The list is in order and holds what was inserted and not removed. -/
def SortedState.Invariant (t : SortedL) (s : SortedState) : Prop :=
  ∃ content, s.Holds t content ∧ t.cmp.Ordered content ∧ (content ++ s.removed).Perm s.inserted

/-! ### What a call does -/

variable {t : SortedL} {s s' : SortedState} {content : List Nat}

/-- An element has been taken out of the list. -/
structure SortedState.Takes (t : SortedL) (s s' : SortedState) (c₁ : List Nat) (data : Nat)
    (c₂ : List Nat) : Prop where
  holds : s'.Holds t (c₁ ++ c₂)
  removed : s'.removed = data :: s.removed
  inserted : s'.inserted = s.inserted

/-- The content is the data of the nodes. -/
theorem exists_nodes_split {m : DllMemory} {list : Nat} {nodes c₁ c₂ : List Nat} {data : Nat}
    (h : m.IsDll list nodes (c₁ ++ data :: c₂)) :
    ∃ l₁ node l₂, nodes = l₁ ++ node :: l₂ ∧ l₁.map m.data = c₁ ∧ m.data node = data ∧
      l₂.map m.data = c₂ := by
  obtain ⟨l₁, rest, rfl, hl₁, hrest⟩ := List.map_eq_append_iff.mp h.data_eq
  obtain ⟨node, l₂, rfl, hnode, hl₂⟩ := List.map_eq_cons_iff.mp hrest
  exact ⟨l₁, node, l₂, rfl, hl₁, hnode, hl₂⟩

theorem SortedState.Holds.insert (h : s.Holds t content) (hordered : t.cmp.Ordered content)
    (hlength : content.length ≤ s.inserted.length) {data node : Nat}
    (hfree : s.memory.IsFree node) :
    ∃ s' content', s.step t (.insert data node) = some s' ∧ s'.Holds t content' ∧
      t.cmp.PlacedFirst data content content' ∧ s'.inserted = data :: s.inserted ∧
      s'.removed = s.removed := by
  obtain ⟨nodes, hlist⟩ := h
  obtain ⟨memory, nodes', content', hinsert, hlist', hplaced⟩ :=
    SortedL.insert_eq hlist hordered hfree (Nat.lt_succ_of_le hlength) data
  refine ⟨{ s with memory, inserted := data :: s.inserted }, content', ?_, ⟨nodes', hlist'⟩,
    hplaced, rfl, rfl⟩
  rw [SortedState.step, if_pos hfree, hinsert, Option.map_some]

theorem SortedState.Holds.remove {c₁ c₂ : List Nat} {data : Nat}
    (h : s.Holds t (c₁ ++ data :: c₂)) :
    ∃ s', s.step t (.remove c₁.length) = some s' ∧ s.Takes t s' c₁ data c₂ := by
  obtain ⟨nodes, hlist⟩ := h
  obtain ⟨l₁, node, l₂, rfl, rfl, rfl, rfl⟩ := exists_nodes_split hlist
  obtain ⟨memory, hremove, hlist'⟩ := SortedL.remove_eq hlist
  rw [← List.length_map (f := s.memory.data), eraseIdx_split] at hlist'
  refine ⟨{ s with memory, removed := s.memory.data node :: s.removed }, ?_, ⟨_, hlist'⟩, rfl, rfl⟩
  simp only [SortedState.step, List.length_map, hlist.iterAt_split, List.headD_cons,
    hlist.getData, hremove, Option.bind_eq_bind, Option.bind_some]

/-- At the end there is nothing to remove. -/
theorem SortedState.Holds.remove_end (h : s.Holds t content) {k : Nat}
    (hk : content.length ≤ k) : s.step t (.remove k) = none := by
  obtain ⟨nodes, hlist⟩ := h
  have hlength : nodes.length = content.length := by rw [← hlist.data_eq, List.length_map]
  have hiter := hlist.iterAt_eq k
  rw [List.getElem?_append_right (by omega)] at hiter
  rcases Nat.eq_zero_or_pos (k - nodes.length) with hzero | hpos
  · rw [hzero, List.getElem?_cons_zero] at hiter
    simp only [SortedState.step, hiter, hlist.getData_tail, Option.bind_eq_bind,
      Option.bind_some, Option.bind_none]
  · rw [List.getElem?_eq_none hpos] at hiter
    simp only [SortedState.step, hiter, Option.bind_eq_bind, Option.bind_none]

theorem SortedState.Holds.popFront {data : Nat} (h : s.Holds t (data :: content)) :
    ∃ s', s.step t .popFront = some s' ∧ s.Takes t s' [] data content := by
  obtain ⟨nodes, hlist⟩ := h
  obtain ⟨node, nodes, rfl, rfl, rfl⟩ := List.map_eq_cons_iff.mp hlist.data_eq
  obtain ⟨memory, hpop, hlist'⟩ := hlist.popFront
  refine ⟨{ s with memory, removed := s.memory.data node :: s.removed }, ?_, ⟨_, hlist'⟩, rfl, rfl⟩
  rw [SortedState.step, SortedL.sortedLPopFront, hpop, Option.map_some]

theorem SortedState.Holds.popBack {data : Nat} (h : s.Holds t (content ++ [data])) :
    ∃ s', s.step t .popBack = some s' ∧ s.Takes t s' content data [] := by
  obtain ⟨nodes, hlist⟩ := h
  obtain ⟨l₁, node, l₂, rfl, rfl, rfl, hl₂⟩ := exists_nodes_split hlist
  obtain rfl := List.map_eq_nil_iff.mp hl₂
  obtain ⟨memory, hpop, hlist'⟩ := hlist.popBack
  rw [← List.append_nil (l₁.map s.memory.data)] at hlist'
  refine ⟨{ s with memory, removed := s.memory.data node :: s.removed }, ?_, ⟨_, hlist'⟩, rfl, rfl⟩
  rw [SortedState.step, SortedL.sortedLPopBack, hpop, Option.map_some]

/-! ### The invariant -/

/-- The elements of the list are no more than were inserted. -/
theorem length_le_inserted (hperm : (content ++ s.removed).Perm s.inserted) :
    content.length ≤ s.inserted.length := by
  rw [← hperm.length_eq, List.length_append]
  exact Nat.le_add_right _ _

/-- Taking an element out keeps the invariant. -/
theorem SortedState.Takes.invariant {c₁ c₂ : List Nat} {data : Nat} (h : s.Takes t s' c₁ data c₂)
    (hordered : t.cmp.Ordered (c₁ ++ data :: c₂))
    (hperm : (c₁ ++ data :: c₂ ++ s.removed).Perm s.inserted) : s'.Invariant t := by
  refine ⟨c₁ ++ c₂, h.holds, hordered.sublist ?_, ?_⟩
  · exact List.Sublist.append_left (List.sublist_cons_self data c₂) c₁
  · rw [h.removed, h.inserted]
    refine List.perm_middle.trans (List.Perm.trans ?_ hperm)
    rw [← List.cons_append]
    exact List.perm_middle.symm.append_right _

/-- A call keeps the invariant. -/
theorem SortedState.Invariant.step {a : SortedAction} (h : s.Invariant t)
    (hstep : s.step t a = some s') : s'.Invariant t := by
  obtain ⟨content, hholds, hordered, hperm⟩ := h
  cases a with
  | insert data node =>
      obtain ⟨hfree, -⟩ := Option.ite_none_right_eq_some.mp hstep
      obtain ⟨r, content', hr, hholds', hplaced, hinserted, hremoved⟩ :=
        hholds.insert hordered (length_le_inserted hperm) hfree
      obtain rfl := Option.some.inj (hr.symm.trans hstep)
      refine ⟨content', hholds', hplaced.ordered hordered, ?_⟩
      rw [hinserted, hremoved]
      exact (hplaced.perm.append_right _).trans (hperm.cons data)
  | remove k =>
      by_cases hk : k < content.length
      case pos =>
        obtain ⟨c₁, data, c₂, rfl, rfl⟩ := exists_append_cons_of_lt hk
        obtain ⟨r, hr, htakes⟩ := hholds.remove
        obtain rfl := Option.some.inj (hr.symm.trans hstep)
        exact htakes.invariant hordered hperm
      case neg =>
        rw [hholds.remove_end (Nat.le_of_not_lt hk)] at hstep
        cases hstep
  | popFront =>
      cases content with
      | nil =>
          obtain ⟨nodes, hlist⟩ := hholds
          obtain rfl := List.map_eq_nil_iff.mp hlist.data_eq
          rw [SortedState.step, SortedL.sortedLPopFront, hlist.pop_nil.1] at hstep
          cases hstep
      | cons data content =>
          obtain ⟨r, hr, htakes⟩ := hholds.popFront
          obtain rfl := Option.some.inj (hr.symm.trans hstep)
          exact htakes.invariant hordered hperm
  | popBack =>
      rcases List.eq_nil_or_concat content with rfl | ⟨content, data, rfl⟩
      · obtain ⟨nodes, hlist⟩ := hholds
        obtain rfl := List.map_eq_nil_iff.mp hlist.data_eq
        rw [SortedState.step, SortedL.sortedLPopBack, hlist.pop_nil.2] at hstep
        cases hstep
      · rw [List.concat_eq_append] at hholds hordered hperm
        obtain ⟨r, hr, htakes⟩ := hholds.popBack
        obtain rfl := Option.some.inj (hr.symm.trans hstep)
        exact htakes.invariant hordered hperm

/-- The invariant holds in every run. -/
theorem sortedLMachine_invariant (h : (sortedLMachine t).Reached s) : s.Invariant t := by
  refine Machine.ReachedBy.invariant (I := fun s => s.Invariant t) ?_ ?_ h
  · rintro s ⟨m, hfree, hcreate, hinserted, hremoved⟩
    obtain ⟨m', hdll, hlist⟩ := DllMemory.isDll_dllCreate hfree
    simp only [sortedLCreate, Bool.true_eq_false, if_false, hdll, Option.map_some,
      Option.some.injEq, Prod.mk.injEq] at hcreate
    refine ⟨[], ⟨[], hcreate.1 ▸ hlist⟩, List.Pairwise.nil, ?_⟩
    rw [hinserted, hremoved]
    exact List.Perm.refl []
  · exact fun s a s' hs _ hstep => hs.step hstep

/-- What the calls do from a state that meets the invariant. -/
theorem SortedState.Invariant.isSorted (h : s.Invariant t) : ∃ content, s.IsSorted t content := by
  obtain ⟨content, hholds, hordered, hperm⟩ := h
  refine ⟨content, hholds, hordered, hperm, ?_, ?_, ?_, ?_, ?_⟩
  · intro data node hfree
    obtain ⟨s', content', hstep, hholds', hplaced, -⟩ :=
      hholds.insert hordered (length_le_inserted hperm) hfree
    exact ⟨s', content', hstep, hholds', hplaced⟩
  · intro k hk
    obtain ⟨c₁, data, c₂, rfl, rfl⟩ := exists_append_cons_of_lt hk
    obtain ⟨s', hstep, htakes⟩ := hholds.remove
    rw [eraseIdx_split]
    exact ⟨s', hstep, htakes.holds⟩
  · intro hne
    obtain ⟨data, rest, rfl⟩ := List.exists_cons_of_ne_nil hne
    obtain ⟨s', hstep, htakes⟩ := hholds.popFront
    exact ⟨s', hstep, htakes.holds⟩
  · intro hne
    obtain ⟨rest, data, rfl⟩ := (List.eq_nil_or_concat content).resolve_left hne
    rw [List.concat_eq_append] at hholds ⊢
    obtain ⟨s', hstep, htakes⟩ := hholds.popBack
    rw [List.dropLast_concat]
    exact ⟨s', hstep, List.append_nil rest ▸ htakes.holds⟩
  · intro i j from_ to_ target fuel hij hfrom hto hfuel
    obtain ⟨nodes, hlist⟩ := hholds
    exact SortedL.find_eq hlist hordered hij hfrom hto hfuel target

/-- After every sequence of insertions and removals the list is in order and holds what was
inserted and not removed, whatever the comparator. -/
theorem sortedL_isSorted {t : SortedL} {s : SortedState} (h : (sortedLMachine t).Reached s) :
    ∃ content, s.IsSorted t content :=
  (sortedLMachine_invariant h).isSorted

/-- Numbers in the order of their tens. -/
def byTens : SortedL :=
  { list := 16
    cmp :=
      { cmp := fun a b => (a / 10 : Nat) - (b / 10 : Nat)
        swap := by intro a b; omega
        trans := by intro a b c; omega } }

/-- An empty memory with a new list. -/
def newSortedL : SortedState :=
  { memory := (((DllMemory.mk fun _ => none).dllCreate (some 16)).map Prod.fst).getD ⟨fun _ => none⟩
    inserted := []
    removed := [] }

/-- 21 comes before its equal 20, and 12 before 15. -/
theorem sortedL_isSorted_byTens :
    ∃ s, (sortedLMachine byTens).run newSortedL
        [.insert 20 100, .insert 15 200, .insert 21 300, .insert 30 400, .insert 12 500,
          .remove 2, .popBack] = some s ∧ s.removed = [30, 21] ∧
      ∃ content, s.IsSorted byTens content := by
  have hrun : (sortedLMachine byTens).run newSortedL
      [.insert 20 100, .insert 15 200, .insert 21 300, .insert 30 400, .insert 12 500,
        .remove 2, .popBack] = some _ := rfl
  refine ⟨_, hrun, rfl, sortedL_isSorted (Machine.Reached.run (.start ?_) hrun)⟩
  exact ⟨⟨fun _ => none⟩, by decide, rfl, rfl, rfl⟩

/-!
## Merges of sorted lists

`SortedLMerge` splices the nodes of one list into another one by one.  Its iterator of `dest` only
advances, past the elements below the next one of `src`.
-/

namespace SortedL

variable (t : SortedL)

/-- `SortedLBegin`. -/
def sortedLBegin (m : DllMemory) : Option Nat := m.dllBegin t.list

/-- `SortedLEnd`. -/
def sortedLEnd : Nat := DllMemory.dllEnd t.list

/-- The inner loop of `SortedLMerge`; `fuel` bounds its passes. -/
def mergeAdvance (m : DllMemory) (s endD : Nat) : Nat → Nat → Option Nat
  | 0, _ => none
  | fuel + 1, d =>
      if d = endD then some d
      else do
        let dataD ← m.dllGetData d
        let dataS ← m.dllGetData s
        if t.cmp.cmp dataD dataS < 0 then
          let d ← m.dllNext d
          mergeAdvance m s endD fuel d
        else some d

/-- The loop of `SortedLMerge`, with a bound for its inner loop and one for itself. -/
def mergeLoop (endD endS inner : Nat) : Nat → DllMemory → Nat → Nat → Option DllMemory
  | 0, _, _, _ => none
  | fuel + 1, m, d, s =>
      if s = endS then some m
      else do
        let d ← t.mergeAdvance m s endD inner d
        -- `d` stays where it is: the element comes before it
        let nextS ← m.dllNext s
        let (m, _) ← m.dllSplice d s nextS
        mergeLoop endD endS inner fuel m d nextS

/-- `SortedLMerge`, of lists with one comparator. -/
def sortedLMerge (dest src : SortedL) (m : DllMemory) (fuel : Nat) : Option DllMemory := do
  let d ← dest.sortedLBegin m
  let s ← src.sortedLBegin m
  dest.mergeLoop dest.sortedLEnd src.sortedLEnd fuel fuel m d s

/-! ## The loops -/

variable {t} {m : DllMemory} {before after content : List Nat}

/-- The inner loop stops at the first element that is not below the one of `src`. -/
theorem mergeAdvance_eq (h : m.IsDll t.list (before ++ after) content) {s x fuel : Nat}
    (hdata : m.dllGetData s = some x) (hordered : t.cmp.Ordered (after.map m.data))
    (hfuel : after.length < fuel) :
    ∃ low high, after = low ++ high ∧ (∀ address ∈ low, t.cmp.cmp (m.data address) x < 0) ∧
      (∀ address ∈ high, t.cmp.cmp x (m.data address) ≤ 0) ∧
      t.mergeAdvance m s (dllTail t.list) fuel (after.headD (dllTail t.list)) =
        some (high.headD (dllTail t.list)) := by
  induction after generalizing before fuel with
  | nil =>
      obtain ⟨fuel, rfl⟩ : ∃ n, fuel = n + 1 := ⟨fuel - 1, by omega⟩
      refine ⟨[], [], rfl, by simp, by simp, ?_⟩
      rw [mergeAdvance, List.headD_nil, if_pos rfl]
  | cons node after ih =>
      obtain ⟨fuel, rfl⟩ : ∃ n, fuel = n + 1 := ⟨fuel - 1, by omega⟩
      rw [List.length_cons, Nat.add_lt_add_iff_right] at hfuel
      have hplace : m.IsDll t.list (before ++ (node :: after ++ [])) content := by
        rwa [List.append_nil]
      have hne : node ≠ dllTail t.list := hplace.headD_ne.symm
      have hrest : m.IsDll t.list ((before ++ [node]) ++ after) content := by
        rwa [List.append_assoc, List.singleton_append]
      by_cases hlt : t.cmp.cmp (m.data node) x < 0
      case pos =>
        obtain ⟨low, high, rfl, hlow, hhigh, hloop⟩ :=
          ih hrest (List.Pairwise.of_cons hordered) hfuel
        refine ⟨node :: low, high, rfl, List.forall_mem_cons.mpr ⟨hlt, hlow⟩, hhigh, ?_⟩
        simp only [mergeAdvance, List.headD_cons, if_neg hne, h.getData, hdata, h.dllNext_eq, hloop,
          Option.bind_eq_bind, Option.bind_some, if_pos hlt]
      case neg =>
        have hall := hordered.le_of_head (Int.not_lt.mp hlt)
        refine ⟨[], node :: after, rfl, by simp, fun address hmem => ?_, ?_⟩
        · exact hall _ (List.mem_map_of_mem hmem)
        · simp only [mergeAdvance, List.headD_cons, if_neg hne, h.getData, hdata,
            Option.bind_eq_bind, Option.bind_some, if_neg hlt]

/-- The loop merges what is behind its iterators. -/
theorem mergeLoop_eq {src inner fuel : Nat} {nodes content' : List Nat}
    (hdest : m.IsDll t.list (before ++ after) content) (hsrc : m.IsDll src nodes content')
    (hne : t.list ≠ src) (hordered : t.cmp.Ordered (after.map m.data))
    (horderedSrc : t.cmp.Ordered (nodes.map m.data)) (hinner : after.length < inner)
    (hfuel : nodes.length < fuel) :
    ∃ m' nodes' merged, t.mergeLoop (dllTail t.list) (dllTail src) inner fuel m
        (after.headD (dllTail t.list)) (nodes.headD (dllTail src)) = some m' ∧
      MergedFirst t.cmp (after.map m.data) (nodes.map m.data) merged ∧
      m'.IsDll t.list nodes' (before.map m.data ++ merged) ∧ m'.IsDll src [] [] := by
  induction nodes generalizing m before after content content' fuel with
  | nil =>
      obtain ⟨fuel, rfl⟩ : ∃ n, fuel = n + 1 := ⟨fuel - 1, by omega⟩
      obtain rfl : [] = content' := hsrc.data_eq
      refine ⟨m, before ++ after, after.map m.data, ?_, .of_nil hordered, ?_, hsrc⟩
      · rw [mergeLoop, List.headD_nil, if_pos rfl]
      · rwa [← List.map_append, hdest.data_eq]
  | cons s nodes ih =>
      obtain ⟨fuel, rfl⟩ : ∃ n, fuel = n + 1 := ⟨fuel - 1, by omega⟩
      rw [List.length_cons, Nat.add_lt_add_iff_right] at hfuel
      have hfirst : m.IsDll src ([] ++ (s :: nodes ++ [])) content' := by rwa [List.append_nil]
      have hnotEnd : s ≠ dllTail src := hfirst.headD_ne.symm
      have hhead : m.IsDll src ([] ++ s :: nodes) content' := hsrc
      obtain ⟨low, high, rfl, hlow, hhigh, hadvance⟩ :=
        mergeAdvance_eq hdest hhead.getData hordered hinner
      have hsplit : m.IsDll t.list ((before ++ low) ++ high) content := by
        rwa [List.append_assoc]
      have hrange : m.IsDll src ([] ++ ([s] ++ nodes)) content' := hsrc
      obtain ⟨m₁, hsplice, hdest₁, hsrc₁, honly⟩ :=
        hsplit.splice_other hrange hne (List.cons_ne_nil s [])
      rw [List.map_append] at hordered
      have hdest₂ : m₁.IsDll t.list ((before ++ low ++ [s]) ++ high)
          ((before ++ low ++ [s] ++ high).map m.data) := by
        rwa [← List.append_assoc] at hdest₁
      rw [List.length_append] at hinner
      obtain ⟨m', nodes', merged, hloop, hmerged, hdest', hsrc'⟩ :=
        ih hdest₂ hsrc₁ (honly.data_eq ▸ (List.pairwise_append.mp hordered).2.1)
          (honly.data_eq ▸ List.Pairwise.of_cons horderedSrc) (by omega) hfuel
      rw [honly.data_eq] at hmerged hdest'
      refine ⟨m', nodes', low.map m.data ++ m.data s :: merged, ?_, ?_, ?_, hsrc'⟩
      · have hsplice' : m.dllSplice (high.headD (dllTail t.list)) s (nodes.headD (dllTail src)) =
            some (m₁, high.headD (dllTail t.list)) := hsplice
        simp only [mergeLoop, List.headD_cons, if_neg hnotEnd, hadvance, hhead.dllNext_eq, hsplice',
          Option.bind_eq_bind, Option.bind_some]
        exact hloop
      · rw [List.map_append]
        exact hmerged.cons (List.pairwise_append.mp hordered).1 horderedSrc
          (List.forall_mem_map.mpr hlow) (List.forall_mem_map.mpr hhigh)
      · simpa using hdest'

end SortedL

/-- `SortedLMerge` merges two sorted lists with one comparator: each keeps its order, and the
elements of `src` come before their equals.  `src` is empty, and may be used again. -/
theorem sortedL_merges {m : DllMemory} {dest src : SortedL} {dn dc sn sc : List Nat} {fuel : Nat}
    (hdest : m.IsDll dest.list dn dc) (hsrc : m.IsDll src.list sn sc)
    (hne : dest.list ≠ src.list) (hcmp : src.cmp = dest.cmp) (hordered : dest.cmp.Ordered dc)
    (horderedSrc : src.cmp.Ordered sc) (hfuel : dc.length + sc.length < fuel) :
    ∃ m' nodes merged, SortedL.sortedLMerge dest src m fuel = some m' ∧
      dest.cmp.Ordered merged ∧ MergedFirst dest.cmp dc sc merged ∧
      m'.IsDll dest.list nodes merged ∧ m'.IsDll src.list [] [] := by
  obtain rfl := hdest.data_eq
  obtain rfl := hsrc.data_eq
  rw [List.length_map, List.length_map] at hfuel
  have hbefore : m.IsDll dest.list ([] ++ dn) (dn.map m.data) := hdest
  have hinner : dn.length < fuel := by omega
  have houter : sn.length < fuel := by omega
  obtain ⟨m', nodes, merged, hloop, hmerged, hdest', hsrc'⟩ :=
    SortedL.mergeLoop_eq hbefore hsrc hne hordered (hcmp ▸ horderedSrc) hinner houter
  refine ⟨m', nodes, merged, ?_, hmerged.ordered, hmerged, hdest', hsrc'⟩
  simp only [SortedL.sortedLMerge, SortedL.sortedLBegin, SortedL.sortedLEnd, DllMemory.dllEnd,
    hdest.dllBegin_eq, hsrc.dllBegin_eq, hloop, Option.bind_eq_bind, Option.bind_some]

/-- In the order of their tens all elements are equal, so those of `src` come first. -/
theorem sortedL_merges_twoLists :
    ∃ m' nodes merged,
      SortedL.sortedLMerge byTens { byTens with list := 64 } DllMemory.twoLists 6 = some m' ∧
      byTens.cmp.Ordered merged ∧ MergedFirst byTens.cmp [1, 2] [3, 4, 5] merged ∧
      m'.IsDll 16 nodes merged ∧ m'.IsDll 64 [] [] :=
  sortedL_merges DllMemory.isDll_twoLists_dest DllMemory.isDll_twoLists_src (by decide) rfl
    (by simp [Comparator.Ordered, byTens]) (by simp [Comparator.Ordered, byTens]) (by decide)

end Ds
end InfinityLabs
