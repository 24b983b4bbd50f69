import InfinityLabs.Ds.SllRuns

/-!
# Appending one list to another

`SLLAppend` of `ds/src/sll.c`, and `QueueAppend` of `ds/src/queue.c` over it.  Two lists
that are not empty share the dummy of the source afterwards, which still refers to the source;
an empty destination is not written, and the source is returned in its place.  Only an empty
source is appended as it should be.
-/

namespace InfinityLabs
namespace Ds

open Lib

/-! ## The property -/

/-- Every sequence of calls on the list leaves the other list as it is, and both represent
their contents. -/
def SllMemory.IndependentOf (m : SllMemory) (list other : Nat) (content others : List Nat) :
    Prop :=
  ∀ labels s, (sllMachine list).run ⟨m, content⟩ labels = some s →
    s.Represents list ∧ SllState.Represents other ⟨s.memory, others⟩

/-- The destination has the content, the source is empty, and each is independent of the
other. -/
structure SllMemory.Transfers (m : SllMemory) (src dst : Nat) (content : List Nat) : Prop where
  dst_independent : m.IndependentOf dst src content []
  src_independent : m.IndependentOf src dst [] content

/-- Both lists represent their contents at once. -/
theorem SllMemory.Transfers.represents {m : SllMemory} {src dst : Nat} {content : List Nat}
    (h : m.Transfers src dst content) :
    SllState.Represents src ⟨m, []⟩ ∧ SllState.Represents dst ⟨m, content⟩ :=
  h.src_independent [] _ rfl

/-- Two lists at different addresses are independent. -/
theorem independentOf {m : SllMemory} {list other : Nat} {content others : List Nat}
    (hne : other ≠ list) (hlist : SllState.Holds list ⟨m, content⟩)
    (hother : SllState.Holds other ⟨m, others⟩) :
    m.IndependentOf list other content others := by
  intro labels s hrun
  obtain ⟨header, nodes, hnodes⟩ := hother
  have hinv : s.Holds list ∧ s.memory.IsList other header nodes others := by
    refine Machine.run_invariant
      (I := fun t => t.Holds list ∧ t.memory.IsList other header nodes others) ?_ ⟨hlist, hnodes⟩
      (Machine.admits_of_run hrun) hrun
    intro t a t' _ _ ht hstep
    obtain ⟨hholds, hkeeps⟩ := ht.1.step hstep
    exact ⟨hholds, hkeeps other header nodes others hne ht.2⟩
  exact ⟨hinv.1.represents, SllState.Holds.represents ⟨header, nodes, hinv.2⟩⟩

/-! ## The call -/

namespace SllMemory

/-- A list has one content. -/
theorem IsList.content_unique {m : SllMemory} {list : Nat} {header : SllHeader}
    {nodes content other : List Nat} (h : m.IsList list header nodes content)
    (hother : SllState.Holds list ⟨m, other⟩) : content = other := by
  obtain ⟨header', nodes', h'⟩ := hother
  obtain rfl := Option.some.inj (h.header_eq.symm.trans h'.header_eq)
  obtain rfl := h.linked.unique h'.linked
  exact (List.append_inj' (h.data_eq.symm.trans h'.data_eq) rfl).1

/-- Appending an empty list changes nothing. -/
theorem IsList.append_nil {m : SllMemory} {src : Nat} {header : SllHeader} {nodes : List Nat}
    (h : m.IsList src header nodes []) (dst : Nat) : m.sllAppend src dst = some (m, dst) := by
  simp only [sllAppend, h.isEmpty]
  rfl

/-- Appending to an empty list returns the source. -/
theorem IsList.append_of_nil {m : SllMemory} {src dst : Nat} {header header' : SllHeader}
    {nodes nodes' content : List Nat} (hsrc : m.IsList src header nodes content)
    (hcontent : content ≠ []) (hne : src ≠ dst) (hdst : m.IsList dst header' nodes' []) :
    m.sllAppend src dst = some (m, src) := by
  simp only [sllAppend, hsrc.isEmpty, hdst.isEmpty, beq_eq_false_iff_ne.mpr hcontent]
  simp [hne]

/-- Appending a list to another, both with elements, makes the tail of the source, which refers
to the source, the tail of the destination. -/
theorem IsList.append_cons {m : SllMemory} {src dst : Nat} {header header' : SllHeader}
    {nodes nodes' content content' : List Nat} (hsrc : m.IsList src header nodes content)
    (hcontent : content ≠ []) (hne : src ≠ dst)
    (hdst : m.IsList dst header' nodes' content') (hcontent' : content' ≠ []) :
    ∃ m', m.sllAppend src dst = some (m', dst) ∧
      m'.list? dst = some { header' with tail := header.tail } ∧ m'.data header.tail = src := by
  have hdisjoint := hsrc.disjoint hdst hne
  have htailMem : header.tail ∈ nodes := List.mem_of_getLast? hsrc.tail_eq
  have htailMem' : header'.tail ∈ nodes' := List.mem_of_getLast? hdst.tail_eq
  have hsrcTail : header.tail ≠ header'.tail := fun heq =>
    hdisjoint header.tail htailMem (heq ▸ htailMem')
  -- the first node of the source is not its tail
  obtain ⟨elements, rfl, hdata⟩ := hsrc.exists_concat
  obtain ⟨first, elements, rfl⟩ : ∃ first rest, elements = first :: rest := by
    cases elements with
    | nil => exact absurd hdata.symm hcontent
    | cons first rest => exact ⟨first, rest, rfl⟩
  obtain ⟨hhead, hfirstNe, hrest⟩ := id hsrc.linked
  have hnextNe : m.next first ≠ 0 := by
    intro hzero
    rw [hzero] at hrest
    exact List.append_ne_nil_of_right_ne_nil elements (List.cons_ne_nil _ _) hrest.eq_nil
  have hfirstMem : first ∈ first :: elements ++ [header.tail] := List.mem_cons_self
  have hfirst : first ≠ header'.tail := fun heq => hdisjoint first hfirstMem (heq ▸ htailMem')
  have htailFirst : header.tail ≠ first := by
    have hnodup := hsrc.linked.nodup
    rw [List.cons_append, List.nodup_cons] at hnodup
    exact fun heq => hnodup.1 (heq ▸ List.mem_append_right _ List.mem_cons_self)
  -- the end of the destination takes the first node of the source, which is freed
  obtain ⟨linked, hlinked⟩ : ∃ linked, linked =
    m.setNode header'.tail { data := m.data header'.tail, next := first } := ⟨_, rfl⟩
  have hlinkedNext : linked.sllNext header'.tail = some first := by
    rw [sllNext, hlinked, setNode_node?_self]
    rfl
  have hlinkedFirst : linked.node? first = some { data := m.data first, next := m.next first } := by
    rw [hlinked, setNode_node?_of_ne _ hfirst]
    exact node?_eq (hsrc.allocated first hfirstMem).2
  have hremove := sllRemove_of_next hlinkedNext hfirstNe hlinkedFirst
  rw [if_neg hnextNe] at hremove
  obtain ⟨written, hwritten⟩ : ∃ written, written = (linked.setNode header'.tail
    { data := m.data first, next := m.next first }).freeNode first := ⟨_, rfl⟩
  rw [← hwritten, hlinked] at hremove
  have hlists : written.list? = m.list? := by rw [hwritten, hlinked]; rfl
  have hsrcList : (written.setList dst { header' with tail := header.tail }).list? src =
      some header := by
    rw [setList_list?_of_ne _ hne, hlists, hsrc.header_eq]
  have htail : written.node? header.tail = m.node? header.tail := by
    rw [hwritten, hlinked, freeNode_node?_of_ne _ htailFirst, setNode_node?_of_ne _ hsrcTail,
      setNode_node?_of_ne _ hsrcTail]
  refine ⟨(written.setList dst { header' with tail := header.tail }).setList src
    { header with head := header.tail }, ?_, ?_, ?_⟩
  · simp only [sllAppend, hsrc.isEmpty, hdst.isEmpty, beq_eq_false_iff_ne.mpr hcontent,
      beq_eq_false_iff_ne.mpr hcontent', sllEnd, sllBegin, hsrc.header_eq, hdst.header_eq,
      Option.map_some, node?_eq (hdst.allocated _ htailMem').2, hhead, Option.bind_eq_bind,
      Option.bind_some, Bool.false_eq_true, hne, or_false, if_false, hremove, hlists, setTail,
      setHead, hsrcList]
  · rw [setList_list?_of_ne _ hne.symm, setList_list?_self]
  · exact (data_congr htail).trans (hsrc.data_last hsrc.tail_eq)

end SllMemory

/-! ## What the call transfers -/

/-- The call returns, and transfers the content where the source is empty only. -/
theorem sllAppend_transfers_iff {m : SllMemory} {src dst : Nat} {content content' : List Nat}
    (hne : src ≠ dst) (hsrc : SllState.Holds src ⟨m, content⟩)
    (hdst : SllState.Holds dst ⟨m, content'⟩) :
    ∃ m' list, m.sllAppend src dst = some (m', list) ∧
      (list = dst ∨ list = src ∧ m' = m ∧ content ≠ []) ∧
      (m'.Transfers src dst (content' ++ content) ↔ content = []) := by
  obtain ⟨header, nodes, hnodes⟩ := id hsrc
  obtain ⟨header', nodes', hnodes'⟩ := id hdst
  by_cases hcontent : content = []
  · subst hcontent
    refine ⟨m, dst, hnodes.append_nil dst, Or.inl rfl, iff_of_true ?_ rfl⟩
    rw [List.append_nil]
    exact ⟨independentOf hne hdst hsrc, independentOf hne.symm hsrc hdst⟩
  by_cases hcontent' : content' = []
  · subst hcontent'
    refine ⟨m, src, hnodes.append_of_nil hcontent hne hnodes', Or.inr ⟨rfl, rfl, hcontent⟩,
      iff_of_false (fun h => ?_) hcontent⟩
    -- the source still has its elements
    exact hcontent (hnodes.content_unique h.represents.1.holds)
  · obtain ⟨m', happend, hheader, hdata⟩ := hnodes.append_cons hcontent hne hnodes' hcontent'
    refine ⟨m', dst, happend, Or.inl rfl, iff_of_false (fun h => ?_) hcontent⟩
    -- the tail of the destination refers to the source
    obtain ⟨header'', nodes'', hlist⟩ := h.represents.2.holds
    obtain rfl := Option.some.inj (hheader.symm.trans hlist.header_eq)
    exact hne (hdata.symm.trans (hlist.data_last hlist.tail_eq))

end Ds
end InfinityLabs
