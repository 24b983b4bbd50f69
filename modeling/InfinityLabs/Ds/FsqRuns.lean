import InfinityLabs.Ds.Fsq

/-!
# The blocking queue over its runs

The permits of the one semaphore, with the calls that hold one, are the free places, and those
of the other are the items.  A call that has put its item is told by the end of the list: its
iterator was the end before the insertion, so it fails only where the node becomes the end
again.  `SLLRemove` frees the node behind the head, and that may be the node of such a call.
-/

namespace InfinityLabs
namespace Ds

open Lib

/-- A permit that is taken was there. -/
theorem semWait_eq {sem sem' : Nat} (h : semWait sem = some sem') : sem = sem' + 1 := by
  obtain ⟨hpos, hsem⟩ := Option.ite_none_left_eq_some.mp h
  rw [Option.some.injEq] at hsem
  omega

/-- A call that is to compare has put its item. -/
theorem isUnposted_of_pending {call : EnqueueCall} {iter : Nat}
    (h : call.pending? = some iter) : call.isUnposted = true := by
  cases call with
  | inserted data newNodeIter => rfl
  | called data => cases h
  | permitted data => cases h
  | compared data isEqual => cases h
  | returned data status => cases h

/-- What a removal takes is the first item of the list. -/
theorem Fsq.removeSection_cons {fsq : Fsq} {header : SllHeader} {nodes content : List Nat}
    {data : Nat} (h : fsq.memory.IsList fsq.list header nodes (data :: content)) :
    ∃ memory header' tmp rest, nodes = header.head :: tmp :: rest ∧
      fsq.removeSection = some (memory, data) ∧
      memory.IsList fsq.list header' (header.head :: rest) content := by
  obtain ⟨memory, header', tmp, rest, rfl, hremove, hlist, -⟩ := h.remove_head
  refine ⟨memory, header', tmp, rest, rfl, ?_, hlist⟩
  have hmem : header.head ∈ header.head :: tmp :: rest := List.mem_cons_self
  have hnode := SllMemory.node?_eq (h.allocated _ hmem).2
  obtain ⟨-, -, hnext, hne, -⟩ := h.linked
  have hsllNext : fsq.memory.sllNext header.head = some tmp := by
    rw [SllMemory.sllNext, hnode, Option.map_some, hnext]
  simp only [removeSection, h.sllBegin_eq, hsllNext, h.getData_head, hremove,
    Option.bind_eq_bind, Option.bind_some, if_neg hne]

/-- The list holds the content, the permits and the calls account for the places and the items,
no call that has put its item has the iterator of the end, and none fails. -/
structure FsqState.Holds (permits : Nat) (s : FsqState) (header : SllHeader)
    (nodes content : List Nat) : Prop where
  isList : s.fsq.memory.IsList s.fsq.list header nodes content
  order : s.taken ++ content = s.put
  places : s.fsq.enqueueSem + s.enqueues.countP EnqueueCall.isPermitted + content.length +
    s.dequeues.countP DequeueCall.isUnposted = permits
  items : s.fsq.dequeueSem + s.dequeues.countP DequeueCall.isPermitted +
    s.enqueues.countP EnqueueCall.isUnposted = content.length
  pending : ∀ call ∈ s.enqueues, call.pending? ≠ some header.tail
  succeeds : ∀ call ∈ s.enqueues, call.isFailed = false
  puts : (s.enqueues.filterMap EnqueueCall.put?).Perm s.put
  takes : (s.dequeues.filterMap DequeueCall.taken?).Perm s.taken

namespace FsqState.Holds

variable {permits : Nat} {s s' : FsqState} {header : SllHeader} {nodes content : List Nat}

/-! ## A step of one call -/

/-- A call of `FSQEnqueue` goes on without the list. -/
theorem setEnqueue (h : s.Holds permits header nodes content) {call : Nat} {old new : EnqueueCall}
    (hcall : s.enqueues[call]? = some old) {enqueueSem dequeueSem : Nat}
    (hplaces : enqueueSem + (if new.isPermitted then 1 else 0) =
      s.fsq.enqueueSem + if old.isPermitted then 1 else 0)
    (hitems : dequeueSem + (if new.isUnposted then 1 else 0) =
      s.fsq.dequeueSem + if old.isUnposted then 1 else 0)
    (hpending : new.pending? = none) (hsucceeds : new.isFailed = false)
    (hput : new.put? = old.put?) :
    FsqState.Holds permits
      { s with
        fsq := { s.fsq with enqueueSem, dequeueSem }
        enqueues := s.enqueues.set call new }
      header nodes content where
  isList := h.isList
  order := h.order
  places := by
    have hcount := countP_set_add (p := EnqueueCall.isPermitted) hcall new
    have hbefore := h.places
    dsimp only
    omega
  items := by
    have hcount := countP_set_add (p := EnqueueCall.isUnposted) hcall new
    have hbefore := h.items
    dsimp only
    omega
  pending := forall_mem_set h.pending (hpending ▸ nofun)
  succeeds := forall_mem_set h.succeeds hsucceeds
  puts := by
    dsimp only
    rw [filterMap_set_of_eq EnqueueCall.put? hcall new hput]
    exact h.puts
  takes := h.takes

/-- A call of `FSQDequeue` goes on without the list. -/
theorem setDequeue (h : s.Holds permits header nodes content) {call : Nat} {old new : DequeueCall}
    (hcall : s.dequeues[call]? = some old) {enqueueSem dequeueSem : Nat}
    (hplaces : enqueueSem + (if new.isUnposted then 1 else 0) =
      s.fsq.enqueueSem + if old.isUnposted then 1 else 0)
    (hitems : dequeueSem + (if new.isPermitted then 1 else 0) =
      s.fsq.dequeueSem + if old.isPermitted then 1 else 0)
    (htaken : new.taken? = old.taken?) :
    FsqState.Holds permits
      { s with
        fsq := { s.fsq with enqueueSem, dequeueSem }
        dequeues := s.dequeues.set call new }
      header nodes content where
  isList := h.isList
  order := h.order
  places := by
    have hcount := countP_set_add (p := DequeueCall.isUnposted) hcall new
    have hbefore := h.places
    dsimp only
    omega
  items := by
    have hcount := countP_set_add (p := DequeueCall.isPermitted) hcall new
    have hbefore := h.items
    dsimp only
    omega
  pending := h.pending
  succeeds := h.succeeds
  puts := h.puts
  takes := by
    dsimp only
    rw [filterMap_set_of_eq DequeueCall.taken? hcall new htaken]
    exact h.takes

/-! ## The steps of `FSQEnqueue` -/

theorem callEnqueue (h : s.Holds permits header nodes content) (data : Nat) :
    FsqState.Holds permits { s with enqueues := s.enqueues ++ [.called data] } header nodes
      content where
  isList := h.isList
  order := h.order
  places := by
    have hplaces := h.places
    rw [List.countP_append]
    exact hplaces
  items := by
    have hitems := h.items
    rw [List.countP_append]
    exact hitems
  pending := forall_mem_concat h.pending nofun
  succeeds := forall_mem_concat h.succeeds rfl
  puts := by
    rw [List.filterMap_append]
    exact (List.append_nil _).symm ▸ h.puts
  takes := h.takes

theorem waitEnqueue (h : s.Holds permits header nodes content) {call data enqueueSem : Nat}
    (hcall : s.enqueues[call]? = some (.called data))
    (hwait : semWait s.fsq.enqueueSem = some enqueueSem) :
    FsqState.Holds permits
      { s with fsq := { s.fsq with enqueueSem }, enqueues := s.enqueues.set call (.permitted data) }
      header nodes content :=
  h.setEnqueue hcall (semWait_eq hwait).symm rfl rfl rfl rfl

theorem insert (h : s.Holds permits header nodes content) {call data node : Nat}
    (hcall : s.enqueues[call]? = some (.permitted data)) (hfree : s.fsq.memory.IsFree node)
    (hfresh : ∀ call ∈ s.enqueues, call.pending? ≠ some node) :
    ∃ memory header', s.fsq.insertSection node data = some (memory, header.tail) ∧
      FsqState.Holds permits
        { s with
          fsq := { s.fsq with memory }
          enqueues := s.enqueues.set call (.inserted data header.tail)
          put := s.put ++ [data] }
        header' (nodes ++ [node]) (content ++ [data]) := by
  obtain ⟨memory, header', hinsert, hlist, -⟩ := h.isList.insert_end hfree 0 data
  have htail : node = header'.tail := by
    have heq := hlist.tail_eq
    rwa [List.getLast?_concat, Option.some.injEq] at heq
  have hne : header.tail ≠ node :=
    hfree.ne_of_mem h.isList _ (List.mem_of_getLast? h.isList.tail_eq)
  refine ⟨memory, header', ?_, hlist, ?_, ?_, ?_, ?_, ?_, ?_, h.takes⟩
  · rw [Fsq.insertSection, h.isList.sllEnd_eq, Option.bind_some, hinsert]
  · dsimp only
    rw [← List.append_assoc, h.order]
  · have hplaces := h.places
    have hcount := countP_set_add (p := EnqueueCall.isPermitted) hcall (.inserted data header.tail)
    simp only [EnqueueCall.isPermitted, Bool.false_eq_true, if_false, if_true] at hcount
    dsimp only
    rw [List.length_append, List.length_singleton]
    omega
  · have hitems := h.items
    have hcount := countP_set_add (p := EnqueueCall.isUnposted) hcall (.inserted data header.tail)
    simp only [EnqueueCall.isUnposted, Bool.false_eq_true, if_false, if_true] at hcount
    dsimp only
    rw [List.length_append, List.length_singleton]
    omega
  · rw [← htail]
    exact forall_mem_set hfresh fun heq => hne (Option.some.inj heq)
  · exact forall_mem_set h.succeeds rfl
  · exact (filterMap_set_of_none EnqueueCall.put? hcall rfl rfl).trans (h.puts.append_right [data])

theorem compare (h : s.Holds permits header nodes content) {call data newNodeIter : Nat}
    (hcall : s.enqueues[call]? = some (.inserted data newNodeIter)) :
    s.fsq.memory.sllEnd s.fsq.list = some header.tail ∧ (header.tail == newNodeIter) = false ∧
      FsqState.Holds permits { s with enqueues := s.enqueues.set call (.compared data false) }
        header nodes content := by
  have hne := h.pending _ (List.mem_of_getElem? hcall)
  exact ⟨h.isList.sllEnd_eq, beq_eq_false_iff_ne.mpr fun heq => hne (congrArg some heq.symm),
    h.setEnqueue hcall rfl rfl rfl rfl rfl⟩

theorem postEnqueue (h : s.Holds permits header nodes content) (hpermits : permits ≤ SEM_VALUE_MAX)
    {call data : Nat} (hcall : s.enqueues[call]? = some (.compared data false)) :
    FsqState.Holds permits
      { s with
        fsq := { s.fsq with dequeueSem := semPost s.fsq.dequeueSem }
        enqueues := s.enqueues.set call (.returned data 0) }
      header nodes content := by
  have hplaces := h.places
  have hitems := h.items
  have hpos : 0 < s.enqueues.countP EnqueueCall.isUnposted := countP_pos_of_getElem? hcall rfl
  have hpost : semPost s.fsq.dequeueSem = s.fsq.dequeueSem + 1 := if_pos (by omega)
  exact h.setEnqueue hcall rfl hpost rfl rfl rfl

/-! ## The steps of `FSQDequeue` -/

theorem callDequeue (h : s.Holds permits header nodes content) :
    FsqState.Holds permits { s with dequeues := s.dequeues ++ [.called] } header nodes
      content where
  isList := h.isList
  order := h.order
  places := by
    have hplaces := h.places
    dsimp only
    rw [List.countP_append]
    exact hplaces
  items := by
    have hitems := h.items
    dsimp only
    rw [List.countP_append]
    exact hitems
  pending := h.pending
  succeeds := h.succeeds
  puts := h.puts
  takes := by
    dsimp only
    rw [List.filterMap_append]
    exact (List.append_nil _).symm ▸ h.takes

theorem waitDequeue (h : s.Holds permits header nodes content) {call dequeueSem : Nat}
    (hcall : s.dequeues[call]? = some .called)
    (hwait : semWait s.fsq.dequeueSem = some dequeueSem) :
    FsqState.Holds permits
      { s with fsq := { s.fsq with dequeueSem }, dequeues := s.dequeues.set call .permitted }
      header nodes content :=
  h.setDequeue hcall rfl (semWait_eq hwait).symm rfl

/-- A removal moves the end only if it takes the last item, and then no call is to compare. -/
theorem pending_of_removed {memory : SllMemory} {header' : SllHeader} {rest : List Nat}
    {call data tmp : Nat}
    (h : s.Holds permits header (header.head :: tmp :: rest) (data :: content))
    (hcall : s.dequeues[call]? = some .permitted)
    (hlist : memory.IsList s.fsq.list header' (header.head :: rest) content) :
    ∀ call ∈ s.enqueues, call.pending? ≠ some header'.tail := by
  have hitems := h.items
  have hpos : 0 < s.dequeues.countP DequeueCall.isPermitted := countP_pos_of_getElem? hcall rfl
  have htail := h.isList.tail_eq
  have htail' := hlist.tail_eq
  have hlength := hlist.length_eq
  rw [List.length_cons] at hitems hlength
  intro pendingCall hmem hpending
  cases rest with
  | nil =>
      -- the last item goes, so no item is to be posted
      have hunposted : s.enqueues.countP EnqueueCall.isUnposted = 0 := by
        rw [List.length_nil] at hlength
        omega
      exact List.countP_eq_zero.mp hunposted pendingCall hmem (isUnposted_of_pending hpending)
  | cons next rest =>
      rw [List.getLast?_cons_cons] at htail htail'
      rw [List.getLast?_cons_cons, htail', Option.some.injEq] at htail
      exact h.pending pendingCall hmem (htail ▸ hpending)

theorem remove (h : s.Holds permits header nodes content) {call : Nat}
    (hcall : s.dequeues[call]? = some .permitted) :
    ∃ memory data header' nodes' content', content = data :: content' ∧
      s.fsq.removeSection = some (memory, data) ∧
      FsqState.Holds permits
        { s with
          fsq := { s.fsq with memory }
          dequeues := s.dequeues.set call (.removed data)
          taken := s.taken ++ [data] }
        header' nodes' content' := by
  have hplaces := h.places
  have hitems := h.items
  have hpos : 0 < s.dequeues.countP DequeueCall.isPermitted := countP_pos_of_getElem? hcall rfl
  obtain ⟨data, content, rfl⟩ : ∃ data rest, content = data :: rest :=
    List.exists_cons_of_length_pos (by omega)
  obtain ⟨memory, header', tmp, rest, rfl, hremove, hlist⟩ := Fsq.removeSection_cons h.isList
  rw [List.length_cons] at hplaces hitems
  refine ⟨memory, data, header', _, content, rfl, hremove, hlist, ?_, ?_, ?_, ?_, h.succeeds,
    h.puts, ?_⟩
  · rw [List.append_assoc]
    exact h.order
  · have hcount := countP_set_add (p := DequeueCall.isUnposted) hcall (.removed data)
    simp only [DequeueCall.isUnposted, Bool.false_eq_true, if_false, if_true] at hcount
    dsimp only
    omega
  · have hcount := countP_set_add (p := DequeueCall.isPermitted) hcall (.removed data)
    simp only [DequeueCall.isPermitted, Bool.false_eq_true, if_false, if_true] at hcount
    dsimp only
    omega
  · exact h.pending_of_removed hcall hlist
  · exact (filterMap_set_of_none DequeueCall.taken? hcall rfl rfl).trans
      (h.takes.append_right [data])

theorem postDequeue (h : s.Holds permits header nodes content) (hpermits : permits ≤ SEM_VALUE_MAX)
    {call data : Nat} (hcall : s.dequeues[call]? = some (.removed data)) :
    FsqState.Holds permits
      { s with
        fsq := { s.fsq with enqueueSem := semPost s.fsq.enqueueSem }
        dequeues := s.dequeues.set call (.returned data) }
      header nodes content := by
  have hplaces := h.places
  have hpos : 0 < s.dequeues.countP DequeueCall.isUnposted := countP_pos_of_getElem? hcall rfl
  have hpost : semPost s.fsq.enqueueSem = s.fsq.enqueueSem + 1 := if_pos (by omega)
  exact h.setDequeue hcall hpost rfl rfl

end FsqState.Holds

/-! ## The runs -/

/-- The invariant of the runs. -/
def FsqState.Invariant (permits : Nat) (s : FsqState) : Prop :=
  ∃ header nodes content, s.Holds permits header nodes content

/-- A new queue is empty, whatever its capacity. -/
theorem fsqMachine_start_isList {capacity : Nat} {s : FsqState}
    (h : (fsqMachine capacity).start s) :
    ∃ header nodes, s.fsq.memory.IsList s.fsq.list header nodes [] := by
  obtain ⟨m, m', list, dummy, enqueueSem, dequeueSem, hlist, hdummy, hne, hcreate, -⟩ := h
  have hzero : list ≠ 0 := Nat.ne_of_gt hlist.1
  simp only [fsqCreate, SllMemory.sllCreate, hzero, Bool.true_eq_false, if_false, Prod.mk.injEq,
    Option.some.injEq] at hcreate
  have hstart : (sllMachine list).start ⟨_, []⟩ := ⟨m, dummy, hlist, hdummy, hne, rfl, rfl⟩
  obtain ⟨header, nodes, hnodes⟩ := holds_start hstart
  refine ⟨header, nodes, ?_⟩
  rw [← hcreate.2]
  exact hnodes

/-- All places of a new queue are free. -/
theorem FsqState.Invariant.start {capacity : Nat} {s : FsqState}
    (hcapacity : capacity % 2 ^ 32 ≤ SEM_VALUE_MAX) (h : (fsqMachine capacity).start s) :
    s.Invariant (capacity % 2 ^ 32) := by
  obtain ⟨header, nodes, hnodes⟩ := fsqMachine_start_isList h
  obtain ⟨m, m', list, dummy, enqueueSem, dequeueSem, hlist, hdummy, hne, hcreate, henqueues,
    hdequeues, hput, htaken⟩ := h
  have hzero : list ≠ 0 := Nat.ne_of_gt hlist.1
  simp only [fsqCreate, SllMemory.sllCreate, hzero, Bool.true_eq_false, if_false, semInit,
    if_pos hcapacity, Nat.zero_mod, Prod.mk.injEq, Option.some.injEq] at hcreate
  obtain ⟨-, hfsq⟩ := hcreate
  refine ⟨header, nodes, [], hnodes, ?_, ?_, ?_, ?_, ?_, ?_, ?_⟩
  · rw [htaken, hput, List.nil_append]
  · rw [← hfsq, henqueues, hdequeues]
    rfl
  · rw [← hfsq, henqueues, hdequeues]
    rfl
  · rw [henqueues]
    exact fun call hmem => absurd hmem List.not_mem_nil
  · rw [henqueues]
    exact fun call hmem => absurd hmem List.not_mem_nil
  · rw [henqueues, hput]
    exact List.Perm.nil
  · rw [hdequeues, htaken]
    exact List.Perm.nil

/-- A step keeps the invariant. -/
theorem FsqState.Invariant.step {permits : Nat} (hpermits : permits ≤ SEM_VALUE_MAX)
    {s s' : FsqState} {a : FsqAction} (h : s.Invariant permits) (hfresh : s.Fresh a)
    (hstep : s.step a = some s') : s'.Invariant permits := by
  obtain ⟨header, nodes, content, h⟩ := h
  cases a with
  | callEnqueue data =>
      obtain rfl := Option.some.inj hstep
      exact ⟨header, nodes, content, h.callEnqueue data⟩
  | waitEnqueue call =>
      simp only [FsqState.step] at hstep
      split at hstep
      case h_1 data hcall =>
        obtain ⟨enqueueSem, hwait, rfl⟩ := Option.map_eq_some_iff.mp hstep
        exact ⟨header, nodes, content, h.waitEnqueue hcall hwait⟩
      case h_2 => cases hstep
  | insert call node =>
      simp only [FsqState.step] at hstep
      split at hstep
      case h_1 data hcall =>
        obtain ⟨hfree, hinsert⟩ := Option.ite_none_right_eq_some.mp hstep
        obtain ⟨memory, header', heq, hholds⟩ := h.insert hcall hfree hfresh
        rw [heq, Option.map_some, Option.some.injEq] at hinsert
        subst hinsert
        exact ⟨header', _, _, hholds⟩
      case h_2 => cases hstep
  | compare call =>
      simp only [FsqState.step] at hstep
      split at hstep
      case h_1 data newNodeIter hcall =>
        obtain ⟨hend, hequal, hholds⟩ := h.compare hcall
        rw [hend, Option.map_some, hequal, Option.some.injEq] at hstep
        subst hstep
        exact ⟨header, nodes, content, hholds⟩
      case h_2 => cases hstep
  | postEnqueue call =>
      simp only [FsqState.step] at hstep
      split at hstep
      case h_1 data hcall =>
        have hsucceeds := h.succeeds _ (List.mem_of_getElem? hcall)
        cases hsucceeds
      case h_2 data hcall =>
        obtain rfl := Option.some.inj hstep
        exact ⟨header, nodes, content, h.postEnqueue hpermits hcall⟩
      case h_3 => cases hstep
  | callDequeue =>
      obtain rfl := Option.some.inj hstep
      exact ⟨header, nodes, content, h.callDequeue⟩
  | waitDequeue call =>
      simp only [FsqState.step] at hstep
      split at hstep
      case h_1 hcall =>
        obtain ⟨dequeueSem, hwait, rfl⟩ := Option.map_eq_some_iff.mp hstep
        exact ⟨header, nodes, content, h.waitDequeue hcall hwait⟩
      case h_2 => cases hstep
  | remove call =>
      simp only [FsqState.step] at hstep
      split at hstep
      case h_1 hcall =>
        obtain ⟨memory, data, header', nodes', content', -, hremove, hholds⟩ := h.remove hcall
        rw [hremove, Option.map_some, Option.some.injEq] at hstep
        subst hstep
        exact ⟨header', nodes', content', hholds⟩
      case h_2 => cases hstep
  | postDequeue call =>
      simp only [FsqState.step] at hstep
      split at hstep
      case h_1 data hcall =>
        obtain rfl := Option.some.inj hstep
        exact ⟨header, nodes, content, h.postDequeue hpermits hcall⟩
      case h_2 => cases hstep

/-- The invariant holds in every run in which `malloc` keeps the guard. -/
theorem fsqMachine_invariant {capacity : Nat} (hcapacity : capacity % 2 ^ 32 ≤ SEM_VALUE_MAX)
    {s : FsqState} (h : (fsqMachine capacity).ReachedBy FsqState.Fresh s) :
    s.Invariant (capacity % 2 ^ 32) :=
  h.invariant (fun _ => FsqState.Invariant.start hcapacity)
    fun _ _ _ hs hfresh hstep => hs.step hcapacity hfresh hstep

/-- No call fails.  The list holds at most `capacity` items: those that the calls have put,
without those that they have taken, in their order.  A call that is let through finds the list
as it needs it. -/
structure FsqState.IsFifo (capacity : Nat) (s : FsqState) : Prop where
  succeeds : ∀ call ∈ s.enqueues, call.isFailed = false
  fifo : ∃ header nodes content, s.fsq.memory.IsList s.fsq.list header nodes content ∧
    content.length ≤ capacity ∧ s.taken ++ content = s.put
  puts : (s.enqueues.filterMap EnqueueCall.put?).Perm s.put
  takes : (s.dequeues.filterMap DequeueCall.taken?).Perm s.taken
  insert : ∀ call data node, s.enqueues[call]? = some (.permitted data) →
    s.fsq.memory.IsFree node → (s.step (.insert call node)).isSome
  compare : ∀ call data newNodeIter, s.enqueues[call]? = some (.inserted data newNodeIter) →
    (s.step (.compare call)).isSome
  remove : ∀ call, s.dequeues[call]? = some .permitted → (s.step (.remove call)).isSome

/-- What the invariant says of the calls. -/
theorem FsqState.Invariant.isFifo {permits capacity : Nat} (hpermits : permits ≤ capacity)
    {s : FsqState} (h : s.Invariant permits) : s.IsFifo capacity := by
  obtain ⟨header, nodes, content, h⟩ := h
  have hplaces := h.places
  refine ⟨h.succeeds, ⟨header, nodes, content, h.isList, by omega, h.order⟩, h.puts, h.takes,
    ?_, ?_, ?_⟩
  · intro call data node hcall hfree
    obtain ⟨memory, header', hinsert, -⟩ := h.isList.insert_end hfree 0 data
    simp only [FsqState.step, hcall, if_pos hfree, Fsq.insertSection, h.isList.sllEnd_eq,
      Option.bind_some, hinsert, Option.map_some, Option.isSome_some]
  · intro call data newNodeIter hcall
    simp only [FsqState.step, hcall, h.isList.sllEnd_eq, Option.map_some, Option.isSome_some]
  · intro call hcall
    obtain ⟨memory, data, -, -, -, -, hremove, -⟩ := h.remove hcall
    simp only [FsqState.step, hcall, hremove, Option.map_some, Option.isSome_some]

/-- A call whose iterator is the end fails. -/
theorem FsqState.compare_fails {s : FsqState} {call data newNodeIter : Nat}
    (hcall : s.enqueues[call]? = some (.inserted data newNodeIter))
    (hend : s.fsq.memory.sllEnd s.fsq.list = some newNodeIter) :
    ∃ s', s.step (.compare call) = some s' ∧ ∃ call ∈ s'.enqueues, call.isFailed = true := by
  refine ⟨{ s with enqueues := s.enqueues.set call (.compared data true) }, ?_,
    .compared data true, List.mem_set (List.getElem?_eq_some_iff.mp hcall).1 _, rfl⟩
  simp only [FsqState.step, hcall, hend, Option.map_some, beq_self_eq_true]

/-- Where `malloc` returns the node of an insertion that is yet to be compared with the end, the
comparison makes the call fail. -/
theorem FsqState.Invariant.fails {permits : Nat} {s s' : FsqState} {a : FsqAction}
    (h : s.Invariant permits) (hfresh : ¬ s.Fresh a) (hstep : s.step a = some s') :
    ∃ other s'', s'.step (.compare other) = some s'' ∧
      ∃ call ∈ s''.enqueues, call.isFailed = true := by
  obtain ⟨header, nodes, content, h⟩ := h
  cases a with
  | insert call node =>
      simp only [FsqState.Fresh, not_forall, not_not] at hfresh
      obtain ⟨pendingCall, hmem, hpending⟩ := hfresh
      obtain ⟨other, hother⟩ := List.getElem?_of_mem hmem
      simp only [FsqState.step] at hstep
      split at hstep
      case h_1 data hcall =>
        obtain ⟨hfree, hinsert⟩ := Option.ite_none_right_eq_some.mp hstep
        obtain ⟨memory, header', hsllInsert, hlist, -⟩ := h.isList.insert_end hfree 0 data
        have htail := hlist.tail_eq
        rw [List.getLast?_concat, Option.some.injEq] at htail
        rw [Fsq.insertSection, h.isList.sllEnd_eq, Option.bind_some, hsllInsert, Option.map_some,
          Option.some.injEq] at hinsert
        subst hinsert
        cases pendingCall with
        | inserted otherData newNodeIter =>
            obtain rfl := Option.some.inj hpending
            have hne : call ≠ other := by
              rintro rfl
              rw [hcall] at hother
              cases hother
            have hother' : (s.enqueues.set call (.inserted data header.tail))[other]? =
                some (.inserted otherData newNodeIter) := by
              rw [List.getElem?_set_ne hne, hother]
            have hend : memory.sllEnd s.fsq.list = some newNodeIter := by
              rw [hlist.sllEnd_eq, htail]
            exact ⟨other, FsqState.compare_fails hother' hend⟩
        | called data => cases hpending
        | permitted data => cases hpending
        | compared data isEqual => cases hpending
        | returned data status => cases hpending
      case h_2 => cases hstep
  | callEnqueue data => exact absurd trivial hfresh
  | waitEnqueue call => exact absurd trivial hfresh
  | compare call => exact absurd trivial hfresh
  | postEnqueue call => exact absurd trivial hfresh
  | callDequeue => exact absurd trivial hfresh
  | waitDequeue call => exact absurd trivial hfresh
  | remove call => exact absurd trivial hfresh
  | postDequeue call => exact absurd trivial hfresh

/-- The queue is a bounded first in, first out as long as `malloc` never returns the node of an
insertion that is yet to be compared with the end; where it does, that call fails although its
item is in the list. -/
theorem fsq_isFifo {capacity : Nat} (hcapacity : capacity % 2 ^ 32 ≤ SEM_VALUE_MAX)
    {s : FsqState} (h : (fsqMachine capacity).ReachedBy FsqState.Fresh s) :
    s.IsFifo capacity ∧ ∀ a s', ¬ s.Fresh a → (fsqMachine capacity).step s a = some s' →
      ∃ other s'', (fsqMachine capacity).step s' (.compare other) = some s'' ∧
        ¬ s''.IsFifo capacity := by
  have hinvariant := fsqMachine_invariant hcapacity h
  refine ⟨hinvariant.isFifo (Nat.mod_le _ _), ?_⟩
  intro a s' hfresh hstep
  obtain ⟨other, s'', hcompare, call, hmem, hfailed⟩ := hinvariant.fails hfresh hstep
  refine ⟨other, s'', hcompare, ?_⟩
  intro hfifo
  rw [hfifo.succeeds call hmem] at hfailed
  cases hfailed

/-- An empty memory with a new queue for two items. -/
def newFsq : FsqState :=
  { fsq :=
      { memory := (SllMemory.sllCreate ⟨fun _ => none, fun _ => none⟩ (some 16) (some 32)).1
        list := 16
        capacity := 2
        enqueueSem := 2
        dequeueSem := 0 }
    enqueues := []
    dequeues := []
    put := []
    taken := [] }

theorem fsqMachine_start_newFsq : (fsqMachine 2).start newFsq :=
  ⟨⟨fun _ => none, fun _ => none⟩, _, 16, 32, 0, 0, by decide, by decide, by decide, rfl, rfl,
    rfl, rfl, rfl⟩

/-- Two producers and a consumer of one queue. -/
def twoProducers : List FsqAction :=
  [.callEnqueue 5, .callEnqueue 6, .callDequeue, .waitEnqueue 0, .waitEnqueue 1, .insert 1 48,
    .insert 0 64, .compare 1, .postEnqueue 1, .waitDequeue 0, .remove 0, .compare 0,
    .postDequeue 0, .postEnqueue 0]

/-- The items are put in the order of the insertions, and both calls succeed. -/
theorem fsq_isFifo_twoProducers :
    ∃ s, (fsqMachine 2).run newFsq twoProducers = some s ∧ s.put = [6, 5] ∧ s.taken = [6] ∧
      s.enqueues = [.returned 5 0, .returned 6 0] ∧ s.IsFifo 2 ∧
      ∀ a s', ¬ s.Fresh a → (fsqMachine 2).step s a = some s' →
        ∃ other s'', (fsqMachine 2).step s' (.compare other) = some s'' ∧ ¬ s''.IsFifo 2 := by
  have hrun : (fsqMachine 2).run newFsq twoProducers = some _ := rfl
  have hadmits : (fsqMachine 2).Admits FsqState.Fresh newFsq twoProducers := by decide
  exact ⟨_, hrun, rfl, rfl, rfl,
    fsq_isFifo (by decide) (Machine.ReachedBy.run (.start fsqMachine_start_newFsq) hadmits hrun)⟩

/-- A consumer frees the node of an insertion before it is compared with the end, and the next
insertion gets it. -/
def reusedNode : List FsqAction :=
  [.callEnqueue 5, .waitEnqueue 0, .insert 0 48, .compare 0, .postEnqueue 0,
    .callEnqueue 6, .waitEnqueue 1, .insert 1 64,
    .callDequeue, .waitDequeue 0, .remove 0, .postDequeue 0,
    .callEnqueue 7, .waitEnqueue 2, .insert 2 48, .compare 1, .postEnqueue 1]

/-- The second call returns -1, and its item is the first of the list. -/
theorem fsq_fails :
    ∃ s, (fsqMachine 2).Reached s ∧ s.enqueues[1]? = some (.returned 6 (-1)) ∧
      s.fsq.memory.sllBegin 16 = some 32 ∧ s.fsq.memory.sllGetData 32 = some 6 ∧
      ¬ s.IsFifo 2 := by
  have hrun : (fsqMachine 2).run newFsq reusedNode = some _ := rfl
  refine ⟨_, Machine.Reached.run (.start fsqMachine_start_newFsq) hrun, rfl, rfl, rfl, ?_⟩
  intro hfifo
  have hsucceeds := hfifo.succeeds (.returned 6 (-1)) (by decide)
  cases hsucceeds

end Ds
end InfinityLabs
