import InfinityLabs.Ds.SllAppend

/-!
# The queue

`ds/src/queue.c`.  A queue is a pointer to its list, which `QueueAppend` replaces by what
`SLLAppend` returns.
-/

namespace InfinityLabs
namespace Ds

/-- The memory of the lists, with the list of each `queue_t`. -/
structure QueueMemory where
  memory : SllMemory
  queue? : Nat → Option Nat

/-- `malloc` may return the address. -/
def QueueMemory.IsFree (m : QueueMemory) (address : Nat) : Prop :=
  m.memory.IsFree address ∧ m.queue? address = none

instance QueueMemory.decidableIsFree (m : QueueMemory) (address : Nat) :
    Decidable (m.IsFree address) :=
  inferInstanceAs (Decidable (_ ∧ _))

/-- `QueueCreate`, with what its call of `malloc` and those of `SLLCreate` return. -/
def queueCreate (m : QueueMemory) (queue list dummy : Option Nat) : QueueMemory × Nat :=
  match queue with
  | none => (m, 0)
  | some queue =>
      let (memory, list) := m.memory.sllCreate list dummy
      if list = 0 then (m, 0)
      else ({ memory, queue? := Function.update m.queue? queue (some list) }, queue)

/-- `QueueEnqueue`, with what `malloc` returns; the status tells success by comparing the
iterator that `SLLInsert` returns with the end before the call. -/
def queueEnqueue (m : QueueMemory) (fuel queue : Nat) (node : Option Nat) (data : Nat) :
    Option (QueueMemory × Int) := do
  let list ← m.queue? queue
  let tailIt ← m.memory.sllEnd list
  let (memory, newNodeIt) ← m.memory.sllInsert fuel node tailIt data
  some ({ m with memory }, if newNodeIt = tailIt then 1 else 0)

/-- `QueueDequeue`. -/
def queueDequeue (m : QueueMemory) (queue : Nat) : Option QueueMemory := do
  let list ← m.queue? queue
  let iter ← m.memory.sllBegin list
  let (memory, _) ← m.memory.sllRemove iter
  some { m with memory }

/-- `QueueIsEmpty`. -/
def queueIsEmpty (m : QueueMemory) (queue : Nat) : Option Bool :=
  (m.queue? queue).bind m.memory.sllIsEmpty

/-- `QueueSize`. -/
def queueSize (m : QueueMemory) (fuel queue : Nat) : Option Nat :=
  (m.queue? queue).bind (m.memory.sllCount fuel)

/-- `QueuePeek`; null for an empty queue. -/
def queuePeek (m : QueueMemory) (queue : Nat) : Option Nat := do
  let isEmpty ← queueIsEmpty m queue
  if isEmpty then some 0
  else
    let list ← m.queue? queue
    let iter ← m.memory.sllBegin list
    m.memory.sllGetData iter

/-- `QueueAppend`. -/
def queueAppend (m : QueueMemory) (src dst : Nat) : Option (QueueMemory × Nat) := do
  let srcList ← m.queue? src
  let dstList ← m.queue? dst
  let (memory, list) ← m.memory.sllAppend srcList dstList
  some ({ memory, queue? := Function.update m.queue? dst (some list) }, dst)

/-- The lists of the two queues are as the content is transferred from the one to the other. -/
def QueueMemory.Transfers (m : QueueMemory) (src dst : Nat) (content : List Nat) : Prop :=
  ∃ srcList dstList, m.queue? src = some srcList ∧ m.queue? dst = some dstList ∧
    m.memory.Transfers srcList dstList content

/-- Both calls return, and transfer the content of one list or queue to another exactly where
the source is empty. -/
theorem append_transfers_iff {m : SllMemory} {src dst : Nat} {content content' : List Nat}
    (hne : src ≠ dst) (hsrc : SllState.Holds src ⟨m, content⟩)
    (hdst : SllState.Holds dst ⟨m, content'⟩) :
    (∃ m' list, m.sllAppend src dst = some (m', list) ∧
      (m'.Transfers src dst (content' ++ content) ↔ content = [])) ∧
    ∀ (queue? : Nat → Option Nat) (srcQueue dstQueue : Nat), srcQueue ≠ dstQueue →
      queue? srcQueue = some src → queue? dstQueue = some dst →
      ∃ m', queueAppend ⟨m, queue?⟩ srcQueue dstQueue = some (m', dstQueue) ∧
        (m'.Transfers srcQueue dstQueue (content' ++ content) ↔ content = []) := by
  obtain ⟨m', list, happend, hlist, htransfers⟩ := sllAppend_transfers_iff hne hsrc hdst
  refine ⟨⟨m', list, happend, htransfers⟩, fun queue? srcQueue dstQueue hqueues hsrcQueue
    hdstQueue => ⟨⟨m', Function.update queue? dstQueue (some list)⟩, ?_, ?_⟩⟩
  · simp only [queueAppend, hsrcQueue, hdstQueue, happend, Option.bind_eq_bind, Option.bind_some]
  · have hqueue : QueueMemory.Transfers ⟨m', Function.update queue? dstQueue (some list)⟩
        srcQueue dstQueue (content' ++ content) ↔
          m'.Transfers src list (content' ++ content) := by
      simp only [QueueMemory.Transfers, Function.update_self, Function.update_of_ne hqueues,
        hsrcQueue, Option.some.injEq, exists_and_left, exists_eq_left']
    rw [hqueue]
    rcases hlist with rfl | ⟨rfl, rfl, hcontent⟩
    · exact htransfers
    · -- both queues have the list of the source
      refine iff_of_false (fun h => ?_) hcontent
      obtain ⟨header, nodes, hnodes⟩ := hsrc
      exact hcontent (hnodes.content_unique h.represents.1.holds)

/-- An empty list at 16, lists of one element at 64 and 112, and the queues of the first two. -/
def threeLists : QueueMemory :=
  { memory :=
      { node? := fun address =>
          if address = 32 then some { data := 16, next := 0 }
          else if address = 80 then some { data := 7, next := 96 }
          else if address = 96 then some { data := 64, next := 0 }
          else if address = 128 then some { data := 5, next := 144 }
          else if address = 144 then some { data := 112, next := 0 }
          else none
        list? := fun address =>
          if address = 16 then some { head := 32, tail := 32 }
          else if address = 64 then some { head := 80, tail := 96 }
          else if address = 112 then some { head := 128, tail := 144 }
          else none }
    queue? := fun address =>
      if address = 1 then some 16 else if address = 2 then some 64 else none }

theorem threeLists_empty : SllState.Holds 16 ⟨threeLists.memory, []⟩ :=
  ⟨⟨32, 32⟩, [32], by decide, rfl, ⟨rfl, by decide, rfl⟩, rfl, rfl, by decide⟩

theorem threeLists_single : SllState.Holds 64 ⟨threeLists.memory, [7]⟩ :=
  ⟨⟨80, 96⟩, [80, 96], by decide, rfl, ⟨rfl, by decide, rfl, by decide, rfl⟩, rfl, rfl, by decide⟩

/-- The empty queue is appended, to another and to the list of another. -/
theorem append_transfers_iff_threeLists :
    (∃ m' list, threeLists.memory.sllAppend 16 64 = some (m', list) ∧
      m'.Transfers 16 64 [7]) ∧
    ∃ m', queueAppend threeLists 1 2 = some (m', 2) ∧ m'.Transfers 1 2 [7] := by
  obtain ⟨⟨m', list, happend, hiff⟩, hqueues⟩ :=
    append_transfers_iff (by decide) threeLists_empty threeLists_single
  obtain ⟨m'', hqueue, hiff'⟩ := hqueues threeLists.queue? 1 2 (by decide) rfl rfl
  exact ⟨⟨m', list, happend, hiff.mpr rfl⟩, m'', hqueue, hiff'.mpr rfl⟩

/-- A list of one element is appended to another, whose tail then refers to the first; its queue
is appended to the empty queue, and the two have one list. -/
theorem append_transfers_fails :
    (∃ m' list, threeLists.memory.sllAppend 64 112 = some (m', list) ∧
      ¬ m'.Transfers 64 112 [5, 7]) ∧
    ∃ m', queueAppend threeLists 2 1 = some (m', 1) ∧ m'.queue? 2 = m'.queue? 1 ∧
      ¬ m'.Transfers 2 1 [7] := by
  refine ⟨⟨_, _, rfl, fun h => ?_⟩, _, rfl, rfl, fun h => ?_⟩
  · obtain ⟨header, nodes, hlist⟩ := h.represents.2.holds
    obtain rfl := Option.some.inj hlist.header_eq
    have hdata := hlist.data_last hlist.tail_eq
    cases hdata
  · obtain ⟨srcList, dstList, hsrc, -, htransfers⟩ := h
    obtain rfl := Option.some.inj hsrc
    have hcount := htransfers.represents.1.count 2 (by decide)
    cases hcount

/-!
## The queue over its runs

Elements come out in the order in which they were put in.  `SLLInsert` returns the iterator that
it was given, on success as well as on failure, so `QueueEnqueue` finds it equal to the end
before the call in both cases and reports a failure.
-/

open Lib

/-! ## The calls -/

/-- The queue holds the elements. -/
def QueueMemory.Holds (m : QueueMemory) (queue : Nat) (content : List Nat) : Prop :=
  ∃ list header nodes, m.queue? queue = some list ∧ m.memory.IsList list header nodes content

section Calls

variable {m : QueueMemory} {queue : Nat} {content : List Nat}

/-- A new queue is empty. -/
theorem holds_queueCreate {m' : QueueMemory} {list dummy : Nat} (hlist : m.memory.IsFree list)
    (hdummy : m.memory.IsFree dummy) (hne : dummy ≠ list)
    (hcreate : queueCreate m (some queue) (some list) (some dummy) = (m', queue)) :
    m'.Holds queue [] := by
  have hzero : list ≠ 0 := Nat.ne_of_gt hlist.1
  simp only [queueCreate, SllMemory.sllCreate, hzero, if_false, Prod.mk.injEq, and_true] at hcreate
  subst hcreate
  have hstart : (sllMachine list).start ⟨_, []⟩ :=
    ⟨m.memory, dummy, hlist, hdummy, hne, rfl, rfl⟩
  obtain ⟨header, nodes, hnodes⟩ := holds_start hstart
  exact ⟨list, header, nodes, Function.update_self .., hnodes⟩

/-- `QueueEnqueue` appends its element, and reports a failure. -/
theorem QueueMemory.Holds.enqueue (h : m.Holds queue content) {node : Nat}
    (hfree : m.memory.IsFree node) (fuel data : Nat) :
    ∃ m', queueEnqueue m fuel queue (some node) data = some (m', 1) ∧
      m'.Holds queue (content ++ [data]) := by
  obtain ⟨list, header, nodes, hqueue, hlist⟩ := h
  obtain ⟨memory, header', hinsert, hlist', -⟩ := hlist.insert_end hfree fuel data
  refine ⟨{ m with memory }, ?_, list, header', _, hqueue, hlist'⟩
  simp only [queueEnqueue, hqueue, hlist.sllEnd_eq, hinsert, Option.bind_eq_bind,
    Option.bind_some, if_true]

/-- Without memory `QueueEnqueue` leaves the queue as it is, and reports a failure. -/
theorem QueueMemory.Holds.enqueue_fails (h : m.Holds queue content) {fuel : Nat}
    (hfuel : 0 < fuel) (data : Nat) : queueEnqueue m fuel queue none data = some (m, 1) := by
  obtain ⟨list, header, nodes, hqueue, hlist⟩ := h
  obtain ⟨elements, rfl, -⟩ := hlist.exists_concat
  simp only [queueEnqueue, hqueue, hlist.sllEnd_eq, hlist.insert_fails hfuel,
    Option.bind_eq_bind, Option.bind_some, if_true]

/-- `QueuePeek` shows the first element, and null where there is none. -/
theorem QueueMemory.Holds.peek (h : m.Holds queue content) :
    queuePeek m queue = some (content.headD 0) := by
  obtain ⟨list, header, nodes, hqueue, hlist⟩ := h
  have hempty : queueIsEmpty m queue = some (content == []) := by
    rw [queueIsEmpty, hqueue, Option.bind_some, hlist.isEmpty]
  cases content with
  | nil => simp [queuePeek, hempty]
  | cons data content =>
      simp [queuePeek, hempty, hqueue, hlist.sllBegin_eq, hlist.getData_head]

/-- `QueueDequeue` takes the first element. -/
theorem QueueMemory.Holds.dequeue {data : Nat} (h : m.Holds queue (data :: content)) :
    ∃ m', queueDequeue m queue = some m' ∧ m'.Holds queue content := by
  obtain ⟨list, header, nodes, hqueue, hlist⟩ := h
  obtain ⟨memory, header', -, rest, -, hremove, hlist', -⟩ := hlist.remove_head
  refine ⟨{ m with memory }, ?_, list, header', _, hqueue, hlist'⟩
  simp only [queueDequeue, hqueue, hlist.sllBegin_eq, hremove, Option.bind_eq_bind,
    Option.bind_some]

/-- An empty queue has nothing to dequeue: the assertion of `SLLRemove` fails. -/
theorem QueueMemory.Holds.dequeue_nil (h : m.Holds queue []) : queueDequeue m queue = none := by
  obtain ⟨list, header, nodes, hqueue, hlist⟩ := h
  obtain ⟨rfl, hhead⟩ := hlist.nodes_of_nil
  have hnode := SllMemory.node?_eq (hlist.allocated _ List.mem_cons_self).2
  have hnext : m.memory.next header.tail = 0 := hlist.linked.2.2
  have hremove : m.memory.sllRemove header.head = none := by
    simp only [hhead, SllMemory.sllRemove, SllMemory.sllNext, hnode, Option.map_some, hnext]
  simp only [queueDequeue, hqueue, hlist.sllBegin_eq, hremove, Option.bind_eq_bind,
    Option.bind_some, Option.bind_none]

/-- `QueueSize` counts the elements. -/
theorem QueueMemory.Holds.size (h : m.Holds queue content) {fuel : Nat}
    (hfuel : content.length < fuel) : queueSize m fuel queue = some content.length := by
  obtain ⟨list, header, nodes, hqueue, hlist⟩ := h
  rw [queueSize, hqueue, Option.bind_some, hlist.count hfuel]

end Calls

/-! ## The runs -/

/-- A call of `QueueEnqueue`: its element, whether `malloc` returned a node, and the status. -/
structure Enqueue where
  data : Nat
  allocated : Bool
  status : Int
  deriving DecidableEq, Repr

/-- A queue with the calls of `QueueEnqueue` and the elements that were dequeued. -/
structure QueueState where
  memory : QueueMemory
  calls : List Enqueue
  dequeued : List Nat

/-- The calls; `node` is what `malloc` returns. -/
inductive QueueAction where
  | enqueue (data : Nat) (node : Option Nat)
  | dequeue
  deriving DecidableEq, Repr

/-- A call; the element that `QueueDequeue` takes is the one that `QueuePeek` shows. -/
def QueueState.step (queue : Nat) (s : QueueState) : QueueAction → Option QueueState
  | .enqueue data node =>
      if node.all (decide <| s.memory.memory.IsFree ·) then
        (queueEnqueue s.memory 1 queue node data).map fun (memory, status) =>
          { s with memory, calls := s.calls ++ [⟨data, node.isSome, status⟩] }
      else none
  | .dequeue => do
      let data ← queuePeek s.memory queue
      let memory ← queueDequeue s.memory queue
      some { s with memory, dequeued := s.dequeued ++ [data] }

/-- The runs of a queue from `QueueCreate` on. -/
def queueMachine (queue : Nat) : Machine QueueState QueueAction where
  start s := ∃ (m : QueueMemory) (list dummy : Nat), m.memory.IsFree list ∧
    m.memory.IsFree dummy ∧ dummy ≠ list ∧
    queueCreate m (some queue) (some list) (some dummy) = (s.memory, queue) ∧
    s.calls = [] ∧ s.dequeued = []
  step := QueueState.step queue

/-- The elements of the calls that got memory. -/
def QueueState.enqueued (s : QueueState) : List Nat :=
  (s.calls.filter Enqueue.allocated).map Enqueue.data

/-- The elements that were dequeued and those that the queue holds are those of the calls that
got memory, in their order.  A call with memory appends its element, and one without changes
nothing and reports it. -/
structure QueueState.IsFifo (queue : Nat) (s : QueueState) (content : List Nat) : Prop where
  holds : s.memory.Holds queue content
  order : s.dequeued ++ content = s.enqueued
  peek : queuePeek s.memory queue = some (content.headD 0)
  size : ∀ fuel, content.length < fuel → queueSize s.memory fuel queue = some content.length
  enqueue : ∀ data node, s.memory.memory.IsFree node →
    ∃ s', s.step queue (.enqueue data (some node)) = some s' ∧
      s'.memory.Holds queue (content ++ [data])
  enqueue_fails : ∀ data, ∃ s' status, s.step queue (.enqueue data none) = some s' ∧
    s'.memory = s.memory ∧ s'.calls = s.calls ++ [⟨data, false, status⟩] ∧ status ≠ 0
  dequeue : content ≠ [] → ∃ s', s.step queue .dequeue = some s' ∧
    s'.memory.Holds queue content.tail

/-- The status of each call tells whether its element was appended. -/
def QueueState.ReportsSuccess (s : QueueState) : Prop :=
  ∀ c ∈ s.calls, c.status = 0 ↔ c.allocated = true

/-- The queue holds what was enqueued and not yet dequeued, and every call reported a failure. -/
def QueueState.Invariant (queue : Nat) (s : QueueState) : Prop :=
  (∃ content, s.memory.Holds queue content ∧ s.dequeued ++ content = s.enqueued) ∧
    ∀ c ∈ s.calls, c.status = 1

/-- A call without memory adds nothing to the elements. -/
theorem enqueued_concat (s : QueueState) (c : Enqueue) {memory : QueueMemory} :
    QueueState.enqueued { s with memory, calls := s.calls ++ [c] } =
      s.enqueued ++ if c.allocated then [c.data] else [] := by
  rw [QueueState.enqueued, List.filter_append, List.map_append, QueueState.enqueued]
  cases h : c.allocated with
  | false => simp [h]
  | true => simp [h]

theorem QueueState.Invariant.enqueue {queue data : Nat} {s s' : QueueState} {node : Option Nat}
    (h : s.Invariant queue) (hstep : s.step queue (.enqueue data node) = some s') :
    s'.Invariant queue := by
  obtain ⟨⟨content, hholds, horder⟩, hstatus⟩ := h
  obtain ⟨hfree, hcall⟩ := Option.ite_none_right_eq_some.mp hstep
  cases node with
  | none =>
      rw [hholds.enqueue_fails Nat.one_pos, Option.map_some, Option.some.injEq] at hcall
      subst hcall
      refine ⟨⟨content, hholds, ?_⟩, forall_mem_concat hstatus rfl⟩
      rw [enqueued_concat, horder]
      exact (List.append_nil _).symm
  | some node =>
      obtain ⟨memory, henqueue, hholds'⟩ := hholds.enqueue (of_decide_eq_true hfree) 1 data
      rw [henqueue, Option.map_some, Option.some.injEq] at hcall
      subst hcall
      refine ⟨⟨content ++ [data], hholds', ?_⟩, forall_mem_concat hstatus rfl⟩
      rw [enqueued_concat, ← List.append_assoc, horder]
      rfl

theorem QueueState.Invariant.dequeue {queue : Nat} {s s' : QueueState} (h : s.Invariant queue)
    (hstep : s.step queue .dequeue = some s') : s'.Invariant queue := by
  obtain ⟨⟨content, hholds, horder⟩, hstatus⟩ := h
  simp only [QueueState.step, hholds.peek, Option.bind_eq_bind, Option.bind_some] at hstep
  cases content with
  | nil =>
      rw [hholds.dequeue_nil] at hstep
      cases hstep
  | cons data content =>
      obtain ⟨memory, hdequeue, hholds'⟩ := hholds.dequeue
      rw [hdequeue, Option.bind_some, Option.some.injEq] at hstep
      subst hstep
      refine ⟨⟨content, hholds', ?_⟩, hstatus⟩
      rw [List.append_assoc]
      exact horder

/-- The invariant holds in every run. -/
theorem queueMachine_invariant {queue : Nat} {s : QueueState}
    (h : (queueMachine queue).Reached s) : s.Invariant queue := by
  refine Machine.ReachedBy.invariant (I := fun s => s.Invariant queue) ?_ ?_ h
  · rintro s ⟨m, list, dummy, hlist, hdummy, hne, hcreate, hcalls, hdequeued⟩
    refine ⟨⟨[], holds_queueCreate hlist hdummy hne hcreate, ?_⟩, ?_⟩
    · rw [QueueState.enqueued, hcalls, hdequeued]
      rfl
    · rw [hcalls]
      exact fun c hmem => absurd hmem List.not_mem_nil
  · intro s a s' hs _ hstep
    cases a with
    | enqueue data node => exact hs.enqueue hstep
    | dequeue => exact hs.dequeue hstep

/-- What the calls do from a state that meets the invariant. -/
theorem QueueState.Invariant.isFifo {queue : Nat} {s : QueueState} (h : s.Invariant queue) :
    ∃ content, s.IsFifo queue content := by
  obtain ⟨⟨content, hholds, horder⟩, -⟩ := h
  refine ⟨content, hholds, horder, hholds.peek, fun fuel => hholds.size, ?_, ?_, ?_⟩
  · intro data node hfree
    obtain ⟨memory, henqueue, hholds'⟩ := hholds.enqueue hfree 1 data
    refine ⟨{ s with memory, calls := s.calls ++ [⟨data, true, 1⟩] }, ?_, hholds'⟩
    simp only [QueueState.step, henqueue, Option.all_some, decide_eq_true hfree, if_true,
      Option.map_some, Option.isSome_some]
  · intro data
    refine ⟨{ s with calls := s.calls ++ [⟨data, false, 1⟩] }, 1, ?_, rfl, rfl, Int.one_ne_zero⟩
    simp only [QueueState.step, hholds.enqueue_fails Nat.one_pos, Option.all_none, if_true,
      Option.map_some, Option.isSome_none]
  · intro hne
    obtain ⟨data, rest, rfl⟩ := List.exists_cons_of_ne_nil hne
    obtain ⟨memory, hdequeue, hholds'⟩ := hholds.dequeue
    refine ⟨{ s with memory, dequeued := s.dequeued ++ [data] }, ?_, hholds'⟩
    simp only [QueueState.step, hholds.peek, hdequeue, Option.bind_eq_bind, Option.bind_some]
    rfl

/-- In every run the queue is first in, first out; its calls report their success exactly as
long as none has had any. -/
theorem queue_isFifo {queue : Nat} {s : QueueState} (h : (queueMachine queue).Reached s) :
    (∃ content, s.IsFifo queue content) ∧
      (s.ReportsSuccess ↔ ∀ c ∈ s.calls, c.allocated = false) := by
  have hinvariant := queueMachine_invariant h
  refine ⟨hinvariant.isFifo, ?_, ?_⟩
  · intro hreports c hmem
    have hiff := hreports c hmem
    rw [hinvariant.2 c hmem] at hiff
    exact Bool.eq_false_iff.mpr fun hallocated => Int.one_ne_zero (hiff.mpr hallocated)
  · intro hallocated c hmem
    rw [hinvariant.2 c hmem, hallocated c hmem]
    exact iff_of_false Int.one_ne_zero Bool.false_ne_true

/-- An empty memory with a new queue. -/
def newQueue : QueueState :=
  { memory := (queueCreate ⟨⟨fun _ => none, fun _ => none⟩, fun _ => none⟩ (some 8) (some 16)
      (some 32)).1
    calls := []
    dequeued := [] }

theorem queueMachine_start_newQueue : (queueMachine 8).start newQueue :=
  ⟨⟨⟨fun _ => none, fun _ => none⟩, fun _ => none⟩, 16, 32, by decide, by decide, by decide, rfl,
    rfl, rfl⟩

/-- Elements come out in their order, and a call without memory reports it. -/
theorem queue_isFifo_newQueue :
    ∃ s, (queueMachine 8).run newQueue
        [.enqueue 5 (some 48), .enqueue 6 (some 64), .dequeue, .enqueue 7 none, .dequeue] =
      some s ∧ s.dequeued = [5, 6] ∧ (∃ content, s.IsFifo 8 content) ∧
      (s.ReportsSuccess ↔ ∀ c ∈ s.calls, c.allocated = false) := by
  have hrun : (queueMachine 8).run newQueue
      [.enqueue 5 (some 48), .enqueue 6 (some 64), .dequeue, .enqueue 7 none, .dequeue] =
    some _ := rfl
  exact ⟨_, hrun, rfl, queue_isFifo (Machine.Reached.run (.start queueMachine_start_newQueue) hrun)⟩

/-- The element is in the queue, and `QueueEnqueue` returns 1. -/
theorem queue_reportsFailure :
    ∃ s, (queueMachine 8).Reached s ∧ queuePeek s.memory 8 = some 5 ∧
      s.calls = [⟨5, true, 1⟩] ∧ ¬ s.ReportsSuccess := by
  have hrun : (queueMachine 8).run newQueue [.enqueue 5 (some 48)] = some _ := rfl
  refine ⟨_, Machine.Reached.run (.start queueMachine_start_newQueue) hrun, rfl, rfl, ?_⟩
  intro hreports
  have hiff := hreports _ List.mem_cons_self
  exact Int.one_ne_zero (hiff.mpr rfl)

end Ds
end InfinityLabs
