import InfinityLabs.Ds.SllRuns

/-!
# The fixed-size blocking queue

`system_programming/src/producer_consumer/fsq.c`: a singly linked list between two semaphores.
The calls of any number of threads interleave; a semaphore operation, a section under its mutex
and the comparison behind it are one step each.  `malloc` succeeds, and may return an address
that was freed.
-/

namespace InfinityLabs
namespace Ds

open Lib

/-! ## Semaphores -/

/-- `SEM_VALUE_MAX`. -/
def SEM_VALUE_MAX : Nat := 2 ^ 31 - 1

/-- `sem_init`, which takes an `unsigned int` and leaves the semaphore as it is where the value
is too large. -/
def semInit (sem value : Nat) : Nat :=
  if value % 2 ^ 32 ≤ SEM_VALUE_MAX then value % 2 ^ 32 else sem

/-- `sem_wait`, where it does not block. -/
def semWait (sem : Nat) : Option Nat := if sem = 0 then none else some (sem - 1)

/-- `sem_post`, which fails where the value is the largest. -/
def semPost (sem : Nat) : Nat := if sem < SEM_VALUE_MAX then sem + 1 else sem

/-! ## The queue -/

/-- An `fsq_t`, with the memory of its list. -/
structure Fsq where
  memory : SllMemory
  list : Nat
  capacity : Nat
  enqueueSem : Nat
  dequeueSem : Nat

/-- `FSQCreate`, with whether there is memory for the queue, what `malloc` returns for its list,
and what the semaphores hold before. -/
def fsqCreate (m : SllMemory) (allocated : Bool) (list dummy : Option Nat)
    (enqueueSem dequeueSem capacity : Nat) : SllMemory × Option Fsq :=
  if allocated = false then (m, none)
  else
    let (m, list) := m.sllCreate list dummy
    if list = 0 then (m, none)
    else
      (m, some
        { memory := m
          list
          capacity
          enqueueSem := semInit enqueueSem capacity
          dequeueSem := semInit dequeueSem 0 })

namespace Fsq

variable (fsq : Fsq)

/-- The section of `FSQEnqueue` under the write lock, with what `malloc` returns. -/
def insertSection (node data : Nat) : Option (SllMemory × Nat) :=
  (fsq.memory.sllEnd fsq.list).bind fun end_ => fsq.memory.sllInsert 0 (some node) end_ data

/-- The section of `FSQDequeue` under the read lock; whether the element is the only one decides
only on taking the write lock as well. -/
def removeSection : Option (SllMemory × Nat) := do
  let headIter ← fsq.memory.sllBegin fsq.list
  let next ← fsq.memory.sllNext headIter
  if next = 0 then none
  else
    let data ← fsq.memory.sllGetData headIter
    let (memory, _) ← fsq.memory.sllRemove headIter
    some (memory, data)

end Fsq

/-! ## The calls -/

/-- How far a call of `FSQEnqueue` has come. -/
inductive EnqueueCall where
  | called (data : Nat)
  | permitted (data : Nat)
  | inserted (data newNodeIter : Nat)
  | compared (data : Nat) (isEqual : Bool)
  | returned (data : Nat) (status : Int)
  deriving DecidableEq, Repr

/-- How far a call of `FSQDequeue` has come. -/
inductive DequeueCall where
  | called
  | permitted
  | removed (data : Nat)
  | returned (data : Nat)
  deriving DecidableEq, Repr

/-- The queue and its calls, with the items in the order in which they were put and taken. -/
structure FsqState where
  fsq : Fsq
  enqueues : List EnqueueCall
  dequeues : List DequeueCall
  put : List Nat
  taken : List Nat

/-- A new call, or the next step of one; `node` is what `malloc` returns. -/
inductive FsqAction where
  | callEnqueue (data : Nat)
  | waitEnqueue (call : Nat)
  | insert (call node : Nat)
  | compare (call : Nat)
  | postEnqueue (call : Nat)
  | callDequeue
  | waitDequeue (call : Nat)
  | remove (call : Nat)
  | postDequeue (call : Nat)
  deriving DecidableEq, Repr

/-- A step of one of the calls. -/
def FsqState.step (s : FsqState) : FsqAction → Option FsqState
  | .callEnqueue data => some { s with enqueues := s.enqueues ++ [.called data] }
  | .waitEnqueue call =>
      match s.enqueues[call]? with
      | some (.called data) =>
          (semWait s.fsq.enqueueSem).map fun enqueueSem =>
            { s with
              fsq := { s.fsq with enqueueSem }
              enqueues := s.enqueues.set call (.permitted data) }
      | _ => none
  | .insert call node =>
      match s.enqueues[call]? with
      | some (.permitted data) =>
          if s.fsq.memory.IsFree node then
            (s.fsq.insertSection node data).map fun (memory, newNodeIter) =>
              { s with
                fsq := { s.fsq with memory }
                enqueues := s.enqueues.set call (.inserted data newNodeIter)
                put := s.put ++ [data] }
          else none
      | _ => none
  | .compare call =>
      match s.enqueues[call]? with
      | some (.inserted data newNodeIter) =>
          (s.fsq.memory.sllEnd s.fsq.list).map fun end_ =>
            { s with enqueues := s.enqueues.set call (.compared data (end_ == newNodeIter)) }
      | _ => none
  | .postEnqueue call =>
      match s.enqueues[call]? with
      | some (.compared data true) =>
          some
            { s with
              fsq := { s.fsq with enqueueSem := semPost s.fsq.enqueueSem }
              enqueues := s.enqueues.set call (.returned data (-1)) }
      | some (.compared data false) =>
          some
            { s with
              fsq := { s.fsq with dequeueSem := semPost s.fsq.dequeueSem }
              enqueues := s.enqueues.set call (.returned data 0) }
      | _ => none
  | .callDequeue => some { s with dequeues := s.dequeues ++ [.called] }
  | .waitDequeue call =>
      match s.dequeues[call]? with
      | some .called =>
          (semWait s.fsq.dequeueSem).map fun dequeueSem =>
            { s with
              fsq := { s.fsq with dequeueSem }
              dequeues := s.dequeues.set call .permitted }
      | _ => none
  | .remove call =>
      match s.dequeues[call]? with
      | some .permitted =>
          s.fsq.removeSection.map fun (memory, data) =>
            { s with
              fsq := { s.fsq with memory }
              dequeues := s.dequeues.set call (.removed data)
              taken := s.taken ++ [data] }
      | _ => none
  | .postDequeue call =>
      match s.dequeues[call]? with
      | some (.removed data) =>
          some
            { s with
              fsq := { s.fsq with enqueueSem := semPost s.fsq.enqueueSem }
              dequeues := s.dequeues.set call (.returned data) }
      | _ => none

/-- The runs of a queue from `FSQCreate` on. -/
def fsqMachine (capacity : Nat) : Machine FsqState FsqAction where
  start s := ∃ (m m' : SllMemory) (list dummy enqueueSem dequeueSem : Nat),
    m.IsFree list ∧ m.IsFree dummy ∧ dummy ≠ list ∧
    fsqCreate m true (some list) (some dummy) enqueueSem dequeueSem capacity =
      (m', some s.fsq) ∧
    s.enqueues = [] ∧ s.dequeues = [] ∧ s.put = [] ∧ s.taken = []
  step := FsqState.step

/-! ## What the calls hold -/

/-- The call has a permit for its insertion. -/
def EnqueueCall.isPermitted : EnqueueCall → Bool
  | .permitted _ => true
  | _ => false

/-- The call has put its item and is to post it. -/
def EnqueueCall.isUnposted : EnqueueCall → Bool
  | .inserted _ _ | .compared _ false => true
  | _ => false

/-- The iterator that the call is to compare with the end. -/
def EnqueueCall.pending? : EnqueueCall → Option Nat
  | .inserted _ newNodeIter => some newNodeIter
  | _ => none

/-- The item that the call has put. -/
def EnqueueCall.put? : EnqueueCall → Option Nat
  | .inserted data _ | .compared data _ | .returned data _ => some data
  | _ => none

/-- The call reports a failure. -/
def EnqueueCall.isFailed : EnqueueCall → Bool
  | .compared _ isEqual => isEqual
  | .returned _ status => status != 0
  | _ => false

/-- The call has a permit for its removal. -/
def DequeueCall.isPermitted : DequeueCall → Bool
  | .permitted => true
  | _ => false

/-- The call has taken its item and is to post the free place. -/
def DequeueCall.isUnposted : DequeueCall → Bool
  | .removed _ => true
  | _ => false

/-- The item that the call has taken. -/
def DequeueCall.taken? : DequeueCall → Option Nat
  | .removed data | .returned data => some data
  | _ => none

/-- `malloc` does not return the node of an insertion that is yet to be compared with the end. -/
def FsqState.Fresh (s : FsqState) : FsqAction → Prop
  | .insert _ node => ∀ call ∈ s.enqueues, call.pending? ≠ some node
  | _ => True

instance FsqState.decidableFresh (s : FsqState) : (a : FsqAction) → Decidable (s.Fresh a)
  | .insert _ node => inferInstanceAs (Decidable (∀ call ∈ s.enqueues, call.pending? ≠ some node))
  | .callEnqueue _ | .waitEnqueue _ | .compare _ | .postEnqueue _ | .callDequeue | .waitDequeue _
  | .remove _ | .postDequeue _ => instDecidableTrue

end Ds
end InfinityLabs
