import InfinityLabs.Ds.HeapRuns
import InfinityLabs.Ds.Uid
import InfinityLabs.Lib.Runs

/-!
# Tasks

`projects/sched/src/task.c`.  Functions and their parameters are pointers, which the
scheduler only stores and passes on: they are of an arbitrary type `P`.
-/

namespace InfinityLabs
namespace Sched

open Ds

/-- A `task_t`. -/
structure Task (P : Type) where
  uid : Uid
  timeToExecute : Int
  opFunc : P
  opParam : P
  cleanupFunc : P
  cleanupParam : P
  deriving DecidableEq, Repr

/-- What the system answers in a call of `TaskCreate`. -/
structure TaskEnv where
  malloc : Bool
  timestamp : Int
  pid : Int
  address : Option (List UInt8)

variable {P : Type}

/-- A `size_t` as a `time_t`. -/
def timeOf (interval : Nat) : Int := (interval : Int).bmod (2 ^ 64)

/-- `TaskCreate` at the time `now`, with the counter of the identifiers. -/
def taskCreate (env : TaskEnv) (now : Int) (counter : Nat) (opFunc opParam : P)
    (intervalInSec : Nat) (cleanupFunc cleanupParam : P) : Option (Task P) × Nat :=
  if env.malloc = false then (none, counter)
  else
    let (uid, counter) := uidCreate env.timestamp env.pid env.address counter
    if uidIsSame uid UIDbadUID ≠ 0 then (none, counter)
    else (some ⟨uid, now + timeOf intervalInSec, opFunc, opParam, cleanupFunc, cleanupParam⟩,
      counter)

/-- A task that was created has its function, and not the bad identifier. -/
theorem taskCreate_some {env : TaskEnv} {now : Int} {counter : Nat} {opFunc opParam : P}
    {intervalInSec : Nat} {cleanupFunc cleanupParam : P} {task : Task P}
    (h : (taskCreate env now counter opFunc opParam intervalInSec cleanupFunc cleanupParam).1 =
      some task) :
    task.opFunc = opFunc ∧ uidIsSame task.uid UIDbadUID = 0 := by
  unfold taskCreate at h
  split at h
  · cases h
  · dsimp only at h
    split at h
    · cases h
    · rename_i hsame
      obtain rfl := Option.some.inj h
      exact ⟨rfl, not_not.mp hsame⟩

/-- `TaskSetTimeToRun` at the time `now`. -/
def taskSetTimeToRun (task : Task P) (now : Int) (intervalInSec : Nat) : Task P :=
  { task with timeToExecute := now + timeOf intervalInSec }

/-- `TaskGetTimeToRun` at the time `now`. -/
def taskGetTimeToRun (task : Task P) (now : Int) : Nat :=
  (max (task.timeToExecute - now) 0).toNat

/-- `TaskIsMatch`. -/
def taskIsMatch (task : Task P) (uid : Uid) : Int := uidIsSame task.uid uid

/-- `TaskCmp`. -/
def taskCmp (task1 task2 : Task P) : Int :=
  if task1.timeToExecute < task2.timeToExecute then -1
  else if task1.timeToExecute > task2.timeToExecute then 1
  else 0

/-!
## The scheduler

`projects/sched/src/sched.c`.  The queue is a heap whose root is due first.  `HeapPush` has
the memory that it needs: where the vector of the heap cannot grow it destroys itself, and
no later call on the scheduler is defined.

`SchedRun` is cut into the steps between which an operation of a task runs, because an
operation may itself call the scheduler.
-/

open Lib Lib.BinaryHeap

/-! ## The functions -/

/-- `WrapperTaskCmp`. -/
def wrapperTaskCmp (task1 task2 : Task P) : Int := taskCmp task2 task1

/-- `WrapperTaskIsMatch`. -/
def wrapperTaskIsMatch (task : Task P) (uid : Uid) : Int := taskIsMatch task uid

/-- A `run_status_e`. -/
inductive RunStatus where
  | SUCCESS
  | PAUSED
  | FAILED_TASKS_EMPTY_SCHED
  | FAILED_TASKS_NON_EMPTY_SCHED
  | FAILED_ALLOC
  deriving DecidableEq, Repr

/-- A `sched_t`. -/
structure Scheduler (P : Type) where
  heap : Heap (Task P)
  stopFlag : Bool

/-- `SchedCreate`, where `malloc` succeeds. -/
def schedCreate : Scheduler P := ⟨heapCreate wrapperTaskCmp, false⟩

/-- `SchedIsEmpty`. -/
def schedIsEmpty (sch : Scheduler P) : Bool := heapIsEmpty sch.heap

/-- `SchedSize`. -/
def schedSize (sch : Scheduler P) : Nat := heapSize sch.heap

/-- `SchedStop`. -/
def schedStop (sch : Scheduler P) : Scheduler P := { sch with stopFlag := true }

/-- What `SchedAdd` leaves and returns, with the task that it has created. -/
structure Addition (P : Type) where
  sch : Scheduler P
  uid : Uid
  task : Option (Task P)
  counter : Nat

/-- `SchedAdd` at the time `now`. -/
def schedAdd (env : TaskEnv) (now : Int) (counter : Nat) (sch : Scheduler P)
    (opFunc param : P) (timeExe : Nat) (cleanupFunc cleanupParam : P) : Addition P :=
  match taskCreate env now counter opFunc param timeExe cleanupFunc cleanupParam with
  | (none, counter) => ⟨sch, UIDbadUID, none, counter⟩
  | (some newTask, counter) =>
      ⟨{ sch with heap := heapPush sch.heap newTask }, newTask.uid, some newTask, counter⟩

/-- `SchedRemove`, with its status and the task that it destroys. -/
def schedRemove (sch : Scheduler P) (uid : Uid) : Scheduler P × Int × Option (Task P) :=
  match heapRemove sch.heap uid wrapperTaskIsMatch with
  | (heap, none) => ({ sch with heap := heap }, 1, none)
  | (heap, some taskToRemove) => ({ sch with heap := heap }, 0, some taskToRemove)

/-- `SchedClear`, with the tasks that it destroys in their order. -/
def schedClear (sch : Scheduler P) : Option (Scheduler P × List (Task P)) := do
  let (destroyed, heap) ← drain (schedSize sch) sch.heap
  some ({ sch with heap := heap }, destroyed)

/-- `ComputeExitStatus`. -/
def computeExitStatus (sch : Scheduler P) (hadFail : Bool) : RunStatus :=
  if hadFail then
    if heapIsEmpty sch.heap then .FAILED_TASKS_EMPTY_SCHED else .FAILED_TASKS_NON_EMPTY_SCHED
  else if heapIsEmpty sch.heap then .SUCCESS
  else .PAUSED

/-! ## The machine -/

/-- Where `SchedRun` is: at the head of its loop, in `sleep` for a task, or in the operation
of a task. -/
inductive RunPhase (P : Type) where
  | idle
  | looping (hadFail : Bool)
  | waiting (hadFail : Bool) (task : Task P) (toSleep : Nat)
  | executing (hadFail : Bool) (task : Task P)
  | destroyed

/-- What can be seen of a run. -/
inductive SchedEvent (P : Type) where
  | created (task : Task P)
  | executed (task : Task P) (time : Int)
  | cleanedUp (task : Task P)
  | returned (status : RunStatus)

/-- A scheduler in its process, with the events so far, the last one first. -/
structure SchedState (P : Type) where
  sch : Scheduler P
  counter : Nat
  clock : Int
  phase : RunPhase P
  events : List (SchedEvent P)

/-- The calls on the scheduler, the steps of `SchedRun`, and the clock. -/
inductive SchedAction (P : Type) where
  | add (env : TaskEnv) (opFunc param : P) (timeExe : Nat) (cleanupFunc cleanupParam : P)
  | remove (uid : Uid)
  | clear
  | stop
  | destroy
  | run
  | next
  | sleep (slept unslept : Nat)
  | execute
  | finish (result : Int)
  | tick (seconds : Nat)

/-- The scheduler is called between runs, and by operations. -/
def RunPhase.callable : RunPhase P → Bool
  | .idle => true
  | .executing _ _ => true
  | _ => false

/-- The task that `SchedRun` has taken out of the queue. -/
def RunPhase.held : RunPhase P → Option (Task P)
  | .waiting _ task _ => some task
  | .executing _ task => some task
  | _ => none

/-- The destruction of tasks, the last one first. -/
def cleanUps (tasks : List (Task P)) : List (SchedEvent P) :=
  (tasks.map .cleanedUp).reverse

/-- A step.  `sleep` takes an `unsigned int`, and returns what it has not slept. -/
def SchedState.step (s : SchedState P) : SchedAction P → Option (SchedState P)
  | .add env opFunc param timeExe cleanupFunc cleanupParam =>
      if s.phase.callable then
        let added := schedAdd env s.clock s.counter s.sch opFunc param timeExe cleanupFunc
          cleanupParam
        some { s with
          sch := added.sch
          counter := added.counter
          events := (added.task.map .created).toList ++ s.events }
      else none
  | .remove uid =>
      if s.phase.callable then
        let (sch, _, destroyed) := schedRemove s.sch uid
        some { s with sch := sch, events := cleanUps destroyed.toList ++ s.events }
      else none
  | .clear =>
      if s.phase.callable then do
        let (sch, destroyed) ← schedClear s.sch
        some { s with sch := sch, events := cleanUps destroyed ++ s.events }
      else none
  | .stop => if s.phase.callable then some { s with sch := schedStop s.sch } else none
  | .destroy =>
      match s.phase with
      | .idle => do
          let (sch, destroyed) ← schedClear s.sch
          some { s with
            sch := sch
            phase := .destroyed
            events := cleanUps destroyed ++ s.events }
      | _ => none
  | .run =>
      match s.phase with
      | .idle => some { s with
          sch := { s.sch with stopFlag := false }
          phase := .looping false }
      | _ => none
  | .next =>
      match s.phase with
      | .looping hadFail =>
          if !s.sch.stopFlag && !heapIsEmpty s.sch.heap then do
            let task ← heapPeek s.sch.heap
            let heap ← heapPop s.sch.heap
            some { s with
              sch := { s.sch with heap := heap }
              phase := .waiting hadFail task (taskGetTimeToRun task s.clock) }
          else some { s with
            phase := .idle
            events := .returned (computeExitStatus s.sch hadFail) :: s.events }
      | _ => none
  | .sleep slept unslept =>
      match s.phase with
      | .waiting hadFail task toSleep =>
          -- an `unsigned int` has the last 32 bits of a `size_t`
          if toSleep ≠ 0 ∧ unslept ≤ toSleep % 2 ^ 32 ∧ toSleep % 2 ^ 32 ≤ slept + unslept then
            some { s with clock := s.clock + slept, phase := .waiting hadFail task unslept }
          else none
      | _ => none
  | .execute =>
      match s.phase with
      | .waiting hadFail task 0 => some { s with
          phase := .executing hadFail task
          events := .executed task s.clock :: s.events }
      | _ => none
  | .finish result =>
      match s.phase with
      | .executing hadFail task =>
          -- what is not run again is destroyed
          if result < 0 then
            some { s with phase := .looping true, events := .cleanedUp task :: s.events }
          else if result = 0 then
            some { s with phase := .looping hadFail, events := .cleanedUp task :: s.events }
          else some { s with
            sch := { s.sch with
              heap := heapPush s.sch.heap (taskSetTimeToRun task s.clock result.toNat) }
            phase := .looping hadFail }
      | _ => none
  | .tick seconds => some { s with clock := s.clock + seconds }

/-- The runs of a process that starts with `SchedCreate`, at any time and with any number
of identifiers given before. -/
def schedMachine (P : Type) : Machine (SchedState P) (SchedAction P) where
  start s := ∃ counter clock, s = ⟨schedCreate, counter, clock, .idle, []⟩
  step s a := s.step a

/-! ## The queue -/

/-- One task is below another in the queue when it is due later. -/
theorem wrapperTaskCmp_neg {task1 task2 : Task P} :
    wrapperTaskCmp task1 task2 < 0 ↔ task2.timeToExecute < task1.timeToExecute := by
  rw [wrapperTaskCmp, taskCmp]
  split
  · simp_all
  · split <;> simp_all

/-- One task is above another in the queue when it is due earlier. -/
theorem wrapperTaskCmp_pos {task1 task2 : Task P} :
    0 < wrapperTaskCmp task1 task2 ↔ task1.timeToExecute < task2.timeToExecute := by
  rw [wrapperTaskCmp, taskCmp]
  split
  · simp_all [Int.le_of_lt]
  · split <;> simp_all

/-- The order of the queue: what is due first is greatest. -/
def taskOrder (P : Type) : Comparator (Task P) where
  cmp := wrapperTaskCmp
  swap task1 task2 := by rw [wrapperTaskCmp_neg, wrapperTaskCmp_pos]
  trans task1 task2 task3 := by
    simp only [← Int.not_lt, wrapperTaskCmp_pos]
    omega

/-- The queue is a heap. -/
def Scheduler.Wf (sch : Scheduler P) : Prop :=
  sch.heap.Wf (taskOrder P)

/-- The queued tasks. -/
def Scheduler.queue (sch : Scheduler P) : List (Task P) :=
  sch.heap.vector.toList

/-- A scheduler is empty when nothing is queued. -/
theorem queue_eq_nil {sch : Scheduler P} (hempty : schedIsEmpty sch = true) : sch.queue = [] := by
  rw [Scheduler.queue, Array.eq_empty_of_size_eq_zero (heapIsEmpty_iff.mp hempty)]

/-- The root of the queue is due first. -/
theorem Scheduler.Wf.first {sch : Scheduler P} (h : sch.Wf) {task : Task P}
    (hpeek : heapPeek sch.heap = some task) :
    ∀ x ∈ sch.queue, task.timeToExecute ≤ x.timeToExecute := by
  intro x hx
  have hle : wrapperTaskCmp x task ≤ 0 := (Heap.Wf.peek h hpeek).2 x (Array.mem_toList_iff.mp hx)
  exact Int.not_lt.mp fun hlt => absurd (wrapperTaskCmp_pos.mpr hlt) (Int.not_lt.mpr hle)

/-- `SchedAdd` keeps the queue a heap. -/
theorem Scheduler.Wf.add {sch : Scheduler P} (h : sch.Wf) (env : TaskEnv) (now : Int)
    (counter : Nat) (opFunc param : P) (timeExe : Nat) (cleanupFunc cleanupParam : P) :
    (schedAdd env now counter sch opFunc param timeExe cleanupFunc cleanupParam).sch.Wf := by
  rw [schedAdd]
  split
  · exact h
  · exact Heap.Wf.push h _

/-- `SchedRemove` keeps the queue a heap. -/
theorem Scheduler.Wf.remove {sch : Scheduler P} (h : sch.Wf) (uid : Uid) :
    (schedRemove sch uid).1.Wf := by
  rw [schedRemove]
  rcases heapRemove_cases sch.heap uid wrapperTaskIsMatch with ⟨-, hnone⟩ | ⟨i, hi, -, -, hsome⟩
  · rw [hnone]
    exact h
  · rw [hsome]
    exact Heap.Wf.removeAt h hi

/-- `SchedClear` leaves an empty queue, and destroys what was queued. -/
theorem Scheduler.Wf.clear {sch : Scheduler P} (h : sch.Wf) :
    ∃ sch' destroyed, schedClear sch = some (sch', destroyed) ∧ sch'.Wf ∧
      schedIsEmpty sch' = true ∧ sch'.stopFlag = sch.stopFlag ∧
        destroyed.Perm sch.heap.vector.toList := by
  obtain ⟨l, empty, hdrain, hempty, hwf, hperm, -⟩ := Heap.Wf.drain h (Nat.le_refl _)
  refine ⟨{ sch with heap := empty }, l, ?_, hwf, hempty, rfl, hperm⟩
  rw [schedClear, schedSize, heapSize, hdrain]
  rfl

/-- `SchedRemove` destroys at most one task. -/
theorem schedRemove_perm (sch : Scheduler P) (uid : Uid) :
    sch.queue.Perm ((schedRemove sch uid).2.2.toList ++ (schedRemove sch uid).1.queue) := by
  rw [schedRemove]
  rcases heapRemove_cases sch.heap uid wrapperTaskIsMatch with ⟨-, hnone⟩ | ⟨i, hi, -, -, hsome⟩
  · rw [hnone]
    exact List.Perm.refl _
  · rw [hsome]
    exact removeAt_perm sch.heap hi

/-- `SchedAdd` puts in the task that it creates. -/
theorem schedAdd_perm (env : TaskEnv) (now : Int) (counter : Nat) (sch : Scheduler P)
    (opFunc param : P) (timeExe : Nat) (cleanupFunc cleanupParam : P) :
    let added := schedAdd env now counter sch opFunc param timeExe cleanupFunc cleanupParam
    added.sch.queue.Perm (added.task.toList ++ sch.queue) := by
  unfold schedAdd
  split
  · exact List.Perm.refl _
  · exact heapPush_perm sch.heap _

/-- `SchedAdd` leaves the stop flag. -/
theorem stopFlag_schedAdd (env : TaskEnv) (now : Int) (counter : Nat) (sch : Scheduler P)
    (opFunc param : P) (timeExe : Nat) (cleanupFunc cleanupParam : P) :
    (schedAdd env now counter sch opFunc param timeExe cleanupFunc cleanupParam).sch.stopFlag =
      sch.stopFlag := by
  unfold schedAdd
  split <;> rfl

/-- `SchedRemove` leaves the stop flag. -/
theorem stopFlag_schedRemove (sch : Scheduler P) (uid : Uid) :
    (schedRemove sch uid).1.stopFlag = sch.stopFlag := by
  unfold schedRemove
  split <;> rfl

/-- The task that `SchedAdd` creates has its function. -/
theorem opFunc_of_schedAdd {env : TaskEnv} {now : Int} {counter : Nat} {sch : Scheduler P}
    {opFunc param : P} {timeExe : Nat} {cleanupFunc cleanupParam : P} {task : Task P}
    (h : task ∈ (schedAdd env now counter sch opFunc param timeExe cleanupFunc cleanupParam).task) :
    task.opFunc = opFunc := by
  unfold schedAdd at h
  split at h
  · cases h
  · rename_i newTask _ hcreate
    obtain rfl := Option.some.inj h
    exact (taskCreate_some (congrArg Prod.fst hcreate)).1

/-! ## What a step does -/

/-- What a step does to the scheduler, the phase, the clock and the events. -/
inductive SchedState.Effect (s : SchedState P) : SchedAction P → SchedState P → Prop
  | add {env : TaskEnv} {opFunc param : P} {timeExe : Nat} {cleanupFunc cleanupParam : P}
      (task : Option (Task P)) (sch : Scheduler P) (counter : Nat)
      (hcallable : s.phase.callable = true)
      (hqueue : sch.queue.Perm (task.toList ++ s.sch.queue))
      (hfunc : ∀ new ∈ task, new.opFunc = opFunc)
      (htask : task = (schedAdd env s.clock s.counter s.sch opFunc param timeExe cleanupFunc
        cleanupParam).task) (hstop : sch.stopFlag = s.sch.stopFlag) :
      Effect s (.add env opFunc param timeExe cleanupFunc cleanupParam) { s with
        sch := sch
        counter := counter
        events := (task.map .created).toList ++ s.events }
  | remove {uid : Uid} (task : Option (Task P)) (sch : Scheduler P)
      (hcallable : s.phase.callable = true)
      (hqueue : s.sch.queue.Perm (task.toList ++ sch.queue))
      (hstop : sch.stopFlag = s.sch.stopFlag) :
      Effect s (.remove uid) { s with sch := sch, events := cleanUps task.toList ++ s.events }
  | clear (destroyed : List (Task P)) (sch : Scheduler P) (hcallable : s.phase.callable = true)
      (hqueue : s.sch.queue.Perm destroyed) (hempty : sch.queue = [])
      (hstop : sch.stopFlag = s.sch.stopFlag) :
      Effect s .clear { s with sch := sch, events := cleanUps destroyed ++ s.events }
  | stop (hcallable : s.phase.callable = true) : Effect s .stop { s with sch := schedStop s.sch }
  | destroy (destroyed : List (Task P)) (sch : Scheduler P) (hphase : s.phase = .idle)
      (hqueue : s.sch.queue.Perm destroyed) (hempty : sch.queue = [])
      (hstop : sch.stopFlag = s.sch.stopFlag) :
      Effect s .destroy { s with
        sch := sch
        phase := .destroyed
        events := cleanUps destroyed ++ s.events }
  | run (hphase : s.phase = .idle) :
      Effect s .run { s with sch := { s.sch with stopFlag := false }, phase := .looping false }
  | take (hadFail : Bool) (task : Task P) (sch : Scheduler P)
      (hphase : s.phase = .looping hadFail) (hstop : s.sch.stopFlag = false)
      (hpeek : heapPeek s.sch.heap = some task) (hqueue : s.sch.queue.Perm (task :: sch.queue))
      (hfirst : ∀ x ∈ sch.queue, task.timeToExecute ≤ x.timeToExecute)
      (hkeep : sch.stopFlag = s.sch.stopFlag) :
      Effect s .next { s with
        sch := sch
        phase := .waiting hadFail task (taskGetTimeToRun task s.clock) }
  | leave (hadFail : Bool) (hphase : s.phase = .looping hadFail)
      (hend : s.sch.stopFlag = true ∨ schedIsEmpty s.sch = true) :
      Effect s .next { s with
        phase := .idle
        events := .returned (computeExitStatus s.sch hadFail) :: s.events }
  | sleep {slept unslept : Nat} (hadFail : Bool) (task : Task P) (toSleep : Nat)
      (hphase : s.phase = .waiting hadFail task toSleep)
      (hslept : toSleep % 2 ^ 32 ≤ slept + unslept) (hunslept : unslept ≤ toSleep % 2 ^ 32) :
      Effect s (.sleep slept unslept) { s with
        clock := s.clock + slept
        phase := .waiting hadFail task unslept }
  | execute (hadFail : Bool) (task : Task P) (hphase : s.phase = .waiting hadFail task 0) :
      Effect s .execute { s with
        phase := .executing hadFail task
        events := .executed task s.clock :: s.events }
  | fail {result : Int} (hadFail : Bool) (task : Task P)
      (hphase : s.phase = .executing hadFail task) (hresult : result < 0) :
      Effect s (.finish result) { s with
        phase := .looping true
        events := .cleanedUp task :: s.events }
  | cease {result : Int} (hadFail : Bool) (task : Task P)
      (hphase : s.phase = .executing hadFail task) (hresult : result = 0) :
      Effect s (.finish result) { s with
        phase := .looping hadFail
        events := .cleanedUp task :: s.events }
  | rearm {result : Int} (hadFail : Bool) (task : Task P) (sch : Scheduler P)
      (hphase : s.phase = .executing hadFail task) (hresult : 0 < result)
      (hqueue : sch.queue.Perm (taskSetTimeToRun task s.clock result.toNat :: s.sch.queue))
      (hstop : sch.stopFlag = s.sch.stopFlag) :
      Effect s (.finish result) { s with sch := sch, phase := .looping hadFail }
  | tick {seconds : Nat} : Effect s (.tick seconds) { s with clock := s.clock + seconds }

/-- **What a step can do**, and that it keeps the queue a heap. -/
theorem SchedState.step_effect {s s' : SchedState P} {a : SchedAction P} (h : s.sch.Wf)
    (hstep : s.step a = some s') : s'.sch.Wf ∧ s.Effect a s' := by
  cases a with
  | add env opFunc param timeExe cleanupFunc cleanupParam =>
      rw [SchedState.step] at hstep
      split at hstep
      · rename_i hcallable
        obtain rfl := Option.some.inj hstep
        exact ⟨h.add env _ _ _ _ _ _ _,
          .add _ _ _ hcallable (schedAdd_perm env s.clock s.counter s.sch _ _ _ _ _)
            (fun _ hnew => opFunc_of_schedAdd hnew) rfl (stopFlag_schedAdd _ _ _ _ _ _ _ _ _)⟩
      · cases hstep
  | remove uid =>
      rw [SchedState.step] at hstep
      split at hstep
      · rename_i hcallable
        obtain rfl := Option.some.inj hstep
        exact ⟨h.remove uid, .remove _ _ hcallable (schedRemove_perm s.sch uid)
          (stopFlag_schedRemove s.sch uid)⟩
      · cases hstep
  | clear =>
      rw [SchedState.step] at hstep
      split at hstep
      · rename_i hcallable
        obtain ⟨sch', destroyed, hclear, hwf, hempty, hstop, hperm⟩ := h.clear
        rw [hclear] at hstep
        obtain rfl := Option.some.inj hstep
        exact ⟨hwf, .clear _ _ hcallable hperm.symm (queue_eq_nil hempty) hstop⟩
      · cases hstep
  | stop =>
      rw [SchedState.step] at hstep
      split at hstep
      · rename_i hcallable
        obtain rfl := Option.some.inj hstep
        exact ⟨h, .stop hcallable⟩
      · cases hstep
  | destroy =>
      rw [SchedState.step] at hstep
      split at hstep
      · rename_i hphase
        obtain ⟨sch', destroyed, hclear, hwf, hempty, hstop, hperm⟩ := h.clear
        rw [hclear] at hstep
        obtain rfl := Option.some.inj hstep
        exact ⟨hwf, .destroy _ _ hphase hperm.symm (queue_eq_nil hempty) hstop⟩
      · cases hstep
  | run =>
      rw [SchedState.step] at hstep
      split at hstep
      · rename_i hphase
        obtain rfl := Option.some.inj hstep
        exact ⟨h, .run hphase⟩
      · cases hstep
  | next =>
      rw [SchedState.step] at hstep
      split at hstep
      · rename_i hadFail hphase
        split at hstep
        · rename_i hgo
          have hstop : s.sch.stopFlag = false := by
            simp only [Bool.and_eq_true, Bool.not_eq_true'] at hgo
            exact hgo.1
          cases hpeek : heapPeek s.sch.heap with
          | none =>
              rw [hpeek] at hstep
              cases hstep
          | some task =>
              obtain ⟨heap', hpop, hwf, hperm⟩ := Heap.Wf.pop h hpeek
              rw [hpeek, hpop] at hstep
              obtain rfl := Option.some.inj hstep
              refine ⟨hwf, .take _ _ _ hphase hstop hpeek hperm (fun x hx => ?_) rfl⟩
              exact h.first hpeek x (hperm.mem_iff.mpr (List.mem_cons_of_mem task hx))
        · rename_i hend
          obtain rfl := Option.some.inj hstep
          refine ⟨h, .leave hadFail hphase ?_⟩
          cases hstop : s.sch.stopFlag with
          | true => exact Or.inl rfl
          | false => exact Or.inr (by simpa [hstop, schedIsEmpty] using hend)
      · cases hstep
  | sleep slept unslept =>
      rw [SchedState.step] at hstep
      split at hstep
      · rename_i hadFail task toSleep hphase
        split at hstep
        · rename_i hsleep
          obtain rfl := Option.some.inj hstep
          exact ⟨h, .sleep hadFail task toSleep hphase hsleep.2.2 hsleep.2.1⟩
        · cases hstep
      · cases hstep
  | execute =>
      rw [SchedState.step] at hstep
      split at hstep
      · rename_i hadFail task hphase
        obtain rfl := Option.some.inj hstep
        exact ⟨h, .execute hadFail task hphase⟩
      · cases hstep
  | finish result =>
      rw [SchedState.step] at hstep
      split at hstep
      · rename_i hadFail task hphase
        split at hstep
        · rename_i hneg
          obtain rfl := Option.some.inj hstep
          exact ⟨h, .fail hadFail task hphase hneg⟩
        · rename_i hnotNeg
          split at hstep
          · rename_i hzero
            obtain rfl := Option.some.inj hstep
            exact ⟨h, .cease hadFail task hphase hzero⟩
          · rename_i hnotZero
            have hpos : 0 < result := by omega
            obtain rfl := Option.some.inj hstep
            exact ⟨Heap.Wf.push h _, .rearm hadFail task _ hphase hpos (heapPush_perm _ _) rfl⟩
      · cases hstep
  | tick seconds =>
      obtain rfl := Option.some.inj hstep
      exact ⟨h, .tick⟩

/-- A step keeps the queue a heap. -/
theorem SchedState.step_wf {s s' : SchedState P} {a : SchedAction P} (h : s.sch.Wf)
    (hstep : s.step a = some s') : s'.sch.Wf :=
  (step_effect h hstep).1

/-- **In every reachable scheduler the queue is a heap.** -/
theorem schedMachine_wf {s : SchedState P} (hreached : (schedMachine P).Reached s) :
    s.sch.Wf := by
  refine hreached.invariant (I := fun s => s.sch.Wf) ?_ fun s a s' h _ hstep =>
    SchedState.step_wf h hstep
  rintro s ⟨counter, clock, rfl⟩
  exact wf_heapCreate

end Sched
end InfinityLabs
