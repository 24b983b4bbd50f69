import InfinityLabs.Lib.ListParts
import InfinityLabs.Lib.Runs

/-!
# The thread pool

`projects/final_project/framework/src/thread_pool.cpp` with its queue of tasks.  One thread
calls `Run`, `Pause`, `SetNumOfThreads` and `Stop`, any thread calls `Add`, and the workers
take tasks; all of them take their steps in any order.  A call that changes the pool in
several steps is in progress between them.

A `WaitableQueue` is locked for every operation, so a `push` and a `pop` are single steps; a
`pop` waits while its queue is empty, and the queue of tasks gives a task that no other one
exceeds in priority.  Allocations succeed.
-/

namespace InfinityLabs
namespace Framework

open Lib

/-! ## Tasks -/

/-- An `e_Priority`. -/
inductive Priority where
  | low
  | medium
  | high
  deriving DecidableEq, Repr

/-- The value of a priority. -/
def Priority.value : Priority → Int
  | .low => 1
  | .medium => 2
  | .high => 3

/-- `m_bad_apple_pause_priority`. -/
def badApplePausePriority : Int := Priority.high.value + 1

/-- `m_bad_apple_stop_priority`. -/
def badAppleStopPriority : Int := Priority.low.value - 1

/-- An entry of the queue: a task that was added, with its number, or a task of the pool. -/
inductive Task where
  | user (id : Nat) (priority : Priority)
  | badApplePause
  | badAppleStop
  deriving DecidableEq, Repr

/-- The priority of an entry. -/
def Task.priority : Task → Int
  | .user _ priority => priority.value
  | .badApplePause => badApplePausePriority
  | .badAppleStop => badAppleStopPriority

/-- The entry may be at the front of the queue: `Comp` puts no other one before it. -/
def IsFront (tasks : List Task) (t : Task) : Prop := ∀ u ∈ tasks, u.priority ≤ t.priority

instance (tasks : List Task) (t : Task) : Decidable (IsFront tasks t) :=
  inferInstanceAs (Decidable (∀ u ∈ tasks, u.priority ≤ t.priority))

/-! ## The pool -/

/-- Where a worker is in `RunThread`: in `pop`, in the `Execute` of a task that was added or
of a pause task, or behind its loop. -/
inductive Worker where
  | popping
  | executing (id : Nat)
  | pausing
  | leaving
  deriving DecidableEq, Repr

/-- The call that is in progress, with the rounds that are left of its loop.  `newNumThreads`
is the argument of `SetNumOfThreads`. -/
inductive Call where
  | idle
  | pause (rounds : Nat)
  | stretchPause (rounds numToAdd newNumThreads : Nat)
  | stretchCreate (rounds newNumThreads : Nat)
  | shrinkStop (rounds numToRemove newNumThreads : Nat)
  | shrinkRemove (rounds numToRemove newNumThreads : Nat)
  deriving DecidableEq, Repr

/-- A pool.  `workers` are the threads that run, `threadsToRemove` counts the workers in
`m_threads_to_remove`, and `semPause` the permits of `m_sem_pause`.  `nextId` numbers the
tasks that are added; `started` and `finished` are the tasks whose `Execute` began and
returned, the last one first. -/
structure ThreadPool where
  threadsToRemove : Nat
  numThreads : Nat
  isPaused : Bool
  tasks : List Task
  semPause : Nat
  workers : List Worker
  call : Call
  nextId : Nat
  started : List Nat
  finished : List Nat
  deriving DecidableEq, Repr

/-- `m_tasks.push`. -/
def ThreadPool.push (pool : ThreadPool) (t : Task) : ThreadPool :=
  { pool with tasks := t :: pool.tasks }

/-- `Add`. -/
def ThreadPool.add (pool : ThreadPool) (priority : Priority) : ThreadPool :=
  { pool.push (.user pool.nextId priority) with nextId := pool.nextId + 1 }

/-- `Run`. -/
def ThreadPool.run (pool : ThreadPool) : ThreadPool :=
  if pool.isPaused then
    { pool with semPause := pool.semPause + pool.numThreads, isPaused := false }
  else pool

/-- `Pause`, up to its loop. -/
def ThreadPool.pause (pool : ThreadPool) : ThreadPool :=
  if pool.isPaused then pool
  else { pool with isPaused := true, call := .pause pool.numThreads }

/-- `StretchThreads`, up to its loops. -/
def ThreadPool.stretchThreads (pool : ThreadPool) (numToAdd newNumThreads : Nat) : ThreadPool :=
  if pool.isPaused then { pool with call := .stretchPause numToAdd numToAdd newNumThreads }
  else { pool with call := .stretchCreate numToAdd newNumThreads }

/-- `ShrinkThreads`, up to its loops. -/
def ThreadPool.shrinkThreads (pool : ThreadPool) (numToRemove newNumThreads : Nat) :
    ThreadPool :=
  { pool with call := .shrinkStop numToRemove numToRemove newNumThreads }

/-- `SetNumOfThreads`, up to its loops. -/
def ThreadPool.setNumOfThreads (pool : ThreadPool) (newNumThreads : Nat) : ThreadPool :=
  if pool.numThreads < newNumThreads then
    pool.stretchThreads (newNumThreads - pool.numThreads) newNumThreads
  else pool.shrinkThreads (pool.numThreads - newNumThreads) newNumThreads

/-- `Stop`, up to its loops. -/
def ThreadPool.stop (pool : ThreadPool) : ThreadPool := pool.setNumOfThreads 0

/-- The members before the body of the constructor. -/
def ThreadPool.initial : ThreadPool :=
  { threadsToRemove := 0, numThreads := 0, isPaused := true, tasks := [], semPause := 0,
    workers := [], call := .idle, nextId := 0, started := [], finished := [] }

/-- The constructor, up to its loops. -/
def ThreadPool.ctor (numThreads : Nat) : ThreadPool :=
  ThreadPool.initial.setNumOfThreads numThreads

/-! ## The steps -/

/-- What the caller, the workers and other threads do.  A worker is named by its place among
the threads, and the task that it takes by its place in the queue. -/
inductive PoolAction where
  | add (priority : Priority)
  | run
  | pause
  | setNumOfThreads (newNumThreads : Nat)
  /-- The call in progress goes on. -/
  | goOn
  | pop (worker task : Nat)
  /-- The `Execute` of a task that was added returns. -/
  | executed (worker : Nat)
  | acquire (worker : Nat)
  | leave (worker : Nat)
  deriving DecidableEq, Repr

/-- The next step of the call in progress. -/
def ThreadPool.goOn (pool : ThreadPool) : Option ThreadPool :=
  match pool.call with
  | .idle => none
  | .pause 0 => some { pool with call := .idle }
  | .pause (rounds + 1) => some { pool.push .badApplePause with call := .pause rounds }
  | .stretchPause 0 numToAdd newNumThreads =>
      some { pool with call := .stretchCreate numToAdd newNumThreads }
  | .stretchPause (rounds + 1) numToAdd newNumThreads =>
      some { pool.push .badApplePause with call := .stretchPause rounds numToAdd newNumThreads }
  | .stretchCreate 0 newNumThreads =>
      some { pool with numThreads := newNumThreads, call := .idle }
  | .stretchCreate (rounds + 1) newNumThreads =>
      some { pool with
        workers := .popping :: pool.workers, call := .stretchCreate rounds newNumThreads }
  | .shrinkStop 0 numToRemove newNumThreads =>
      some { pool with
        semPause := if pool.isPaused then pool.semPause + numToRemove else pool.semPause,
        call := .shrinkRemove numToRemove numToRemove newNumThreads }
  | .shrinkStop (rounds + 1) numToRemove newNumThreads =>
      some { pool.push .badAppleStop with call := .shrinkStop rounds numToRemove newNumThreads }
  | .shrinkRemove 0 _ newNumThreads =>
      some { pool with numThreads := newNumThreads, call := .idle }
  | .shrinkRemove (rounds + 1) numToRemove newNumThreads =>
      -- `m_threads_to_remove.pop` waits
      if pool.threadsToRemove = 0 then none
      else some { pool with
        threadsToRemove := pool.threadsToRemove - 1,
        call := .shrinkRemove rounds numToRemove newNumThreads }

/-- A worker has taken a task and calls its `Execute`. -/
def ThreadPool.execute (pool : ThreadPool) (worker : Nat) : Task → ThreadPool
  | .user id _ =>
      { pool with
        workers := pool.workers.set worker (.executing id), started := id :: pool.started }
  | .badApplePause => { pool with workers := pool.workers.set worker .pausing }
  | .badAppleStop => { pool with workers := pool.workers.set worker .leaving }

/-- A step. -/
def ThreadPool.step (pool : ThreadPool) : PoolAction → Option ThreadPool
  | .add priority => some (pool.add priority)
  | .run => if pool.call = .idle then some pool.run else none
  | .pause => if pool.call = .idle then some pool.pause else none
  | .setNumOfThreads newNumThreads =>
      if pool.call = .idle then some (pool.setNumOfThreads newNumThreads) else none
  | .goOn => pool.goOn
  | .pop worker task =>
      match pool.workers[worker]?, pool.tasks[task]? with
      | some .popping, some t =>
          -- an empty queue has no place, so the worker waits
          if IsFront pool.tasks t then
            some ({ pool with tasks := pool.tasks.eraseIdx task }.execute worker t)
          else none
      | _, _ => none
  | .executed worker =>
      match pool.workers[worker]? with
      | some (.executing id) =>
          some { pool with
            workers := pool.workers.set worker .popping, finished := id :: pool.finished }
      | _ => none
  | .acquire worker =>
      match pool.workers[worker]? with
      | some .pausing =>
          if pool.semPause = 0 then none
          else some { pool with
            workers := pool.workers.set worker .popping, semPause := pool.semPause - 1 }
      | _ => none
  | .leave worker =>
      match pool.workers[worker]? with
      | some .leaving =>
          some { pool with
            workers := pool.workers.eraseIdx worker,
            threadsToRemove := pool.threadsToRemove + 1 }
      | _ => none

/-- The runs that start with the constructor. -/
def poolMachine : Machine ThreadPool PoolAction where
  start pool := ∃ numThreads, pool = ThreadPool.ctor numThreads
  step pool a := pool.step a

/-! ## What a step does -/

/-- A step of the call in progress: a round or the end of one of its loops. -/
inductive ThreadPool.Round (pool : ThreadPool) : ThreadPool → Prop
  | pauseEnd (hcall : pool.call = .pause 0) : Round pool { pool with call := .idle }
  | pause {rounds : Nat} (hcall : pool.call = .pause (rounds + 1)) :
      Round pool { pool.push .badApplePause with call := .pause rounds }
  | stretchPauseEnd {numToAdd newNumThreads : Nat}
      (hcall : pool.call = .stretchPause 0 numToAdd newNumThreads) :
      Round pool { pool with call := .stretchCreate numToAdd newNumThreads }
  | stretchPause {rounds numToAdd newNumThreads : Nat}
      (hcall : pool.call = .stretchPause (rounds + 1) numToAdd newNumThreads) :
      Round pool
        { pool.push .badApplePause with call := .stretchPause rounds numToAdd newNumThreads }
  | stretchCreateEnd {newNumThreads : Nat} (hcall : pool.call = .stretchCreate 0 newNumThreads) :
      Round pool { pool with numThreads := newNumThreads, call := .idle }
  | stretchCreate {rounds newNumThreads : Nat}
      (hcall : pool.call = .stretchCreate (rounds + 1) newNumThreads) :
      Round pool
        { pool with
          workers := .popping :: pool.workers, call := .stretchCreate rounds newNumThreads }
  | shrinkStopEnd {numToRemove newNumThreads : Nat}
      (hcall : pool.call = .shrinkStop 0 numToRemove newNumThreads) :
      Round pool
        { pool with
          semPause := if pool.isPaused then pool.semPause + numToRemove else pool.semPause,
          call := .shrinkRemove numToRemove numToRemove newNumThreads }
  | shrinkStop {rounds numToRemove newNumThreads : Nat}
      (hcall : pool.call = .shrinkStop (rounds + 1) numToRemove newNumThreads) :
      Round pool
        { pool.push .badAppleStop with call := .shrinkStop rounds numToRemove newNumThreads }
  | shrinkRemoveEnd {numToRemove newNumThreads : Nat}
      (hcall : pool.call = .shrinkRemove 0 numToRemove newNumThreads) :
      Round pool { pool with numThreads := newNumThreads, call := .idle }
  | shrinkRemove {rounds numToRemove newNumThreads : Nat}
      (hremove : pool.threadsToRemove ≠ 0)
      (hcall : pool.call = .shrinkRemove (rounds + 1) numToRemove newNumThreads) :
      Round pool
        { pool with
          threadsToRemove := pool.threadsToRemove - 1,
          call := .shrinkRemove rounds numToRemove newNumThreads }

/-- The call in progress takes one of these steps. -/
theorem ThreadPool.goOn_round {pool pool' : ThreadPool} (h : pool.goOn = some pool') :
    pool.Round pool' := by
  cases hcall : pool.call with
  | idle =>
      rw [goOn, hcall] at h
      cases h
  | pause rounds =>
      cases rounds <;> rw [goOn, hcall] at h <;> obtain rfl := Option.some.inj h
      · exact .pauseEnd hcall
      · exact .pause hcall
  | stretchPause rounds numToAdd newNumThreads =>
      cases rounds <;> rw [goOn, hcall] at h <;> obtain rfl := Option.some.inj h
      · exact .stretchPauseEnd hcall
      · exact .stretchPause hcall
  | stretchCreate rounds newNumThreads =>
      cases rounds <;> rw [goOn, hcall] at h <;> obtain rfl := Option.some.inj h
      · exact .stretchCreateEnd hcall
      · exact .stretchCreate hcall
  | shrinkStop rounds numToRemove newNumThreads =>
      cases rounds <;> rw [goOn, hcall] at h <;> obtain rfl := Option.some.inj h
      · exact .shrinkStopEnd hcall
      · exact .shrinkStop hcall
  | shrinkRemove rounds numToRemove newNumThreads =>
      cases rounds with
      | zero =>
          rw [goOn, hcall] at h
          obtain rfl := Option.some.inj h
          exact .shrinkRemoveEnd hcall
      | succ rounds =>
          rw [goOn, hcall] at h
          simp only [Option.ite_none_left_eq_some] at h
          obtain ⟨hremove, hpool'⟩ := h
          obtain rfl := Option.some.inj hpool'
          exact .shrinkRemove hremove hcall

/-- The effect of a step, with the lists taken apart at the worker and the task. -/
inductive ThreadPool.Effect (pool : ThreadPool) : PoolAction → ThreadPool → Prop
  | add (priority : Priority) : Effect pool (.add priority) (pool.add priority)
  | run (hidle : pool.call = .idle) : Effect pool .run pool.run
  | pause (hidle : pool.call = .idle) : Effect pool .pause pool.pause
  | setNumOfThreads (newNumThreads : Nat) (hidle : pool.call = .idle) :
      Effect pool (.setNumOfThreads newNumThreads) (pool.setNumOfThreads newNumThreads)
  | goOn {pool' : ThreadPool} (hround : pool.Round pool') : Effect pool .goOn pool'
  | popUser (worker task : Nat) {id : Nat} {priority : Priority} {w₁ w₂ : List Worker}
      {t₁ t₂ : List Task} (hworkers : pool.workers = w₁ ++ .popping :: w₂)
      (htasks : pool.tasks = t₁ ++ .user id priority :: t₂)
      (hfront : IsFront pool.tasks (.user id priority)) :
      Effect pool (.pop worker task)
        { pool with
          workers := w₁ ++ .executing id :: w₂, tasks := t₁ ++ t₂,
          started := id :: pool.started }
  | popPause (worker task : Nat) {w₁ w₂ : List Worker} {t₁ t₂ : List Task}
      (hworkers : pool.workers = w₁ ++ .popping :: w₂)
      (htasks : pool.tasks = t₁ ++ .badApplePause :: t₂) :
      Effect pool (.pop worker task)
        { pool with workers := w₁ ++ .pausing :: w₂, tasks := t₁ ++ t₂ }
  | popStop (worker task : Nat) {w₁ w₂ : List Worker} {t₁ t₂ : List Task}
      (hworkers : pool.workers = w₁ ++ .popping :: w₂)
      (htasks : pool.tasks = t₁ ++ .badAppleStop :: t₂)
      (hfront : IsFront pool.tasks .badAppleStop) :
      Effect pool (.pop worker task)
        { pool with workers := w₁ ++ .leaving :: w₂, tasks := t₁ ++ t₂ }
  | executed (worker : Nat) {id : Nat} {w₁ w₂ : List Worker}
      (hworkers : pool.workers = w₁ ++ .executing id :: w₂) :
      Effect pool (.executed worker)
        { pool with workers := w₁ ++ .popping :: w₂, finished := id :: pool.finished }
  | acquire (worker : Nat) {w₁ w₂ : List Worker}
      (hworkers : pool.workers = w₁ ++ .pausing :: w₂) (hpermit : pool.semPause ≠ 0) :
      Effect pool (.acquire worker)
        { pool with workers := w₁ ++ .popping :: w₂, semPause := pool.semPause - 1 }
  | leave (worker : Nat) {w₁ w₂ : List Worker}
      (hworkers : pool.workers = w₁ ++ .leaving :: w₂) :
      Effect pool (.leave worker)
        { pool with workers := w₁ ++ w₂, threadsToRemove := pool.threadsToRemove + 1 }

/-- Every step has one of the effects. -/
theorem ThreadPool.step_effect {pool pool' : ThreadPool} {a : PoolAction}
    (h : pool.step a = some pool') : pool.Effect a pool' := by
  cases a with
  | add priority =>
      obtain rfl := Option.some.inj h
      exact .add priority
  | run =>
      rw [step] at h
      split at h
      · next hidle =>
          obtain rfl := Option.some.inj h
          exact .run hidle
      · cases h
  | pause =>
      rw [step] at h
      split at h
      · next hidle =>
          obtain rfl := Option.some.inj h
          exact .pause hidle
      · cases h
  | setNumOfThreads newNumThreads =>
      rw [step] at h
      split at h
      · next hidle =>
          obtain rfl := Option.some.inj h
          exact .setNumOfThreads newNumThreads hidle
      · cases h
  | goOn => exact .goOn (goOn_round h)
  | pop worker task =>
      rw [step] at h
      split at h
      case h_2 => cases h
      case h_1 t hworker htask =>
        split at h
        case isFalse => cases h
        case isTrue hfront =>
          obtain ⟨w₁, w₂, hworkers, hset, -⟩ := exists_split_of_getElem? hworker
          obtain ⟨t₁, t₂, htasks, -, herase⟩ := exists_split_of_getElem? htask
          obtain rfl := Option.some.inj h
          cases t with
          | user id priority =>
              simp only [execute, hset, herase]
              exact .popUser worker task hworkers htasks hfront
          | badApplePause =>
              simp only [execute, hset, herase]
              exact .popPause worker task hworkers htasks
          | badAppleStop =>
              simp only [execute, hset, herase]
              exact .popStop worker task hworkers htasks hfront
  | executed worker =>
      rw [step] at h
      split at h
      case h_2 => cases h
      case h_1 id hworker =>
        obtain ⟨w₁, w₂, hworkers, hset, -⟩ := exists_split_of_getElem? hworker
        obtain rfl := Option.some.inj h
        rw [hset]
        exact .executed worker hworkers
  | acquire worker =>
      rw [step] at h
      split at h
      case h_2 => cases h
      case h_1 hworker =>
        split at h
        case isTrue => cases h
        case isFalse hpermit =>
          obtain ⟨w₁, w₂, hworkers, hset, -⟩ := exists_split_of_getElem? hworker
          obtain rfl := Option.some.inj h
          rw [hset]
          exact .acquire worker hworkers hpermit
  | leave worker =>
      rw [step] at h
      split at h
      case h_2 => cases h
      case h_1 hworker =>
        obtain ⟨w₁, w₂, hworkers, -, herase⟩ := exists_split_of_getElem? hworker
        obtain rfl := Option.some.inj h
        rw [herase]
        exact .leave worker hworkers

end Framework
end InfinityLabs
