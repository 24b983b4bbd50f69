import InfinityLabs.Framework.SchedulerTasks

/-!
# The injections of the framework

`projects/final_project/framework/src/async_injection.cpp`.  An `AsyncInjection` adds its task
to the scheduler when it is constructed; the task calls the injected function and then either
deletes the injection or adds itself again.  Any number of injections are constructed, next to
other users of the same scheduler, and all threads take their steps in any order.

A thread that is executing an `AsyncTask` stands at some place of `Execute`; the model keeps
the place with the task, and a constructor that has still to call `Schedule` is a thread of the
same kind.  An `Add` has its arguments by value, so once it has locked the mutex the thread is
done with the injection, and the rest of the call are steps of the holder of the mutex.
-/

namespace InfinityLabs
namespace Framework

open Lib

/-! ## The state -/

/-- Where a thread is in `Execute`, or in the `Schedule` of a constructor. -/
inductive Phase where
  /-- Before the call of `m_func`. -/
  | func
  | inFunc
  /-- Before `delete &m_owner`. -/
  | delete
  /-- Before `Schedule` reads the members of the injection. -/
  | schedule
  /-- Before the `Add` of `Schedule` locks the mutex. -/
  | add (interval : Int)
  | returned
  deriving DecidableEq, Repr

/-- An `AsyncTask`: the number of its owner, and the place of its thread. -/
structure AsyncTask where
  owner : Nat
  phase : Phase
  deriving DecidableEq, Repr

/-- An `ISTask`: that of an injection, or one of another class. -/
inductive ISTask where
  | asyncTask (task : AsyncTask)
  | other (id : Nat)
  deriving DecidableEq, Repr

/-- An `AsyncInjection`.  `calls` counts the calls of `m_func`, `results` are those that have
returned, the last one first, and `deletions` counts how often the injection was deleted. -/
structure AsyncInjection where
  interval : Int
  isAlive : Bool
  calls : Nat
  results : List Bool
  deletions : Nat
  deriving DecidableEq, Repr

/-- The scheduler, the injections by their numbers, and the constructors that were called.
`isFaulted` says that an injection was accessed after its deletion. -/
structure AsyncSystem where
  scheduler : Scheduler ISTask
  injections : List AsyncInjection
  ctors : List AsyncTask
  isFaulted : Bool
  deriving DecidableEq, Repr

/-- A thread that accesses an injection: a callback, or a constructor. -/
inductive Thread where
  | callback (place : Nat)
  | ctor (place : Nat)
  deriving DecidableEq, Repr

namespace AsyncSystem

/-- An access to the injection. -/
def access (s : AsyncSystem) (owner : Nat) : AsyncSystem :=
  { s with isFaulted := s.isFaulted || !(s.injections[owner]?.any AsyncInjection.isAlive) }

/-- A change of the injection. -/
def update (s : AsyncSystem) (owner : Nat) (f : AsyncInjection → AsyncInjection) :
    AsyncSystem :=
  { s with injections := s.injections.modify owner f }

/-- The task that a callback executes. -/
def executing : Callback ISTask → Option AsyncTask
  | .executing ⟨.asyncTask task, _, _⟩ => some task
  | _ => none

/-- The task of a thread. -/
def task? (s : AsyncSystem) : Thread → Option AsyncTask
  | .callback place => s.scheduler.callbacks[place]?.bind executing
  | .ctor place => s.ctors[place]?

/-- The task of the callback at another place of `Execute`. -/
def withPhase (phase : Phase) : Callback ISTask → Callback ISTask
  | .executing ⟨.asyncTask task, execTime, id⟩ =>
      .executing ⟨.asyncTask { task with phase := phase }, execTime, id⟩
  | c => c

/-- A thread goes on to another place. -/
def setPhase (s : AsyncSystem) (phase : Phase) : Thread → AsyncSystem
  | .callback place =>
      { s with
        scheduler := { s.scheduler with
          callbacks := s.scheduler.callbacks.modify place (withPhase phase) } }
  | .ctor place => { s with ctors := s.ctors.modify place fun t => { t with phase := phase } }

/-- The injection after a call of its function began. -/
def called (i : AsyncInjection) : AsyncInjection := { i with calls := i.calls + 1 }

/-- The injection after a call of its function returned. -/
def returned (reschedule : Bool) (i : AsyncInjection) : AsyncInjection :=
  { i with results := reschedule :: i.results }

/-- The injection after its deletion. -/
def deleted (i : AsyncInjection) : AsyncInjection :=
  { i with isAlive := false, deletions := i.deletions + 1 }

end AsyncSystem

/-! ## The steps -/

/-- What happens: an injection is constructed, a thread adds another task, the scheduler takes
a step, or a thread goes on in `Execute` or in `Schedule`. -/
inductive AsyncAction where
  | construct (interval : Int)
  | addOther (id : Nat) (delay : Int)
  | scheduler (a : SchedulerAction ISTask)
  | callFunc (callback : Nat)
  | funcReturns (callback : Nat) (reschedule : Bool)
  | delete (callback : Nat)
  | schedule (thread : Thread)
  | lockAdd (thread : Thread)
  | executed (callback : Nat)
  deriving DecidableEq, Repr

/-- A step of the scheduler. -/
def AsyncSystem.stepScheduler (s : AsyncSystem) (a : SchedulerAction ISTask) :
    Option AsyncSystem :=
  (s.scheduler.step a).map fun scheduler => { s with scheduler := scheduler }

/-- A step. -/
def AsyncSystem.step (s : AsyncSystem) : AsyncAction → Option AsyncSystem
  | .construct interval =>
      some { s with
        injections := s.injections ++ [⟨interval, true, 0, [], 0⟩],
        ctors := ⟨s.injections.length, .schedule⟩ :: s.ctors }
  | .addOther id delay => s.stepScheduler (.add (.other id) delay)
  | .scheduler a => if a.isInternal then s.stepScheduler a else none
  | .callFunc callback =>
      match s.task? (.callback callback) with
      | some ⟨owner, .func⟩ =>
          some (((s.access owner).update owner called).setPhase .inFunc (.callback callback))
      | _ => none
  | .funcReturns callback reschedule =>
      match s.task? (.callback callback) with
      | some ⟨owner, .inFunc⟩ =>
          some (((s.access owner).update owner (returned reschedule)).setPhase
            (if reschedule then .delete else .schedule) (.callback callback))
      | _ => none
  | .delete callback =>
      match s.task? (.callback callback) with
      | some ⟨owner, .delete⟩ =>
          some (((s.access owner).update owner deleted).setPhase .returned (.callback callback))
      | _ => none
  | .schedule thread =>
      match s.task? thread with
      | some ⟨owner, .schedule⟩ =>
          match s.injections[owner]? with
          | none => none
          | some i => some ((s.access owner).setPhase (.add i.interval) thread)
      | _ => none
  | .lockAdd thread =>
      match s.task? thread with
      | some ⟨owner, .add interval⟩ =>
          (s.setPhase .returned thread).stepScheduler (.add (.asyncTask ⟨owner, .func⟩) interval)
      | _ => none
  | .executed callback =>
      match s.task? (.callback callback) with
      | some ⟨_, .returned⟩ => s.stepScheduler (.executed callback)
      | some _ => none
      | none => s.stepScheduler (.executed callback)

end Framework
end InfinityLabs
