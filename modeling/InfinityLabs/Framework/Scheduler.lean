import InfinityLabs.Framework.ThreadPool

/-!
# The scheduler of the framework

`projects/final_project/framework/src/scheduler.cpp`: a queue of tasks with the points of time
at which they are due, and one timer.  Any threads call `Add`, and every expiry of the timer
starts a thread of its own in `TimerCallback`; all of them take their steps in any order.

The clock is read in nanoseconds and never goes back.  `timer_settime` takes a time relative
to the clock, which does not move between the reading of `SetTimer` and that call.  Since
`m_waitable_queue` is used under `m_mutex` alone, the state of the thread that holds the mutex
is kept apart from the callbacks that do not.  System calls and allocations succeed.
-/

namespace InfinityLabs
namespace Framework

open Lib

/-! ## The state -/

/-- A `task` of the queue, with the number of the `Add` that it comes from. -/
structure Entry (τ : Type) where
  task : τ
  execTime : Int
  id : Nat
  deriving DecidableEq, Repr

/-- A `TimerCallback` without the mutex: before its first `lock`, before the call of `Execute`,
in `Execute`, or before its second `lock`. -/
inductive Callback (τ : Type) where
  | expired
  | unlocked (t : Entry τ)
  | executing (t : Entry τ)
  | executed
  deriving DecidableEq, Repr

/-- Where the thread that holds `m_mutex` is. -/
inductive Holder (τ : Type) where
  /-- In `Add`, before it pushes. -/
  | add (task : τ) (delay : Int)
  /-- In `Add`, before `SetTimer`. -/
  | addSetTimer (execTime : Int)
  /-- In `TimerCallback`, before it pops `currentTask`. -/
  | popCurrent
  /-- Before `currentTask` is compared with the clock. -/
  | compare (currentTask : Entry τ)
  /-- Before `nextTask` is popped. -/
  | popNext
  /-- Before `nextTask` is pushed again. -/
  | pushNext (nextTask : Entry τ)
  /-- In `TimerCallback`, before `SetTimer`. -/
  | callbackSetTimer (execTime : Int)
  /-- At the end of either function. -/
  | unlock
  deriving DecidableEq, Repr

/-- A scheduler.  `timer` is the point of time at which the armed timer expires.  `nextId`
numbers the calls of `Add`; `added`, `taken` and `started` are the tasks that were pushed by
`Add`, taken for their execution, and executed, the last with the clock at that moment. -/
structure Scheduler (τ : Type) where
  now : Int
  queue : List (Entry τ)
  timer : Option Int
  holder : Option (Holder τ)
  callbacks : List (Callback τ)
  nextId : Nat
  added : List (Entry τ)
  taken : List (Entry τ)
  started : List (Entry τ × Int)
  deriving DecidableEq, Repr

variable {τ : Type}

/-- `TaskComparator` puts no other task before this one. -/
def IsEarliest (queue : List (Entry τ)) (t : Entry τ) : Prop :=
  ∀ u ∈ queue, t.execTime ≤ u.execTime

instance (queue : List (Entry τ)) (t : Entry τ) : Decidable (IsEarliest queue t) :=
  inferInstanceAs (Decidable (∀ u ∈ queue, t.execTime ≤ u.execTime))

namespace Scheduler

/-! ## The functions -/

/-- The constructor, at a point of time. -/
def ctor (now : Int) : Scheduler τ :=
  { now := now, queue := [], timer := none, holder := none, callbacks := [], nextId := 0,
    added := [], taken := [], started := [] }

/-- `m_waitable_queue.push`. -/
def push (s : Scheduler τ) (t : Entry τ) : Scheduler τ := { s with queue := t :: s.queue }

/-- The relative time that `SetTimer` sets. -/
def timerDelay (now execTime : Int) : Int :=
  if execTime - now ≤ 0 then 1 else execTime - now

/-- `SetTimer`. -/
def setTimer (s : Scheduler τ) (execTime : Int) : Scheduler τ :=
  { s with timer := some (s.now + timerDelay s.now execTime) }

/-- A `std::chrono::milliseconds` in nanoseconds. -/
def nanoseconds (delay : Int) : Int := delay * 1000000

/-- `Add` reads the clock and pushes. -/
def addPush (s : Scheduler τ) (task : τ) (delay : Int) : Scheduler τ :=
  let t : Entry τ := ⟨task, s.now + nanoseconds delay, s.nextId⟩
  { s.push t with
    holder := some (.addSetTimer t.execTime), nextId := s.nextId + 1, added := t :: s.added }

/-- `TimerCallback` compares `currentTask` with the clock, and pushes it back or unlocks. -/
def compareCurrent (s : Scheduler τ) (currentTask : Entry τ) : Scheduler τ :=
  if s.now < currentTask.execTime then
    { s.push currentTask with holder := some (.callbackSetTimer currentTask.execTime) }
  else
    { s with
      holder := none, callbacks := .unlocked currentTask :: s.callbacks,
      taken := currentTask :: s.taken }

/-! ## The steps -/

end Scheduler

/-- What the clock, the timer and the threads do.  A callback is named by its place among those
without the mutex, and the task that is popped by its place in the queue. -/
inductive SchedulerAction (τ : Type) where
  | tick (time : Nat)
  | expire
  /-- A call of `Add` locks the mutex. -/
  | add (task : τ) (delay : Int)
  | lock (callback : Nat)
  /-- The holder of the mutex goes on. -/
  | goOn
  | pop (place : Nat)
  | execute (callback : Nat)
  /-- `Execute` returns. -/
  | executed (callback : Nat)
  deriving DecidableEq, Repr

/-- The steps that neither call `Add` nor end an `Execute`. -/
def SchedulerAction.isInternal : SchedulerAction τ → Bool
  | .add _ _ | .executed _ => false
  | _ => true

namespace Scheduler

/-- The next step of the holder that is no `pop`, or a `pop` of the empty queue. -/
def goOn (s : Scheduler τ) : Option (Scheduler τ) :=
  match s.holder with
  | none => none
  | some (.add task delay) => some (s.addPush task delay)
  | some (.addSetTimer execTime) =>
      some { s.setTimer execTime with holder := some .unlock }
  | some .popCurrent =>
      if s.queue = [] then some { s with holder := some .unlock } else none
  | some (.compare currentTask) => some (s.compareCurrent currentTask)
  | some .popNext =>
      if s.queue = [] then some { s with holder := some .unlock } else none
  | some (.pushNext nextTask) =>
      some { s.push nextTask with holder := some (.callbackSetTimer nextTask.execTime) }
  | some (.callbackSetTimer execTime) =>
      some { s.setTimer execTime with holder := some .unlock }
  | some .unlock => some { s with holder := none }

/-- The holder of the mutex, once it has popped the task. -/
def afterPop (t : Entry τ) : Holder τ → Option (Holder τ)
  | .popCurrent => some (.compare t)
  | .popNext => some (.pushNext t)
  | _ => none

/-- Where a callback goes on once it has the mutex. -/
def afterLock : Callback τ → Option (Holder τ)
  | .expired => some .popCurrent
  | .executed => some .popNext
  | _ => none

/-- A step. -/
def step (s : Scheduler τ) : SchedulerAction τ → Option (Scheduler τ)
  | .tick time => some { s with now := s.now + time }
  | .expire =>
      match s.timer with
      | none => none
      | some expiry =>
          if expiry ≤ s.now then
            some { s with timer := none, callbacks := .expired :: s.callbacks }
          else none
  | .add task delay =>
      if s.holder = none then some { s with holder := some (.add task delay) } else none
  | .lock callback =>
      if s.holder = none then
        match s.callbacks[callback]?.bind afterLock with
        | none => none
        | some holder =>
            some { s with holder := some holder, callbacks := s.callbacks.eraseIdx callback }
      else none
  | .goOn => s.goOn
  | .pop place =>
      match s.queue[place]? with
      | none => none
      | some t =>
          match s.holder.bind (afterPop t) with
          | none => none
          | some holder =>
              if IsEarliest s.queue t then
                some { s with queue := s.queue.eraseIdx place, holder := some holder }
              else none
  | .execute callback =>
      match s.callbacks[callback]? with
      | some (.unlocked t) =>
          some { s with
            callbacks := s.callbacks.set callback (.executing t),
            started := (t, s.now) :: s.started }
      | _ => none
  | .executed callback =>
      match s.callbacks[callback]? with
      | some (.executing _) =>
          some { s with callbacks := s.callbacks.set callback .executed }
      | _ => none

end Scheduler

/-- The runs that start with the constructor. -/
def schedulerMachine (τ : Type) : Machine (Scheduler τ) (SchedulerAction τ) where
  start s := ∃ now, s = Scheduler.ctor now
  step s a := s.step a

/-! ## What a step does -/

namespace Scheduler

/-- The effect of a step, with the lists taken apart at the callback and the task. -/
inductive Effect (s : Scheduler τ) : SchedulerAction τ → Scheduler τ → Prop
  | tick (time : Nat) : Effect s (.tick time) { s with now := s.now + time }
  | expire {expiry : Int} (htimer : s.timer = some expiry) (hexpired : expiry ≤ s.now) :
      Effect s .expire { s with timer := none, callbacks := .expired :: s.callbacks }
  | add (task : τ) (delay : Int) (hfree : s.holder = none) :
      Effect s (.add task delay) { s with holder := some (.add task delay) }
  | lock (callback : Nat) {c : Callback τ} {holder : Holder τ} {c₁ c₂ : List (Callback τ)}
      (hfree : s.holder = none) (hcallbacks : s.callbacks = c₁ ++ c :: c₂)
      (hafter : afterLock c = some holder) :
      Effect s (.lock callback) { s with holder := some holder, callbacks := c₁ ++ c₂ }
  | addPush {task : τ} {delay : Int} (hholder : s.holder = some (.add task delay)) :
      Effect s .goOn (s.addPush task delay)
  | addSetTimer {execTime : Int} (hholder : s.holder = some (.addSetTimer execTime)) :
      Effect s .goOn { s.setTimer execTime with holder := some .unlock }
  | popEmpty {holder : Holder τ} (hholder : s.holder = some holder)
      (hpop : holder = .popCurrent ∨ holder = .popNext) (hempty : s.queue = []) :
      Effect s .goOn { s with holder := some .unlock }
  | pushBack {currentTask : Entry τ} (hholder : s.holder = some (.compare currentTask))
      (hlater : s.now < currentTask.execTime) :
      Effect s .goOn
        { s.push currentTask with holder := some (.callbackSetTimer currentTask.execTime) }
  | take {currentTask : Entry τ} (hholder : s.holder = some (.compare currentTask))
      (hdue : currentTask.execTime ≤ s.now) :
      Effect s .goOn
        { s with
          holder := none, callbacks := .unlocked currentTask :: s.callbacks,
          taken := currentTask :: s.taken }
  | pushNext {nextTask : Entry τ} (hholder : s.holder = some (.pushNext nextTask)) :
      Effect s .goOn
        { s.push nextTask with holder := some (.callbackSetTimer nextTask.execTime) }
  | callbackSetTimer {execTime : Int}
      (hholder : s.holder = some (.callbackSetTimer execTime)) :
      Effect s .goOn { s.setTimer execTime with holder := some .unlock }
  | unlock (hholder : s.holder = some .unlock) : Effect s .goOn { s with holder := none }
  | pop (place : Nat) {t : Entry τ} {holder holder' : Holder τ} {q₁ q₂ : List (Entry τ)}
      (hqueue : s.queue = q₁ ++ t :: q₂) (hearliest : IsEarliest s.queue t)
      (hholder : s.holder = some holder) (hafter : afterPop t holder = some holder') :
      Effect s (.pop place) { s with queue := q₁ ++ q₂, holder := some holder' }
  | execute (callback : Nat) {t : Entry τ} {c₁ c₂ : List (Callback τ)}
      (hcallbacks : s.callbacks = c₁ ++ .unlocked t :: c₂) :
      Effect s (.execute callback)
        { s with
          callbacks := c₁ ++ .executing t :: c₂, started := (t, s.now) :: s.started }
  | executed (callback : Nat) {t : Entry τ} {c₁ c₂ : List (Callback τ)}
      (hcallbacks : s.callbacks = c₁ ++ .executing t :: c₂) :
      Effect s (.executed callback) { s with callbacks := c₁ ++ .executed :: c₂ }

/-- The holder of the mutex takes one of these steps. -/
theorem goOn_effect {s s' : Scheduler τ} (h : s.goOn = some s') : s.Effect .goOn s' := by
  cases hholder : s.holder with
  | none =>
      rw [goOn, hholder] at h
      cases h
  | some holder =>
      cases holder with
      | add task delay =>
          rw [goOn, hholder] at h
          obtain rfl := Option.some.inj h
          exact .addPush hholder
      | addSetTimer execTime =>
          rw [goOn, hholder] at h
          obtain rfl := Option.some.inj h
          exact .addSetTimer hholder
      | popCurrent =>
          simp only [goOn, hholder, Option.ite_none_right_eq_some] at h
          obtain ⟨hempty, hs'⟩ := h
          obtain rfl := Option.some.inj hs'
          exact .popEmpty hholder (Or.inl rfl) hempty
      | compare currentTask =>
          rw [goOn, hholder] at h
          obtain rfl := Option.some.inj h
          rw [compareCurrent]
          split
          case isTrue hlater => exact .pushBack hholder hlater
          case isFalse hdue => exact .take hholder (Int.not_lt.mp hdue)
      | popNext =>
          simp only [goOn, hholder, Option.ite_none_right_eq_some] at h
          obtain ⟨hempty, hs'⟩ := h
          obtain rfl := Option.some.inj hs'
          exact .popEmpty hholder (Or.inr rfl) hempty
      | pushNext nextTask =>
          rw [goOn, hholder] at h
          obtain rfl := Option.some.inj h
          exact .pushNext hholder
      | callbackSetTimer execTime =>
          rw [goOn, hholder] at h
          obtain rfl := Option.some.inj h
          exact .callbackSetTimer hholder
      | unlock =>
          rw [goOn, hholder] at h
          obtain rfl := Option.some.inj h
          exact .unlock hholder

/-- Every step has one of the effects. -/
theorem step_effect {s s' : Scheduler τ} {a : SchedulerAction τ} (h : s.step a = some s') :
    s.Effect a s' := by
  cases a with
  | tick time =>
      obtain rfl := Option.some.inj h
      exact .tick time
  | expire =>
      rw [step] at h
      split at h
      case h_1 => cases h
      case h_2 expiry htimer =>
        rw [Option.ite_none_right_eq_some] at h
        obtain ⟨hexpired, hs'⟩ := h
        obtain rfl := Option.some.inj hs'
        exact .expire htimer hexpired
  | add task delay =>
      rw [step, Option.ite_none_right_eq_some] at h
      obtain ⟨hfree, hs'⟩ := h
      obtain rfl := Option.some.inj hs'
      exact .add task delay hfree
  | lock callback =>
      rw [step, Option.ite_none_right_eq_some] at h
      obtain ⟨hfree, hs'⟩ := h
      split at hs'
      case h_1 => cases hs'
      case h_2 holder hbind =>
        obtain ⟨c, hcallback, hafter⟩ := Option.bind_eq_some_iff.mp hbind
        obtain ⟨c₁, c₂, hcallbacks, -, herase⟩ := exists_split_of_getElem? hcallback
        obtain rfl := Option.some.inj hs'
        rw [herase]
        exact .lock callback hfree hcallbacks hafter
  | goOn => exact goOn_effect h
  | pop place =>
      rw [step] at h
      split at h
      case h_1 => cases h
      case h_2 t hplace =>
        split at h
        case h_1 => cases h
        case h_2 holder' hbind =>
          rw [Option.ite_none_right_eq_some] at h
          obtain ⟨hearliest, hs'⟩ := h
          obtain ⟨holder, hholder, hafter⟩ := Option.bind_eq_some_iff.mp hbind
          obtain ⟨q₁, q₂, hqueue, -, herase⟩ := exists_split_of_getElem? hplace
          obtain rfl := Option.some.inj hs'
          rw [herase]
          exact .pop place hqueue hearliest hholder hafter
  | execute callback =>
      rw [step] at h
      split at h
      case h_2 => cases h
      case h_1 t hcallback =>
        obtain ⟨c₁, c₂, hcallbacks, hset, -⟩ := exists_split_of_getElem? hcallback
        obtain rfl := Option.some.inj h
        rw [hset]
        exact .execute callback hcallbacks
  | executed callback =>
      rw [step] at h
      split at h
      case h_2 => cases h
      case h_1 t hcallback =>
        obtain ⟨c₁, c₂, hcallbacks, hset, -⟩ := exists_split_of_getElem? hcallback
        obtain rfl := Option.some.inj h
        rw [hset]
        exact .executed callback hcallbacks

end Scheduler

end Framework
end InfinityLabs
