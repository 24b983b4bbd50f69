import InfinityLabs.Sched.Sched
import Mathlib.Algebra.Group.Int.Defs

/-!
# Faithful runs of the scheduler

A task keeps its identifier while `SchedRun` moves its time, so tasks are counted without
their times.  What was created and not cleaned up is queued, or held by `SchedRun`.

`sleep` takes an `unsigned int`: of a delay of 2 ^ 32 seconds or more only the last 32 bits
are slept, and the task runs before its time.
-/

namespace InfinityLabs
namespace Sched

open Lib Ds

variable {P : Type}

/-! ## The tasks of a run -/

/-- A task without its time. -/
def Task.undated (task : Task P) : Task P := { task with timeToExecute := 0 }

/-- The tasks that were created. -/
def createdTasks : List (SchedEvent P) → List (Task P)
  | [] => []
  | .created task :: events => task.undated :: createdTasks events
  | _ :: events => createdTasks events

/-- The tasks whose cleanup was called. -/
def cleanedTasks : List (SchedEvent P) → List (Task P)
  | [] => []
  | .cleanedUp task :: events => task.undated :: cleanedTasks events
  | _ :: events => cleanedTasks events

/-- The tasks that are held or queued. -/
def SchedState.live (s : SchedState P) : List (Task P) :=
  (s.phase.held.toList ++ s.sch.queue).map Task.undated

/-- Every execution comes at its time or later, and while its task is among those that were
created and not cleaned up. -/
def ExecutionsProper : List (SchedEvent P) → Prop
  | [] => True
  | .executed task time :: earlier =>
      task.timeToExecute ≤ time ∧
        (∃ others, (createdTasks earlier).Perm (cleanedTasks earlier ++ task.undated :: others)) ∧
        ExecutionsProper earlier
  | _ :: earlier => ExecutionsProper earlier

/-- A destruction of tasks destroys the first one first. -/
theorem cleanUps_cons (task : Task P) (tasks : List (Task P)) (events : List (SchedEvent P)) :
    cleanUps (task :: tasks) ++ events = cleanUps tasks ++ .cleanedUp task :: events := by
  simp [cleanUps]

/-- A destruction of tasks creates nothing. -/
theorem createdTasks_cleanUps (tasks : List (Task P)) (events : List (SchedEvent P)) :
    createdTasks (cleanUps tasks ++ events) = createdTasks events := by
  induction tasks generalizing events with
  | nil => rfl
  | cons task tasks ih =>
      rw [cleanUps_cons, ih]
      rfl

/-- A destruction of tasks cleans them up. -/
theorem cleanedTasks_cleanUps (tasks : List (Task P)) (events : List (SchedEvent P)) :
    (cleanedTasks (cleanUps tasks ++ events)).Perm
      (tasks.map Task.undated ++ cleanedTasks events) := by
  induction tasks generalizing events with
  | nil => exact List.Perm.refl _
  | cons task tasks ih =>
      rw [cleanUps_cons]
      exact (ih (.cleanedUp task :: events)).trans List.perm_middle

/-- What was created is cleaned up, held or queued, and nothing is queued after the end. -/
structure SchedState.Accounted (s : SchedState P) : Prop where
  live : (createdTasks s.events).Perm (cleanedTasks s.events ++ s.live)
  ended : s.phase = .destroyed → s.sch.queue = []

/-- The tasks that go out of the queue and are destroyed stay in the account. -/
theorem SchedState.live_destroy {created cleaned held queue destroyed rest : List (Task P)}
    (hlive : created.Perm (cleaned ++ (held ++ queue).map Task.undated))
    (hqueue : queue.Perm (destroyed ++ rest)) :
    created.Perm (destroyed.map Task.undated ++ cleaned ++ (held ++ rest).map Task.undated) := by
  have hmap := hqueue.map Task.undated
  simp only [List.map_append, List.append_assoc] at hlive hmap ⊢
  calc created
    _ |>.Perm (cleaned ++ (held.map Task.undated ++ queue.map Task.undated)) := hlive
    _ |>.Perm (cleaned ++ (held.map Task.undated ++
          (destroyed.map Task.undated ++ rest.map Task.undated))) :=
        (hmap.append_left _).append_left _
    _ |>.Perm (cleaned ++ (destroyed.map Task.undated ++
          (held.map Task.undated ++ rest.map Task.undated))) :=
        (List.perm_append_comm_assoc _ _ _).append_left _
    _ |>.Perm (destroyed.map Task.undated ++ (cleaned ++
          (held.map Task.undated ++ rest.map Task.undated))) :=
        List.perm_append_comm_assoc _ _ _

/-- A created task that goes into the queue stays in the account. -/
theorem SchedState.live_create {created cleaned held queue queue' : List (Task P)} {task : Task P}
    (hlive : created.Perm (cleaned ++ (held ++ queue).map Task.undated))
    (hqueue : queue'.Perm (task :: queue)) :
    (task.undated :: created).Perm (cleaned ++ (held ++ queue').map Task.undated) := by
  have hmiddle : (held ++ queue').Perm (task :: (held ++ queue)) :=
    (hqueue.append_left held).trans List.perm_middle
  calc task.undated :: created
    _ |>.Perm (task.undated :: (cleaned ++ (held ++ queue).map Task.undated)) := hlive.cons _
    _ |>.Perm (cleaned ++ (task :: (held ++ queue)).map Task.undated) := List.perm_middle.symm
    _ |>.Perm (cleaned ++ (held ++ queue').map Task.undated) :=
        (hmiddle.symm.map Task.undated).append_left _

/-- A scheduler that is called is not destroyed. -/
theorem RunPhase.ne_destroyed {phase : RunPhase P} (h : phase.callable = true) :
    phase ≠ .destroyed := by
  rintro rfl
  cases h

/-- A step keeps the account. -/
theorem SchedState.Effect.accounted {s s' : SchedState P} {a : SchedAction P}
    (h : s.Effect a s') (hs : s.Accounted) : s'.Accounted := by
  cases h with
  | add task sch counter hcallable hqueue hfunc htask hstop =>
      refine ⟨?_, fun hend => absurd hend (RunPhase.ne_destroyed hcallable)⟩
      cases task with
      | none => exact hs.live.trans (((hqueue.symm.append_left _).map Task.undated).append_left _)
      | some task => exact live_create hs.live hqueue
  | remove task sch hcallable hqueue hstop =>
      refine ⟨?_, fun hend => absurd hend (RunPhase.ne_destroyed hcallable)⟩
      dsimp only [SchedState.live]
      rw [createdTasks_cleanUps]
      exact (live_destroy hs.live hqueue).trans
        ((cleanedTasks_cleanUps task.toList s.events).symm.append_right _)
  | clear destroyed sch hcallable hqueue hempty hstop =>
      refine ⟨?_, fun _ => hempty⟩
      have hrest : s.sch.queue.Perm (destroyed ++ sch.queue) := by
        rwa [hempty, List.append_nil]
      dsimp only [SchedState.live]
      rw [createdTasks_cleanUps]
      exact (live_destroy hs.live hrest).trans
        ((cleanedTasks_cleanUps destroyed s.events).symm.append_right _)
  | stop hcallable => exact ⟨hs.live, hs.ended⟩
  | destroy destroyed sch hphase hqueue hempty hstop =>
      refine ⟨?_, fun _ => hempty⟩
      have hrest : s.sch.queue.Perm (destroyed ++ sch.queue) := by
        rwa [hempty, List.append_nil]
      have hlive := hs.live
      rw [SchedState.live, hphase] at hlive
      dsimp only [SchedState.live]
      rw [createdTasks_cleanUps]
      exact (live_destroy hlive hrest).trans
        ((cleanedTasks_cleanUps destroyed s.events).symm.append_right _)
  | run hphase =>
      have hlive := hs.live
      rw [SchedState.live, hphase] at hlive
      exact ⟨hlive, fun hend => nomatch hend⟩
  | take hadFail task sch hphase hstop hpeek hqueue hfirst hkeep =>
      have hlive := hs.live
      rw [SchedState.live, hphase] at hlive
      exact ⟨hlive.trans ((hqueue.map Task.undated).append_left _), fun hend => nomatch hend⟩
  | leave hadFail hphase =>
      have hlive := hs.live
      rw [SchedState.live, hphase] at hlive
      exact ⟨hlive, fun hend => nomatch hend⟩
  | sleep hadFail task toSleep hphase hslept hunslept =>
      have hlive := hs.live
      rw [SchedState.live, hphase] at hlive
      exact ⟨hlive, fun hend => nomatch hend⟩
  | execute hadFail task hphase =>
      have hlive := hs.live
      rw [SchedState.live, hphase] at hlive
      exact ⟨hlive, fun hend => nomatch hend⟩
  | fail hadFail task hphase hresult =>
      have hlive := hs.live
      rw [SchedState.live, hphase] at hlive
      exact ⟨hlive.trans List.perm_middle, fun hend => nomatch hend⟩
  | cease hadFail task hphase hresult =>
      have hlive := hs.live
      rw [SchedState.live, hphase] at hlive
      exact ⟨hlive.trans List.perm_middle, fun hend => nomatch hend⟩
  | rearm hadFail task sch hphase hresult hqueue hstop =>
      have hlive := hs.live
      rw [SchedState.live, hphase] at hlive
      exact ⟨hlive.trans ((hqueue.map Task.undated).symm.append_left _), fun hend => nomatch hend⟩
  | tick => exact ⟨hs.live, hs.ended⟩

/-! ## The time of an execution -/

/-- Where the loop of `SchedRun` goes on, the task that is due first is less than 2 ^ 32
seconds ahead. -/
def DueWithin (s : SchedState P) : SchedAction P → Prop
  | .next => s.sch.stopFlag = false →
      ∀ task ∈ heapPeek s.sch.heap, task.timeToExecute < s.clock + 2 ^ 32
  | _ => True

instance (s : SchedState P) : (a : SchedAction P) → Decidable (DueWithin s a)
  | .next => inferInstanceAs (Decidable (s.sch.stopFlag = false →
      ∀ task ∈ heapPeek s.sch.heap, task.timeToExecute < s.clock + 2 ^ 32))
  | .add .. | .remove _ | .clear | .stop | .destroy | .run | .sleep .. | .execute | .finish _
  | .tick _ => instDecidableTrue

/-- A task that `SchedRun` waits for is due first, and when `sleep` has returned 0. -/
structure SchedState.Timely (s : SchedState P) : Prop where
  first : ∀ {hadFail task toSleep}, s.phase = .waiting hadFail task toSleep →
    ∀ x ∈ s.sch.queue, task.timeToExecute ≤ x.timeToExecute
  due : ∀ {hadFail task toSleep}, s.phase = .waiting hadFail task toSleep →
    task.timeToExecute ≤ s.clock + toSleep
  bounded : ∀ {hadFail task toSleep}, s.phase = .waiting hadFail task toSleep →
    toSleep < 2 ^ 32
  executions : ExecutionsProper s.events

/-- The flag `had_fail` of the call of `SchedRun`. -/
def RunPhase.flag : RunPhase P → Option Bool
  | .looping hadFail => some hadFail
  | .waiting hadFail _ _ => some hadFail
  | .executing hadFail _ => some hadFail
  | _ => none

/-- The end of an operation that fails. -/
def SchedAction.fails : SchedAction P → Bool
  | .finish result => decide (result < 0)
  | _ => false

/-- The status says that an operation failed. -/
def RunStatus.saysFailed : RunStatus → Bool
  | .FAILED_TASKS_EMPTY_SCHED | .FAILED_TASKS_NON_EMPTY_SCHED => true
  | _ => false

/-- The status says that the queue is empty. -/
def RunStatus.saysEmpty : RunStatus → Bool
  | .SUCCESS | .FAILED_TASKS_EMPTY_SCHED => true
  | _ => false

/-- A step inside of a call of `SchedRun` collects its failure. -/
theorem SchedState.Effect.flag {s s' : SchedState P} {a : SchedAction P} (h : s.Effect a s')
    (hrun : a ≠ .run) {hadFail : Bool} (hflag : s'.phase.flag = some hadFail) :
    ∃ before, s.phase.flag = some before ∧ hadFail = (before || a.fails) := by
  cases h with
  | add => exact ⟨hadFail, hflag, by simp [SchedAction.fails]⟩
  | remove => exact ⟨hadFail, hflag, by simp [SchedAction.fails]⟩
  | clear => exact ⟨hadFail, hflag, by simp [SchedAction.fails]⟩
  | stop => exact ⟨hadFail, hflag, by simp [SchedAction.fails]⟩
  | destroy => cases hflag
  | run => exact absurd rfl hrun
  | take before task sch hphase =>
      exact ⟨before, by rw [hphase]; rfl, by cases hflag; simp [SchedAction.fails]⟩
  | leave => cases hflag
  | sleep before task toSleep hphase =>
      exact ⟨before, by rw [hphase]; rfl, by cases hflag; simp [SchedAction.fails]⟩
  | execute before task hphase =>
      exact ⟨before, by rw [hphase]; rfl, by cases hflag; simp [SchedAction.fails]⟩
  | fail before task hphase hresult =>
      exact ⟨before, by rw [hphase]; rfl, by cases hflag; simp [SchedAction.fails, hresult]⟩
  | cease before task hphase hresult =>
      exact ⟨before, by rw [hphase]; rfl, by cases hflag; simp [SchedAction.fails, hresult]⟩
  | rearm before task sch hphase hresult =>
      refine ⟨before, by rw [hphase]; rfl, ?_⟩
      cases hflag
      simp [SchedAction.fails, Int.le_of_lt hresult]
  | tick => exact ⟨hadFail, hflag, by simp [SchedAction.fails]⟩

/-- What a run of the scheduler promises up to a state: an execution takes the task that is due
first, at its time or later and before its cleanup; every task is cleaned up once when it is no
longer live; and the status of a call of `SchedRun` tells of the failures and of the queue. -/
structure SchedState.Faithful (s : SchedState P) : Prop where
  executes : ∀ s', s.step .execute = some s' → ∃ hadFail task,
    s.phase = .waiting hadFail task 0 ∧ s'.events = .executed task s.clock :: s.events ∧
      task.timeToExecute ≤ s.clock ∧ ∀ x ∈ s.sch.queue, task.timeToExecute ≤ x.timeToExecute
  executions : ExecutionsProper s.events
  cleanups : (createdTasks s.events).Perm (cleanedTasks s.events ++ s.live)
  destroyed : s.phase = .destroyed → (createdTasks s.events).Perm (cleanedTasks s.events)
  returns : ∀ s₁ labels s₂ s₃, s.step .run = some s₁ → SchedAction.run ∉ labels →
    (schedMachine P).run s₁ labels = some s₂ → s₂.step .next = some s₃ → s₃.phase = .idle →
      ∃ status, s₃.events = .returned status :: s₂.events ∧ status ≠ .FAILED_ALLOC ∧
        (status.saysFailed = true ↔ ∃ result, SchedAction.finish result ∈ labels ∧ result < 0) ∧
          (status.saysEmpty = true ↔ s₃.sch.queue = [])

/-- A delay of 2 ^ 32 seconds or more can end early: the condition is exact. -/
theorem executes_early {s : SchedState P} (h : s.sch.Wf) {s' : SchedState P}
    (hlate : ¬ DueWithin s .next) (hstep : s.step .next = some s') :
    ∃ slept s'' task time, (schedMachine P).run s' [.sleep slept 0, .execute] = some s'' ∧
      s''.events = .executed task time :: s.events ∧ time < task.timeToExecute := by
  simp only [DueWithin, not_forall, Int.not_lt] at hlate
  obtain ⟨hgo, task, hpeek, hfar⟩ := hlate
  obtain ⟨-, heffect⟩ := SchedState.step_effect h hstep
  cases heffect with
  | leave hadFail hphase hend =>
      -- neither of the two ends: no stop is asked for, and the queue has a task
      rcases hend with hstop | hempty
      · rw [hgo] at hstop
        cases hstop
      · have hnone : heapPeek s.sch.heap = none :=
          Array.getElem?_eq_none (Nat.le_of_eq (heapIsEmpty_iff.mp hempty))
        rw [hnone] at hpeek
        cases hpeek
  | take hadFail first sch hphase hstop hfirstPeek hqueue hfirst hkeep =>
      obtain rfl : task = first := Option.some.inj (hpeek.symm.trans hfirstPeek)
      have hlong : 2 ^ 32 ≤ taskGetTimeToRun task s.clock := by
        unfold taskGetTimeToRun
        omega
      have hne : taskGetTimeToRun task s.clock ≠ 0 := by omega
      refine ⟨taskGetTimeToRun task s.clock % 2 ^ 32, { s with
        sch := sch
        clock := s.clock + (taskGetTimeToRun task s.clock % 2 ^ 32 : Nat)
        phase := .executing hadFail task
        events := .executed task (s.clock + (taskGetTimeToRun task s.clock % 2 ^ 32 : Nat)) ::
          s.events }, task, _, ?_, rfl, ?_⟩
      · simp [Machine.run, schedMachine, SchedState.step, hne]
      · omega

/-! ## Two runs -/

end Sched
end InfinityLabs
