import InfinityLabs.Framework.PoolAccounting

/-!
# What a paused pool executes

Shrinking a paused pool releases as many permits as there are workers to remove.  A worker
that is woken for its removal takes what is at the front of the queue, and the tasks of
stopping have the least priority: as long as a task of the users is queued, it is executed
first.  Where no task of a user stands in the queue together with a task of stopping, a
worker that is awake always finds a pause task.
-/

namespace InfinityLabs
namespace Framework

open Lib

/-! ## The pause -/

/-- The pause has taken effect: no call is in progress and every worker is blocked in its
pause task. -/
def ThreadPool.PauseInEffect (pool : ThreadPool) : Prop :=
  pool.isPaused = true ∧ pool.call = .idle ∧ pool.semPause = 0 ∧
    ∀ w ∈ pool.workers, w = .pausing

instance (pool : ThreadPool) : Decidable pool.PauseInEffect :=
  inferInstanceAs (Decidable (_ ∧ _ ∧ _ ∧ _))

/-- The task was added by a user. -/
def Task.isUser : Task → Bool
  | .user _ _ => true
  | _ => false

/-- A task of a user is queued. -/
def ThreadPool.hasUserTask (pool : ThreadPool) : Bool := pool.tasks.any Task.isUser

/-- The step brings no task of a user and no task of stopping together: the pool shrinks
while no task of a user is queued, and none is added until the tasks of stopping are taken. -/
def SparesTasks (pool : ThreadPool) : PoolAction → Prop
  | .setNumOfThreads newNumThreads =>
      newNumThreads < pool.numThreads → pool.hasUserTask = false
  | .add _ => pool.stops + pool.call.stopsToAdd = 0
  | _ => True

instance (pool : ThreadPool) (a : PoolAction) : Decidable (SparesTasks pool a) :=
  match a with
  | .setNumOfThreads newNumThreads =>
      inferInstanceAs (Decidable (newNumThreads < pool.numThreads → _))
  | .add _ => inferInstanceAs (Decidable (_ = 0))
  | .run => instDecidableTrue
  | .pause => instDecidableTrue
  | .goOn => instDecidableTrue
  | .pop _ _ => instDecidableTrue
  | .executed _ => instDecidableTrue
  | .acquire _ => instDecidableTrue
  | .leave _ => instDecidableTrue

/-- The pool holds its workers: a worker that is awake has a pause task to take, unless no
task of a user is queued. -/
structure ThreadPool.Holds (pool : ThreadPool) : Prop where
  accounted : pool.Accounted
  paused : pool.isPaused = true
  spared : pool.hasUserTask = true → pool.stops + pool.call.stopsToAdd = 0
  created : pool.call.pausesToAdd ≤ pool.call.toCreate

/-- A pause that has taken effect holds the workers. -/
theorem ThreadPool.PauseInEffect.holds {pool : ThreadPool} (h : pool.PauseInEffect)
    (haccounted : pool.Accounted) : pool.Holds := by
  obtain ⟨hpaused, hidle, -, -⟩ := h
  obtain ⟨-, -, hstops, -⟩ := haccounted.idle hidle
  refine ⟨haccounted, hpaused, fun _ => ?_, ?_⟩
  · rw [hstops, hidle]
    rfl
  · rw [hidle]
    exact Nat.le_refl 0

/-! ## The steps -/

theorem count_add_count_le_length {α : Type} [DecidableEq α] {a b : α} (hne : a ≠ b)
    (l : List α) : l.count a + l.count b ≤ l.length := by
  induction l with
  | nil => exact Nat.le_refl 0
  | cons c rest ih =>
      simp only [List.count_cons, List.length_cons, beq_iff_eq]
      split <;> split <;> try omega
      next ha hb => exact absurd (ha.symm.trans hb) hne

theorem Task.priority_user_lt_pause (id : Nat) (priority : Priority) :
    (Task.user id priority).priority < Task.badApplePause.priority := by
  show priority.value < badApplePausePriority
  cases priority <;> decide

/-- Where a worker is awake and a task of a user is queued, a pause task is queued too. -/
theorem ThreadPool.Holds.pauses_pos {pool : ThreadPool} (h : pool.Holds)
    {w₁ w₂ : List Worker} (hworkers : pool.workers = w₁ ++ .popping :: w₂)
    (huser : pool.hasUserTask = true) : 0 < pool.pauses := by
  obtain ⟨⟨hlength, -, hpauses, -⟩, hpaused, hspared, hcreated⟩ := h
  have hstops := hspared huser
  have hne : Worker.pausing ≠ .leaving := by decide
  -- one of the workers is awake, so not all of them hold a pause task or leave
  have hcounts := count_add_count_le_length hne (w₁ ++ w₂)
  rw [if_pos hpaused] at hpauses
  simp only [leaving, pausing, hworkers, count_take_out, length_take_out, reduceCtorEq, if_false]
    at hlength hpauses
  omega

/-- A held pool starts no task of a user. -/
theorem ThreadPool.Holds.not_popUser {pool : ThreadPool} (h : pool.Holds) {id : Nat}
    {priority : Priority} {w₁ w₂ : List Worker} {t₁ t₂ : List Task}
    (hworkers : pool.workers = w₁ ++ .popping :: w₂)
    (htasks : pool.tasks = t₁ ++ .user id priority :: t₂) :
    ¬ IsFront pool.tasks (.user id priority) := by
  intro hfront
  have huser : pool.hasUserTask = true := by
    rw [hasUserTask, List.any_eq_true]
    refine ⟨.user id priority, ?_, rfl⟩
    rw [htasks]
    exact List.mem_append_right _ List.mem_cons_self
  have hpause : Task.badApplePause ∈ pool.tasks :=
    List.count_pos_iff.mp (h.pauses_pos hworkers huser)
  have hle := hfront _ hpause
  have hlt := Task.priority_user_lt_pause id priority
  omega

/-- What the next step of a call leaves as it is. -/
theorem ThreadPool.Round.keeps {pool pool' : ThreadPool} (hround : pool.Round pool') :
    pool'.isPaused = pool.isPaused ∧ pool'.hasUserTask = pool.hasUserTask ∧
      pool'.started = pool.started ∧
      pool'.stops + pool'.call.stopsToAdd = pool.stops + pool.call.stopsToAdd ∧
      (pool.call.pausesToAdd ≤ pool.call.toCreate →
        pool'.call.pausesToAdd ≤ pool'.call.toCreate) := by
  cases hround <;> rename_i hcall <;> refine ⟨rfl, rfl, rfl, ?_, ?_⟩ <;>
    simp only [stops, push, hcall, Call.stopsToAdd, Call.pausesToAdd, Call.toCreate,
      List.count_cons, beq_iff_eq, reduceCtorEq, if_true, if_false] <;>
    omega

/-- The queue without a task of the pool has the same tasks of users. -/
theorem ThreadPool.hasUserTask_take_out {pool : ThreadPool} {t : Task} {t₁ t₂ : List Task}
    (htasks : pool.tasks = t₁ ++ t :: t₂) (hpool : t.isUser = false) :
    (t₁ ++ t₂).any Task.isUser = pool.hasUserTask := by
  rw [hasUserTask, htasks, List.any_append, List.any_append, List.any_cons, hpool, Bool.false_or]

/-- `SetNumOfThreads` holds the workers, where it spares the tasks. -/
theorem ThreadPool.Holds.setNumOfThreads {pool : ThreadPool} (h : pool.Holds)
    (hidle : pool.call = .idle) {newNumThreads : Nat}
    (hspares : newNumThreads < pool.numThreads → pool.hasUserTask = false) :
    (pool.setNumOfThreads newNumThreads).Holds ∧
      (pool.setNumOfThreads newNumThreads).started = pool.started := by
  have haccounted := h.accounted.setNumOfThreads hidle newNumThreads
  obtain ⟨-, -, hstops, -⟩ := h.accounted.idle hidle
  revert haccounted
  rw [ThreadPool.setNumOfThreads]
  split
  · rw [stretchThreads, if_pos h.paused]
    intro haccounted
    exact ⟨⟨haccounted, h.paused, fun _ => hstops, Nat.le_refl _⟩, rfl⟩
  · intro haccounted
    refine ⟨⟨haccounted, h.paused, fun huser => ?_, Nat.le_refl _⟩, rfl⟩
    have hge : ¬ newNumThreads < pool.numThreads := fun hlt =>
      Bool.false_ne_true ((hspares hlt).symm.trans huser)
    show pool.stops + (pool.numThreads - newNumThreads) = 0
    omega

/-- A step that is no call of `Run` and spares the tasks holds the workers and starts no task
of a user. -/
theorem ThreadPool.Effect.holds {pool pool' : ThreadPool} {a : PoolAction}
    (heffect : pool.Effect a pool') (h : pool.Holds) (hrun : a ≠ .run)
    (hspares : SparesTasks pool a) : pool'.Holds ∧ pool'.started = pool.started := by
  have haccounted := heffect.accounted h.accounted
  cases heffect with
  | add priority => exact ⟨⟨haccounted, h.paused, fun _ => hspares, h.created⟩, rfl⟩
  | run hidle => exact absurd rfl hrun
  | pause hidle =>
      have hsame : pool.pause = pool := if_pos h.paused
      rw [hsame]
      exact ⟨h, rfl⟩
  | setNumOfThreads newNumThreads hidle => exact h.setNumOfThreads hidle hspares
  | goOn hround =>
      obtain ⟨hpaused, huser, hstarted, hstops, hcreated⟩ := hround.keeps
      refine ⟨⟨haccounted, hpaused.trans h.paused, fun hu => ?_, hcreated h.created⟩, hstarted⟩
      exact hstops.trans (h.spared (huser.symm.trans hu))
  | popUser worker task hworkers htasks hfront =>
      exact absurd hfront (h.not_popUser hworkers htasks)
  | @popPause _ _ w₁ w₂ t₁ t₂ hworkers htasks =>
      refine ⟨⟨haccounted, h.paused, fun huser => ?_, h.created⟩, rfl⟩
      have hspared := h.spared ((hasUserTask_take_out htasks rfl).symm.trans huser)
      simp only [stops, htasks, count_take_out] at hspared ⊢
      omega
  | @popStop _ _ w₁ w₂ t₁ t₂ hworkers htasks hfront =>
      refine ⟨⟨haccounted, h.paused, fun huser => ?_, h.created⟩, rfl⟩
      have hspared := h.spared ((hasUserTask_take_out htasks rfl).symm.trans huser)
      simp only [stops, htasks, count_take_out] at hspared ⊢
      omega
  | executed worker hworkers =>
      exact ⟨⟨haccounted, h.paused, h.spared, h.created⟩, rfl⟩
  | acquire worker hworkers hpermit =>
      exact ⟨⟨haccounted, h.paused, h.spared, h.created⟩, rfl⟩
  | leave worker hworkers =>
      exact ⟨⟨haccounted, h.paused, h.spared, h.created⟩, rfl⟩

/-! ## The runs -/

/-- The same of a run. -/
theorem ThreadPool.Holds.run {pool pool' : ThreadPool} {labels : List PoolAction}
    (h : pool.Holds) (hnoRun : .run ∉ labels)
    (hadmits : poolMachine.Admits SparesTasks pool labels)
    (hrun : poolMachine.run pool labels = some pool') :
    pool'.Holds ∧ pool'.started = pool.started := by
  refine Machine.run_invariant (I := fun s => s.Holds ∧ s.started = pool.started)
    ?_ ⟨h, rfl⟩ hadmits hrun
  rintro s a s' hmem hspares ⟨hholds, hstarted⟩ hstep
  have hne : a ≠ .run := fun heq => hnoRun (heq ▸ hmem)
  obtain ⟨hholds', hstarted'⟩ := (step_effect hstep).holds hholds hne hspares
  exact ⟨hholds', hstarted'.trans hstarted⟩

/-- A paused pool executes nothing, as long as no task of a user meets a task of stopping:
from the point where a pause has taken effect no task of a user starts in any run without a
call of `Run`. -/
theorem pool_pauseHolds {pool pool' : ThreadPool} {labels : List PoolAction}
    (hreached : poolMachine.Reached pool) (heffect : pool.PauseInEffect)
    (hnoRun : .run ∉ labels) (hadmits : poolMachine.Admits SparesTasks pool labels)
    (hrun : poolMachine.run pool labels = some pool') : pool'.started = pool.started :=
  ((heffect.holds (ThreadPool.accounted_of_reached hreached)).run hnoRun hadmits hrun).2

/-- The steps of two workers that are created, woken by `Run` and paused again. -/
def pausedLabels : List PoolAction :=
  [.goOn, .goOn, .goOn, .goOn, .goOn, .goOn, .pop 0 0, .pop 1 0, .run, .acquire 0, .acquire 1,
    .pause, .goOn, .goOn, .goOn, .pop 1 1, .pop 0 0]

/-- A pool of two workers, paused. -/
def pausedPool : ThreadPool :=
  { ThreadPool.initial with numThreads := 2, workers := [.pausing, .pausing] }

theorem reached_pausedPool : poolMachine.Reached pausedPool := by
  have hrun : poolMachine.run (ThreadPool.ctor 2) pausedLabels = some pausedPool := by decide
  exact Machine.Reached.run (.start ⟨2, rfl⟩) hrun

/-- The paused pool with a third worker, and a task added before and after its pause task. -/
def grownPool : ThreadPool :=
  { pausedPool with
    numThreads := 3, workers := [.popping, .pausing, .pausing], nextId := 2,
    tasks := [.user 1 .high, .badApplePause, .user 0 .low] }

/-- Growing the paused pool starts none of the tasks. -/
theorem pool_pauseHolds_grownPool : grownPool.started = pausedPool.started := by
  have hrun : poolMachine.run pausedPool
      [.add .low, .setNumOfThreads 3, .goOn, .add .high, .goOn, .goOn, .goOn] =
        some grownPool := by
    decide
  exact pool_pauseHolds reached_pausedPool (by decide) (by decide) (by decide) hrun

/-- Shrinking the paused pool by one thread wakes a worker, which starts the queued task. -/
theorem shrunkPool_startsTask :
    ∃ (pool pool' : ThreadPool) (labels : List PoolAction),
      poolMachine.Reached pool ∧ pool.PauseInEffect ∧ .run ∉ labels ∧
        poolMachine.run pool labels = some pool' ∧ pool'.started ≠ pool.started :=
  ⟨pausedPool, _, [.add .low, .setNumOfThreads 1, .goOn, .goOn, .acquire 0, .pop 0 1],
    reached_pausedPool, by decide, by decide, rfl, by decide⟩

/-!
## The permits of the thread pool

Between two calls the pause tasks outnumber the permits by the threads of the pool while it is
paused, and by none while it runs.  A running pool therefore has exactly one permit for every
pause task: no worker stays asleep in one, and no permit is left for a later pause.
-/

/-- The step is one of the workers or of a thread that adds a task, not a call of the owner. -/
def PoolAction.isOthers : PoolAction → Bool
  | .run | .pause | .setNumOfThreads _ | .goOn => false
  | _ => true

/-- The steps of the others leave the call and the flag as they are. -/
theorem ThreadPool.Effect.others {pool pool' : ThreadPool} {a : PoolAction}
    (heffect : pool.Effect a pool') (hothers : a.isOthers = true) :
    pool'.call = pool.call ∧ pool'.isPaused = pool.isPaused := by
  cases heffect with
  | run hidle => cases hothers
  | pause hidle => cases hothers
  | setNumOfThreads newNumThreads hidle => cases hothers
  | goOn hround => cases hothers
  | add priority => exact ⟨rfl, rfl⟩
  | popUser worker task hworkers htasks hfront => exact ⟨rfl, rfl⟩
  | popPause worker task hworkers htasks => exact ⟨rfl, rfl⟩
  | popStop worker task hworkers htasks hfront => exact ⟨rfl, rfl⟩
  | executed worker hworkers => exact ⟨rfl, rfl⟩
  | acquire worker hworkers hpermit => exact ⟨rfl, rfl⟩
  | leave worker hworkers => exact ⟨rfl, rfl⟩

/-- A run of the others leaves the call and the flag as they are. -/
theorem ThreadPool.others_run {pool pool' : ThreadPool} {labels : List PoolAction}
    (hothers : ∀ a ∈ labels, a.isOthers = true)
    (hrun : poolMachine.run pool labels = some pool') :
    pool'.call = pool.call ∧ pool'.isPaused = pool.isPaused := by
  refine Machine.run_invariant
    (I := fun s => s.call = pool.call ∧ s.isPaused = pool.isPaused) ?_ ⟨rfl, rfl⟩
    (Machine.admits_of_run hrun) hrun
  rintro s a s' hmem - ⟨hcall, hpaused⟩ hstep
  obtain ⟨hcall', hpaused'⟩ := (step_effect hstep).others (hothers a hmem)
  exact ⟨hcall'.trans hcall, hpaused'.trans hpaused⟩

/-- The call and the flag after `Run`. -/
theorem ThreadPool.run_keeps (pool : ThreadPool) :
    pool.run.call = pool.call ∧ pool.run.isPaused = false := by
  rw [run]
  split
  case isTrue => exact ⟨rfl, rfl⟩
  case isFalse hrunning => exact ⟨rfl, Bool.eq_false_iff.mpr hrunning⟩

/-- A running pool has one permit for every pause task. -/
theorem ThreadPool.Accounted.permits_eq {pool : ThreadPool} (h : pool.Accounted)
    (hidle : pool.call = .idle) (hrunning : pool.isPaused = false) :
    pool.semPause = pool.pauses + pool.pausing := by
  obtain ⟨-, -, -, -, hpauses⟩ := h.idle hidle
  rw [hrunning] at hpauses
  simp only [Bool.false_eq_true, if_false] at hpauses
  omega

/-- A worker in a pause task wakes where a permit is left. -/
theorem ThreadPool.exists_acquire {pool : ThreadPool} {worker : Nat}
    (hworker : pool.workers[worker]? = some .pausing) (hpermit : pool.semPause ≠ 0) :
    ∃ pool', pool.step (.acquire worker) = some pool' := by
  refine ⟨{ pool with
    workers := pool.workers.set worker .popping, semPause := pool.semPause - 1 }, ?_⟩
  simp only [step, hworker]
  exact if_neg hpermit

/-- Some worker is in a pause task. -/
theorem ThreadPool.pausing_pos {pool : ThreadPool} {worker : Nat}
    (hworker : pool.workers[worker]? = some .pausing) : 0 < pool.pausing :=
  List.count_pos_iff.mpr (List.mem_of_getElem? hworker)

/-- In every reachable pool between two calls the pause tasks, queued or executed, less the
permits are the threads of a paused pool and none of a running one.  Whatever the workers do
after the next `Run`, there is one permit for every pause task, so each worker that is in one
wakes, and without pause tasks there is no permit. -/
theorem pool_pauseAccounting {pool : ThreadPool} (hreached : poolMachine.Reached pool)
    (hidle : pool.call = .idle) :
    ((pool.pauses + pool.pausing : Nat) : Int) - (pool.semPause : Int) =
        (if pool.isPaused then pool.numThreads else 0 : Nat) ∧
      ∀ (labels : List PoolAction) (pool' : ThreadPool),
        (∀ a ∈ labels, a.isOthers = true) →
        poolMachine.run pool (.run :: labels) = some pool' →
        pool'.semPause = pool'.pauses + pool'.pausing ∧
          ∀ worker, pool'.workers[worker]? = some .pausing →
            ∃ pool'', pool'.step (.acquire worker) = some pool'' := by
  have haccounted := ThreadPool.accounted_of_reached hreached
  constructor
  · obtain ⟨-, -, -, -, hpauses⟩ := haccounted.idle hidle
    omega
  · intro labels pool' hothers hrun
    have haccounted' := ThreadPool.accounted_of_reached (Machine.Reached.run hreached hrun)
    obtain ⟨pool₁, hrun₁, hrest⟩ := Machine.exists_step_of_run_cons hrun
    have hpool₁ : pool₁ = pool.run := by
      have hstep : pool.step .run = some pool.run := if_pos hidle
      exact Option.some.inj (hrun₁.symm.trans hstep)
    obtain ⟨hcall, hpaused⟩ := ThreadPool.others_run hothers hrest
    rw [hpool₁] at hcall hpaused
    have hpermits := haccounted'.permits_eq
      (hcall.trans (pool.run_keeps.1.trans hidle)) (hpaused.trans pool.run_keeps.2)
    refine ⟨hpermits, fun worker hworker => ThreadPool.exists_acquire hworker ?_⟩
    have hpos := ThreadPool.pausing_pos hworker
    omega

/-- The two workers of the paused pool hold two pause tasks, and no permit is left. -/
theorem pool_pauseAccounting_pausedPool :
    ((pausedPool.pauses + pausedPool.pausing : Nat) : Int) - (pausedPool.semPause : Int) = 2 :=
  (pool_pauseAccounting reached_pausedPool rfl).1

end Framework
end InfinityLabs
