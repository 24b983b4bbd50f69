import InfinityLabs.Framework.PoolAccounting
import InfinityLabs.Framework.PoolPause

/-!
# The work of a call of the thread pool

A call of `SetNumOfThreads` or `Pause` returns, whatever the order of the steps.  The work
that is left in a pool counts the steps that its queue, its workers and the call in progress
still take: every step does one piece of it, and only a task that is added brings new work.
As long as the call is in progress, one of the steps can be taken.
-/

namespace InfinityLabs
namespace Framework

open Lib

/-! ## The steps -/

/-- The step is the beginning of a call that changes the pool. -/
def PoolAction.isCall : PoolAction → Bool
  | .run | .pause | .setNumOfThreads _ => true
  | _ => false

/-- The step adds a task. -/
def PoolAction.isAdd : PoolAction → Bool
  | .add _ => true
  | _ => false

/-- The step is taken by the call in progress or by a worker. -/
def PoolAction.isOwn (a : PoolAction) : Bool := !a.isCall && !a.isAdd

/-! ## The work that is left -/

/-- The worker has a task in hand. -/
def Worker.isBusy : Worker → Bool
  | .popping => false
  | _ => true

/-- The steps of a call, and those that a worker takes with the tasks that the call adds. -/
def Call.work : Call → Nat
  | .idle => 0
  | .pause rounds => 3 * rounds + 1
  | .stretchPause rounds numToAdd _ => 3 * rounds + numToAdd + 2
  | .stretchCreate rounds _ => rounds + 1
  | .shrinkStop rounds numToRemove _ => 3 * rounds + numToRemove + 2
  | .shrinkRemove rounds _ _ => rounds + 1

/-- The steps that are left: a worker takes two with each task in the queue, and one with the
task that it has in hand. -/
def ThreadPool.work (pool : ThreadPool) : Nat :=
  2 * pool.tasks.length + pool.workers.countP Worker.isBusy + pool.call.work

/-- The next step of a call is one piece of work. -/
theorem ThreadPool.Round.work {pool pool' : ThreadPool} (hround : pool.Round pool') :
    pool'.work + 1 = pool.work := by
  cases hround <;> rename_i hcall <;>
    simp only [ThreadPool.work, push, hcall, Call.work, Worker.isBusy, List.length_cons,
      List.countP_cons, Bool.false_eq_true, if_false] <;>
    omega

/-- A step that begins no call does one piece of work. -/
theorem ThreadPool.Effect.work {pool pool' : ThreadPool} {a : PoolAction}
    (heffect : pool.Effect a pool') (hcall : a.isCall = false) :
    pool'.work + 1 = pool.work + if a.isAdd then 3 else 0 := by
  cases heffect with
  | add priority =>
      show 2 * (pool.tasks.length + 1) + pool.workers.countP Worker.isBusy + pool.call.work + 1 =
        2 * pool.tasks.length + pool.workers.countP Worker.isBusy + pool.call.work + 3
      omega
  | run hidle => cases hcall
  | pause hidle => cases hcall
  | setNumOfThreads newNumThreads hidle => cases hcall
  | goOn hround => exact hround.work
  | popUser worker task hw ht hfront =>
      simp only [ThreadPool.work, hw, ht, countP_take_out, length_take_out, Worker.isBusy,
        PoolAction.isAdd, Bool.false_eq_true, if_false, if_true]
      omega
  | popPause worker task hw ht =>
      simp only [ThreadPool.work, hw, ht, countP_take_out, length_take_out, Worker.isBusy,
        PoolAction.isAdd, Bool.false_eq_true, if_false, if_true]
      omega
  | popStop worker task hw ht hfront =>
      simp only [ThreadPool.work, hw, ht, countP_take_out, length_take_out, Worker.isBusy,
        PoolAction.isAdd, Bool.false_eq_true, if_false, if_true]
      omega
  | executed worker hw =>
      simp only [ThreadPool.work, hw, countP_take_out, Worker.isBusy, PoolAction.isAdd,
        Bool.false_eq_true, if_false, if_true]
      omega
  | acquire worker hw hpermit =>
      simp only [ThreadPool.work, hw, countP_take_out, Worker.isBusy, PoolAction.isAdd,
        Bool.false_eq_true, if_false, if_true]
      omega
  | leave worker hw =>
      simp only [ThreadPool.work, hw, countP_take_out, Worker.isBusy, PoolAction.isAdd,
        Bool.false_eq_true, if_false, if_true]
      omega

/-- A run without new calls takes as many steps as it does work. -/
theorem ThreadPool.work_run {pool pool' : ThreadPool} {labels : List PoolAction}
    (hquiet : ∀ a ∈ labels, a.isCall = false)
    (hrun : poolMachine.run pool labels = some pool') :
    labels.length + pool'.work = pool.work + 3 * labels.countP PoolAction.isAdd := by
  refine Machine.run_rank ?_ hrun
  intro s a s' hmem hstep
  exact (step_effect hstep).work (hquiet a hmem)

/-! ## A call in progress goes on -/

/-- A queue that is not empty has a front. -/
theorem exists_isFront {tasks : List Task} (h : tasks ≠ []) : ∃ t ∈ tasks, IsFront tasks t := by
  induction tasks with
  | nil => exact absurd rfl h
  | cons t rest ih =>
      by_cases hrest : rest = []
      · subst hrest
        refine ⟨t, List.mem_cons_self, fun u hu => ?_⟩
        exact Int.le_of_eq (congrArg Task.priority (List.mem_singleton.mp hu))
      · obtain ⟨u, hu, hfront⟩ := ih hrest
        by_cases hle : t.priority ≤ u.priority
        · refine ⟨u, List.mem_cons_of_mem _ hu, fun v hv => ?_⟩
          rcases List.mem_cons.mp hv with rfl | hv
          · exact hle
          · exact hfront v hv
        · refine ⟨t, List.mem_cons_self, fun v hv => ?_⟩
          rcases List.mem_cons.mp hv with rfl | hv
          · exact Int.le_refl _
          · have hmax := hfront v hv
            omega

/-- The own step `a` can be taken. -/
def ThreadPool.CanTake (pool : ThreadPool) (a : PoolAction) : Prop :=
  a.isOwn = true ∧ (poolMachine.step pool a).isSome

theorem ThreadPool.canTake_leave {pool : ThreadPool} (h : .leaving ∈ pool.workers) :
    ∃ a, pool.CanTake a := by
  obtain ⟨worker, hworker⟩ := List.mem_iff_getElem?.mp h
  refine ⟨.leave worker, rfl, ?_⟩
  show (pool.step (.leave worker)).isSome
  rw [step, hworker]
  rfl

theorem ThreadPool.canTake_executed {pool : ThreadPool} {id : Nat}
    (h : .executing id ∈ pool.workers) : ∃ a, pool.CanTake a := by
  obtain ⟨worker, hworker⟩ := List.mem_iff_getElem?.mp h
  refine ⟨.executed worker, rfl, ?_⟩
  show (pool.step (.executed worker)).isSome
  rw [step, hworker]
  rfl

theorem ThreadPool.canTake_acquire {pool : ThreadPool} (h : .pausing ∈ pool.workers)
    (hpermit : pool.semPause ≠ 0) : ∃ a, pool.CanTake a := by
  obtain ⟨worker, hworker⟩ := List.mem_iff_getElem?.mp h
  refine ⟨.acquire worker, rfl, ?_⟩
  show (pool.step (.acquire worker)).isSome
  rw [step, hworker]
  simp only [if_neg hpermit, Option.isSome_some]

theorem ThreadPool.canTake_pop {pool : ThreadPool} (h : .popping ∈ pool.workers)
    (htasks : pool.tasks ≠ []) : ∃ a, pool.CanTake a := by
  obtain ⟨worker, hworker⟩ := List.mem_iff_getElem?.mp h
  obtain ⟨t, ht, hfront⟩ := exists_isFront htasks
  obtain ⟨task, htask⟩ := List.mem_iff_getElem?.mp ht
  refine ⟨.pop worker task, rfl, ?_⟩
  show (pool.step (.pop worker task)).isSome
  rw [step, hworker, htask]
  simp only [if_pos hfront, Option.isSome_some]

/-- A call goes on, or waits for the next worker in `m_threads_to_remove`. -/
theorem ThreadPool.goOn_or_waits {pool : ThreadPool} (h : pool.call ≠ .idle) :
    (∃ a, pool.CanTake a) ∨
      ∃ rounds numToRemove newNumThreads,
        pool.call = .shrinkRemove (rounds + 1) numToRemove newNumThreads ∧
          pool.threadsToRemove = 0 := by
  have hgoOn : pool.goOn.isSome → ∃ a, pool.CanTake a := fun hsome => ⟨.goOn, rfl, hsome⟩
  cases hcall : pool.call with
  | idle => exact absurd hcall h
  | pause rounds =>
      left
      apply hgoOn
      cases rounds <;> rw [goOn, hcall] <;> rfl
  | stretchPause rounds numToAdd newNumThreads =>
      left
      apply hgoOn
      cases rounds <;> rw [goOn, hcall] <;> rfl
  | stretchCreate rounds newNumThreads =>
      left
      apply hgoOn
      cases rounds <;> rw [goOn, hcall] <;> rfl
  | shrinkStop rounds numToRemove newNumThreads =>
      left
      apply hgoOn
      cases rounds <;> rw [goOn, hcall] <;> rfl
  | shrinkRemove rounds numToRemove newNumThreads =>
      cases rounds with
      | zero =>
          left
          apply hgoOn
          rw [goOn, hcall]
          rfl
      | succ rounds =>
          by_cases hremove : pool.threadsToRemove = 0
          · exact Or.inr ⟨rounds, numToRemove, newNumThreads, rfl, hremove⟩
          · left
            apply hgoOn
            rw [goOn, hcall]
            simp only [if_neg hremove, Option.isSome_some]

/-- As long as a call is in progress, it or a worker can take a step. -/
theorem ThreadPool.Accounted.canTake {pool : ThreadPool} (h : pool.Accounted)
    (hbusy : pool.call ≠ .idle) : ∃ a, pool.CanTake a := by
  rcases goOn_or_waits hbusy with hgoOn | ⟨rounds, numToRemove, newNumThreads, hcall, hremove⟩
  · exact hgoOn
  obtain ⟨hworkers, hremovals, hpauses, -⟩ := h
  simp only [hcall, hremove, target, Call.target, Call.toCreate, Call.stopsToAdd, Call.toRemove,
    Call.pausesToAdd, Call.toRelease, Nat.add_zero, Nat.zero_add] at hworkers hremovals hpauses
  -- the call waits for a worker that leaves, or that still has a task of stopping to take
  by_cases hleaving : .leaving ∈ pool.workers
  · exact canTake_leave hleaving
  have hnone : pool.leaving = 0 := List.count_eq_zero.mpr hleaving
  have hstops : 0 < pool.stops := by omega
  have htasks : pool.tasks ≠ [] := List.ne_nil_of_mem (List.count_pos_iff.mp hstops)
  by_cases hall : ∀ w ∈ pool.workers, .pausing = w
  · -- every worker waits for a permit, and those of the workers to remove are there
    have hpausing : pool.pausing = pool.workers.length := List.count_eq_length.mpr hall
    have hpermit : pool.semPause ≠ 0 := by
      split at hpauses <;> omega
    refine canTake_acquire (List.count_pos_iff.mp ?_) hpermit
    show 0 < pool.pausing
    omega
  · simp only [Classical.not_forall] at hall
    obtain ⟨w, hmem, hne⟩ := hall
    cases w with
    | popping => exact canTake_pop hmem htasks
    | executing id => exact canTake_executed hmem
    | pausing => exact absurd rfl hne
    | leaving => exact canTake_leave hmem

/-!
## Stopping drains the pool

Every task that was added is queued, executed by a worker or finished, and only one of these.
A task of stopping is taken only where no task of a user is queued, and a call that shrinks
the pool returns only when its tasks of stopping are taken: what was added before it has left
the queue.  A call that stops the pool waits for all workers, and so for what they execute.
-/

/-! ## Every task is in one place -/

/-- The task was added with the number `id`. -/
def Task.hasId (id : Nat) : Task → Bool
  | .user other _ => other == id
  | _ => false

/-- The places of a task in the queue. -/
def ThreadPool.queued (pool : ThreadPool) (id : Nat) : Nat := pool.tasks.countP (Task.hasId id)

/-- The workers that execute a task. -/
def ThreadPool.executing (pool : ThreadPool) (id : Nat) : Nat :=
  pool.workers.count (.executing id)

/-- A task that was added is queued, executed or finished, once, and it was started when it is
executed or finished. -/
structure ThreadPool.Numbered (pool : ThreadPool) : Prop where
  once : ∀ id, pool.queued id + pool.executing id + pool.finished.count id =
    if id < pool.nextId then 1 else 0
  begun : ∀ id, pool.started.count id = pool.executing id + pool.finished.count id

theorem ThreadPool.numbered_initial : ThreadPool.initial.Numbered :=
  ⟨fun _ => rfl, fun _ => rfl⟩

/-- A step that moves no task. -/
theorem ThreadPool.Numbered.of_eq {pool pool' : ThreadPool} (h : pool.Numbered)
    (hqueued : ∀ id, pool'.queued id = pool.queued id)
    (hexecuting : ∀ id, pool'.executing id = pool.executing id)
    (hfinished : pool'.finished = pool.finished) (hstarted : pool'.started = pool.started)
    (hnext : pool'.nextId = pool.nextId) : pool'.Numbered := by
  constructor
  · intro id
    rw [hqueued, hexecuting, hfinished, hnext]
    exact h.once id
  · intro id
    rw [hstarted, hexecuting, hfinished]
    exact h.begun id

/-- The next step of a call moves no task of a user. -/
theorem ThreadPool.Round.tasks {pool pool' : ThreadPool} (hround : pool.Round pool') :
    (∀ id, pool'.queued id = pool.queued id) ∧
      (∀ id, pool'.executing id = pool.executing id) ∧
        pool'.finished = pool.finished ∧ pool'.nextId = pool.nextId ∧
          pool'.target = pool.target := by
  cases hround <;> rename_i hcall <;>
    simp only [queued, executing, target, push, hcall, Call.target, Task.hasId, List.countP_cons,
      List.count_cons, beq_iff_eq, reduceCtorEq, Bool.false_eq_true, if_false, Nat.add_zero,
      implies_true, and_self]

/-- The beginning of a call moves no task. -/
theorem ThreadPool.setNumOfThreads_tasks (pool : ThreadPool) (newNumThreads : Nat) :
    (pool.setNumOfThreads newNumThreads).tasks = pool.tasks ∧
      (pool.setNumOfThreads newNumThreads).workers = pool.workers ∧
        (pool.setNumOfThreads newNumThreads).finished = pool.finished ∧
          (pool.setNumOfThreads newNumThreads).started = pool.started ∧
            (pool.setNumOfThreads newNumThreads).nextId = pool.nextId ∧
              (pool.setNumOfThreads newNumThreads).target = newNumThreads ∧
                (pool.setNumOfThreads newNumThreads).call.stopsToAdd =
                  pool.numThreads - newNumThreads := by
  rw [setNumOfThreads]
  split
  case isTrue hlt =>
    have hzero : pool.numThreads - newNumThreads = 0 := by omega
    rw [stretchThreads, hzero]
    split <;> exact ⟨rfl, rfl, rfl, rfl, rfl, rfl, rfl⟩
  case isFalse => exact ⟨rfl, rfl, rfl, rfl, rfl, rfl, rfl⟩

theorem ThreadPool.Numbered.setNumOfThreads {pool : ThreadPool} (h : pool.Numbered)
    (newNumThreads : Nat) : (pool.setNumOfThreads newNumThreads).Numbered := by
  obtain ⟨htasks, hworkers, hfinished, hstarted, hnext, -, -⟩ :=
    pool.setNumOfThreads_tasks newNumThreads
  refine h.of_eq (fun id => ?_) (fun id => ?_) hfinished hstarted hnext
  · rw [queued, htasks, ← queued]
  · rw [executing, hworkers, ← executing]

/-- Every step keeps the tasks in their places. -/
theorem ThreadPool.Effect.numbered {pool pool' : ThreadPool} {a : PoolAction}
    (heffect : pool.Effect a pool') (h : pool.Numbered) : pool'.Numbered := by
  cases heffect with
  | add priority =>
      refine ⟨fun id => ?_, h.begun⟩
      -- the number `nextId` has no place yet
      have honce := h.once id
      show (Task.user pool.nextId priority :: pool.tasks).countP (Task.hasId id) +
        pool.executing id + pool.finished.count id = if id < pool.nextId + 1 then 1 else 0
      rw [queued] at honce
      simp only [List.countP_cons, Task.hasId, beq_iff_eq]
      split at honce <;> split <;> split <;> omega
  | run hidle =>
      rw [ThreadPool.run]
      split
      · exact h.of_eq (fun _ => rfl) (fun _ => rfl) rfl rfl rfl
      · exact h
  | pause hidle =>
      rw [ThreadPool.pause]
      split
      · exact h
      · exact h.of_eq (fun _ => rfl) (fun _ => rfl) rfl rfl rfl
  | setNumOfThreads newNumThreads hidle => exact h.setNumOfThreads newNumThreads
  | goOn hround =>
      obtain ⟨-, -, hstarted, -, -⟩ := hround.keeps
      obtain ⟨hqueued, hexecuting, hfinished, hnext, -⟩ := hround.tasks
      exact h.of_eq hqueued hexecuting hfinished hstarted hnext
  | @popUser _ _ id priority w₁ w₂ t₁ t₂ hw ht hfront =>
      constructor
      · intro i
        have honce := h.once i
        simp only [queued, executing, hw, ht, countP_take_out, count_take_out, Task.hasId,
          beq_iff_eq, reduceCtorEq, Worker.executing.injEq, if_false, Nat.add_zero] at honce ⊢
        omega
      · intro i
        have hbegun := h.begun i
        simp only [executing, hw, count_take_out, List.count_cons, beq_iff_eq, reduceCtorEq,
          Worker.executing.injEq, if_false, Nat.add_zero] at hbegun ⊢
        omega
  | popPause worker task hw ht =>
      refine h.of_eq (fun i => ?_) (fun i => ?_) rfl rfl rfl <;>
        simp only [queued, executing, hw, ht, countP_take_out, count_take_out, Task.hasId,
          reduceCtorEq, Bool.false_eq_true, if_false, Nat.add_zero]
  | popStop worker task hw ht hfront =>
      refine h.of_eq (fun i => ?_) (fun i => ?_) rfl rfl rfl <;>
        simp only [queued, executing, hw, ht, countP_take_out, count_take_out, Task.hasId,
          reduceCtorEq, Bool.false_eq_true, if_false, Nat.add_zero]
  | @executed _ id w₁ w₂ hw =>
      constructor
      · intro i
        have honce := h.once i
        simp only [queued, executing, hw, count_take_out, List.count_cons, beq_iff_eq,
          reduceCtorEq, Worker.executing.injEq, if_false, Nat.add_zero] at honce ⊢
        omega
      · intro i
        have hbegun := h.begun i
        simp only [executing, hw, count_take_out, List.count_cons, beq_iff_eq, reduceCtorEq,
          Worker.executing.injEq, if_false, Nat.add_zero] at hbegun ⊢
        omega
  | acquire worker hw hpermit =>
      refine h.of_eq (fun i => rfl) (fun i => ?_) rfl rfl rfl
      simp only [executing, hw, count_take_out, reduceCtorEq, if_false, Nat.add_zero]
  | leave worker hw =>
      refine h.of_eq (fun i => rfl) (fun i => ?_) rfl rfl rfl
      simp only [executing, hw, count_take_out, reduceCtorEq, if_false, Nat.add_zero]

/-- The tasks are in their places in every state of every run. -/
theorem ThreadPool.numbered_of_reached {pool : ThreadPool} (h : poolMachine.Reached pool) :
    pool.Numbered := by
  refine Machine.ReachedBy.invariant (I := ThreadPool.Numbered) ?_ ?_ h
  · rintro s ⟨numThreads, rfl⟩
    exact numbered_initial.setNumOfThreads numThreads
  · intro s a s' hs _ hstep
    exact (step_effect hstep).numbered hs

/-! ## What a call leaves behind -/

/-- The state of a call that began when `before` tasks had been added: it leads to `newNumThreads`
threads, and until a task of stopping is taken there are `numToRemove` of them. -/
structure ThreadPool.Drains (before newNumThreads numToRemove : Nat) (pool : ThreadPool) :
    Prop where
  accounted : pool.Accounted
  numbered : pool.Numbered
  target_eq : pool.target = newNumThreads
  added : before ≤ pool.nextId
  left : pool.stops + pool.call.stopsToAdd = numToRemove ∨ ∀ id < before, pool.queued id = 0

/-- A queue whose front is a task of stopping has no task of a user. -/
theorem ThreadPool.queued_eq_zero {pool : ThreadPool}
    (hfront : IsFront pool.tasks .badAppleStop) (id : Nat) : pool.queued id = 0 := by
  rw [queued, List.countP_eq_zero]
  intro t ht hid
  have hle := hfront t ht
  cases t with
  | user other priority =>
      have hlt : Task.badAppleStop.priority < (Task.user other priority).priority := by
        show badAppleStopPriority < priority.value
        cases priority <;> decide
      omega
  | badApplePause => cases hid
  | badAppleStop => cases hid

/-- Taking an entry out of the queue brings no task. -/
theorem queued_take_out_le {pool : ThreadPool} {t : Task} {t₁ t₂ : List Task}
    (ht : pool.tasks = t₁ ++ t :: t₂) (id : Nat) :
    (t₁ ++ t₂).countP (Task.hasId id) ≤ pool.queued id := by
  rw [ThreadPool.queued, ht, countP_take_out]
  exact Nat.le_add_right _ _

/-- A step that begins no call. -/
theorem ThreadPool.Effect.drains {pool pool' : ThreadPool} {a : PoolAction}
    (heffect : pool.Effect a pool') (hcall : a.isCall = false)
    {before newNumThreads numToRemove : Nat}
    (h : pool.Drains before newNumThreads numToRemove) :
    pool'.Drains before newNumThreads numToRemove := by
  have haccounted := heffect.accounted h.accounted
  have hnumbered := heffect.numbered h.numbered
  have hadded := h.added
  cases heffect with
  | add priority =>
      refine ⟨haccounted, hnumbered, h.target_eq, Nat.le_succ_of_le hadded, ?_⟩
      refine h.left.imp id fun hzero i hi => ?_
      -- a task that is added meanwhile is none of the earlier ones
      have hne : ¬ pool.nextId = i := by omega
      show (Task.user pool.nextId priority :: pool.tasks).countP (Task.hasId i) = 0
      rw [List.countP_cons, ← queued, hzero i hi]
      simp only [Task.hasId, beq_iff_eq, if_neg hne]
  | run hidle => cases hcall
  | pause hidle => cases hcall
  | setNumOfThreads newNumThreads hidle => cases hcall
  | goOn hround =>
      obtain ⟨-, -, -, hstops, -⟩ := hround.keeps
      obtain ⟨hqueued, -, -, hnext, htarget⟩ := hround.tasks
      refine ⟨haccounted, hnumbered, htarget.trans h.target_eq, hnext ▸ hadded, ?_⟩
      exact h.left.imp hstops.trans fun hzero i hi => (hqueued i).trans (hzero i hi)
  | popUser worker task hw ht hfront =>
      refine ⟨haccounted, hnumbered, h.target_eq, hadded, ?_⟩
      refine h.left.imp (fun hstops => ?_) fun hzero i hi => ?_
      · simp only [stops, ht, count_take_out, reduceCtorEq, if_false, Nat.add_zero] at hstops ⊢
        exact hstops
      · exact Nat.le_zero.mp (hzero i hi ▸ queued_take_out_le ht i)
  | popPause worker task hw ht =>
      refine ⟨haccounted, hnumbered, h.target_eq, hadded, ?_⟩
      refine h.left.imp (fun hstops => ?_) fun hzero i hi => ?_
      · simp only [stops, ht, count_take_out, reduceCtorEq, if_false, Nat.add_zero] at hstops ⊢
        exact hstops
      · exact Nat.le_zero.mp (hzero i hi ▸ queued_take_out_le ht i)
  | popStop worker task hw ht hfront =>
      -- the front is a task of stopping, so no task of a user is queued
      refine ⟨haccounted, hnumbered, h.target_eq, hadded, Or.inr fun i _ => ?_⟩
      exact Nat.le_zero.mp (queued_eq_zero hfront i ▸ queued_take_out_le ht i)
  | executed worker hw => exact ⟨haccounted, hnumbered, h.target_eq, hadded, h.left⟩
  | acquire worker hw hpermit => exact ⟨haccounted, hnumbered, h.target_eq, hadded, h.left⟩
  | leave worker hw => exact ⟨haccounted, hnumbered, h.target_eq, hadded, h.left⟩

/-- A call has begun. -/
theorem ThreadPool.drains_setNumOfThreads {pool : ThreadPool} (haccounted : pool.Accounted)
    (hnumbered : pool.Numbered) (hidle : pool.call = .idle) (newNumThreads : Nat) :
    (pool.setNumOfThreads newNumThreads).Drains pool.nextId newNumThreads
      (pool.numThreads - newNumThreads) := by
  obtain ⟨htasks, -, -, -, hnext, htarget, hstops⟩ := pool.setNumOfThreads_tasks newNumThreads
  obtain ⟨-, -, hnone, -⟩ := haccounted.idle hidle
  refine ⟨haccounted.setNumOfThreads hidle newNumThreads, hnumbered.setNumOfThreads newNumThreads,
    htarget, Nat.le_of_eq hnext.symm, Or.inl ?_⟩
  rw [stops, htasks, ← stops, hnone, hstops, Nat.zero_add]

/-- The same of a run without new calls. -/
theorem ThreadPool.Drains.run {pool pool' : ThreadPool} {labels : List PoolAction}
    {before newNumThreads numToRemove : Nat} (h : pool.Drains before newNumThreads numToRemove)
    (hquiet : ∀ a ∈ labels, a.isCall = false)
    (hrun : poolMachine.run pool labels = some pool') :
    pool'.Drains before newNumThreads numToRemove := by
  refine Machine.run_invariant (I := ThreadPool.Drains before newNumThreads numToRemove) ?_ h
    (Machine.admits_of_run hrun) hrun
  intro s a s' hmem _ hs hstep
  exact (step_effect hstep).drains (hquiet a hmem) hs

/-- A call that removed a thread has left no earlier task in the queue. -/
theorem ThreadPool.Drains.started {pool : ThreadPool} {before newNumThreads numToRemove : Nat}
    (h : pool.Drains before newNumThreads numToRemove) (hidle : pool.call = .idle)
    (hremove : 0 < numToRemove) {id : Nat} (hid : id < before) : pool.started.count id = 1 := by
  obtain ⟨-, -, hstops, -⟩ := h.accounted.idle hidle
  -- all tasks of stopping are taken when the call returns
  have hempty : pool.queued id = 0 := by
    rcases h.left with hleft | hzero
    · have hnone : 0 + 0 = numToRemove := by
        rw [hstops, hidle] at hleft
        exact hleft
      omega
    · exact hzero id hid
  have honce := h.numbered.once id
  rw [hempty, if_pos (Nat.lt_of_lt_of_le hid h.added)] at honce
  rw [h.numbered.begun id]
  omega

/-- A pool without workers executes no task. -/
theorem ThreadPool.Numbered.finished {pool : ThreadPool} (h : pool.Numbered)
    (hworkers : pool.workers = []) (id : Nat) :
    pool.finished.count id = pool.started.count id := by
  have hnone : pool.executing id = 0 := by
    rw [executing, hworkers]
    rfl
  rw [h.begun id, hnone, Nat.zero_add]

/-! ## Stopping -/

/-- A call of `SetNumOfThreads` drains the pool, whatever the steps of the workers and the
tasks that are added after it.  Every step is one piece of the work that the pool has and that
the tasks bring; as long as the call has not returned, there is a step to take; when it
returns, exactly `newNumThreads` workers remain.  Where it has removed a worker, every task
that was added before the call has been started exactly once, and where it is a call of
`Stop`, every such task has been executed exactly once.  The constructor makes such a call of
its own. -/
theorem pool_drains {pool called pool' : ThreadPool} {newNumThreads : Nat}
    {labels : List PoolAction} (hpool : pool = ThreadPool.initial ∨ poolMachine.Reached pool)
    (hcall : poolMachine.step pool (.setNumOfThreads newNumThreads) = some called)
    (hquiet : ∀ a ∈ labels, a.isCall = false)
    (hrun : poolMachine.run called labels = some pool') :
    labels.length + pool'.work = called.work + 3 * labels.countP PoolAction.isAdd ∧
      (pool'.call ≠ .idle → ∃ a, pool'.CanTake a) ∧
      (pool'.call = .idle →
        pool'.workers.length = newNumThreads ∧ pool'.leaving = 0 ∧ pool'.stops = 0 ∧
          pool'.threadsToRemove = 0 ∧ pool'.numThreads = newNumThreads ∧
          (newNumThreads < pool.numThreads → ∀ id < pool.nextId,
            pool'.started.count id = 1 ∧
              (newNumThreads = 0 → pool'.finished.count id = 1))) := by
  have haccounted : pool.Accounted := by
    rcases hpool with rfl | hreached
    · exact ThreadPool.accounted_initial
    · exact ThreadPool.accounted_of_reached hreached
  have hnumbered : pool.Numbered := by
    rcases hpool with rfl | hreached
    · exact ThreadPool.numbered_initial
    · exact ThreadPool.numbered_of_reached hreached
  have hbegins : pool.call = .idle ∧ called = pool.setNumOfThreads newNumThreads := by
    have heffect : pool.Effect (.setNumOfThreads newNumThreads) called :=
      ThreadPool.step_effect hcall
    cases heffect with
    | setNumOfThreads _ hidle => exact ⟨hidle, rfl⟩
  obtain ⟨hidle, rfl⟩ := hbegins
  have hdrains := (ThreadPool.drains_setNumOfThreads haccounted hnumbered hidle
    newNumThreads).run hquiet hrun
  refine ⟨ThreadPool.work_run hquiet hrun, hdrains.accounted.canTake, fun hreturned => ?_⟩
  obtain ⟨hlength, hleaving, hstops, hremove, -⟩ := hdrains.accounted.idle hreturned
  have hnum : pool'.numThreads = newNumThreads := by
    rw [← hdrains.target_eq, ThreadPool.target, hreturned, Call.target]
  refine ⟨hlength.trans hnum, hleaving, hstops, hremove, hnum, fun hshrinks id hid => ?_⟩
  have hstarted := hdrains.started hreturned (Nat.sub_pos_of_lt hshrinks) hid
  refine ⟨hstarted, fun hzero => ?_⟩
  have hworkers : pool'.workers = [] := by
    rw [← List.length_eq_zero_iff, hlength, hnum, hzero]
  rw [hdrains.numbered.finished hworkers, hstarted]

/-- A paused pool of two workers with two tasks. -/
def loadedPool : ThreadPool :=
  { pausedPool with tasks := [.user 1 .high, .user 0 .low], nextId := 2 }

/-- The steps of the workers after a call of `Stop`, with a task that is added meanwhile. -/
def drainLabels : List PoolAction :=
  [.goOn, .goOn, .goOn, .acquire 0, .acquire 1, .pop 0 2, .add .medium, .pop 1 0, .executed 1,
    .pop 1 2, .executed 0, .pop 0 0, .leave 0, .goOn, .executed 0, .pop 0 0, .leave 0, .goOn,
    .goOn]

/-- The pool when `Stop` has returned. -/
def drainedPool : ThreadPool :=
  { ThreadPool.initial with nextId := 3, started := [0, 2, 1], finished := [0, 1, 2] }

/-- Stopping the paused pool executes both tasks and leaves no worker. -/
theorem pool_drains_loadedPool :
    drainedPool.finished.count 0 = 1 ∧ drainedPool.finished.count 1 = 1 ∧
      drainedPool.workers.length = 0 := by
  have hload : poolMachine.run pausedPool [.add .low, .add .high] = some loadedPool := by decide
  have hreached : poolMachine.Reached loadedPool := Machine.Reached.run reached_pausedPool hload
  have hdrain : poolMachine.run loadedPool.stop drainLabels = some drainedPool := by decide
  obtain ⟨-, -, hreturned⟩ := pool_drains (Or.inr hreached) rfl (by decide) hdrain
  obtain ⟨hworkers, -, -, -, -, htasks⟩ := hreturned rfl
  have hfinished : ∀ id < 2, drainedPool.finished.count id = 1 := fun id hid =>
    (htasks (by decide) id hid).2 rfl
  exact ⟨hfinished 0 (by decide), hfinished 1 (by decide), hworkers⟩

end Framework
end InfinityLabs
