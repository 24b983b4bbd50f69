import InfinityLabs.Framework.ThreadPool

/-!
# The books of the thread pool

Three equations hold in every state of every run, also while a call is in progress.

* The threads that run are those that will be left after the call, those that hold a task of
  stopping and those for which such a task is queued or still to be added.
* The workers that the call still has to remove are those in `m_threads_to_remove`, those that
  hold a task of stopping and those for which such a task is queued or still to be added.
* The pause tasks, queued, executed or still to be added, are as many as the permits and, in a
  paused pool, the threads that will be left after the call.
-/

namespace InfinityLabs
namespace Framework

open Lib

/-! ## What a call still has to do -/

/-- The pause tasks that the call still adds. -/
def Call.pausesToAdd : Call → Nat
  | .pause rounds => rounds
  | .stretchPause rounds _ _ => rounds
  | _ => 0

/-- The tasks of stopping that the call still adds. -/
def Call.stopsToAdd : Call → Nat
  | .shrinkStop rounds _ _ => rounds
  | _ => 0

/-- The threads that the call still creates. -/
def Call.toCreate : Call → Nat
  | .stretchPause _ numToAdd _ => numToAdd
  | .stretchCreate rounds _ => rounds
  | _ => 0

/-- The workers that the call still removes. -/
def Call.toRemove : Call → Nat
  | .shrinkStop _ numToRemove _ => numToRemove
  | .shrinkRemove rounds _ _ => rounds
  | _ => 0

/-- The permits that the call still releases in a paused pool. -/
def Call.toRelease : Call → Nat
  | .shrinkStop _ numToRemove _ => numToRemove
  | _ => 0

/-- The number of threads after the call. -/
def Call.target (numThreads : Nat) : Call → Nat
  | .idle => numThreads
  | .pause _ => numThreads
  | .stretchPause _ _ newNumThreads => newNumThreads
  | .stretchCreate _ newNumThreads => newNumThreads
  | .shrinkStop _ _ newNumThreads => newNumThreads
  | .shrinkRemove _ _ newNumThreads => newNumThreads

/-! ## The equations -/

/-- The pause tasks in the queue. -/
def ThreadPool.pauses (pool : ThreadPool) : Nat := pool.tasks.count .badApplePause

/-- The tasks of stopping in the queue. -/
def ThreadPool.stops (pool : ThreadPool) : Nat := pool.tasks.count .badAppleStop

/-- The workers that execute a pause task. -/
def ThreadPool.pausing (pool : ThreadPool) : Nat := pool.workers.count .pausing

/-- The workers that have executed a task of stopping and still run. -/
def ThreadPool.leaving (pool : ThreadPool) : Nat := pool.workers.count .leaving

/-- The number of threads after the call in progress. -/
def ThreadPool.target (pool : ThreadPool) : Nat := pool.call.target pool.numThreads

/-- The books of the pool. -/
structure ThreadPool.Accounted (pool : ThreadPool) : Prop where
  workers_eq : pool.workers.length + pool.call.toCreate =
    pool.target + pool.leaving + pool.stops + pool.call.stopsToAdd
  removals_eq : pool.call.toRemove =
    pool.threadsToRemove + pool.leaving + pool.stops + pool.call.stopsToAdd
  pauses_eq : pool.pauses + pool.pausing + pool.call.pausesToAdd =
    pool.semPause + (if pool.isPaused then pool.target + pool.call.toRelease else 0)
  /-- Only a paused pool is given pause tasks, and a thread that is given one before it is
  created is created later on. -/
  pausesToAdd_eq : pool.call.pausesToAdd = 0 ∨
    (pool.isPaused = true ∧
      (pool.call.pausesToAdd ≤ pool.call.toCreate ∨ pool.call = .pause pool.call.pausesToAdd))

/-- The counts of a list with an element taken out. -/
theorem countP_take_out {α : Type} (p : α → Bool) (l₁ l₂ : List α) (a : α) :
    (l₁ ++ a :: l₂).countP p = (l₁ ++ l₂).countP p + if p a then 1 else 0 := by
  rw [List.countP_append, List.countP_append, List.countP_cons]
  omega

theorem count_take_out {α : Type} [DecidableEq α] (l₁ l₂ : List α) (a b : α) :
    (l₁ ++ a :: l₂).count b = (l₁ ++ l₂).count b + if a = b then 1 else 0 := by
  have hcount := countP_take_out (· == b) l₁ l₂ a
  simp only [beq_iff_eq] at hcount
  exact hcount

theorem length_take_out {α : Type} (l₁ l₂ : List α) (a : α) :
    (l₁ ++ a :: l₂).length = (l₁ ++ l₂).length + 1 := by
  rw [List.length_append, List.length_append, List.length_cons]
  omega

/-- The books of an idle pool. -/
theorem ThreadPool.Accounted.idle {pool : ThreadPool} (h : pool.Accounted)
    (hidle : pool.call = .idle) :
    pool.workers.length = pool.numThreads ∧ pool.leaving = 0 ∧ pool.stops = 0 ∧
      pool.threadsToRemove = 0 ∧
      pool.pauses + pool.pausing =
        pool.semPause + (if pool.isPaused then pool.numThreads else 0) := by
  obtain ⟨hworkers, hremovals, hpauses, -⟩ := h
  simp only [target, hidle, Call.toCreate, Call.stopsToAdd, Call.toRemove, Call.pausesToAdd,
    Call.toRelease, Call.target, Nat.add_zero] at hworkers hremovals hpauses
  omega

/-- The books after the beginning of `SetNumOfThreads`. -/
theorem ThreadPool.Accounted.setNumOfThreads {pool : ThreadPool} (h : pool.Accounted)
    (hidle : pool.call = .idle) (newNumThreads : Nat) :
    (pool.setNumOfThreads newNumThreads).Accounted := by
  obtain ⟨hworkers, hleaving, hstops, hremove, hpauses⟩ := h.idle hidle
  rw [ThreadPool.setNumOfThreads]
  split
  · rw [stretchThreads]
    split
    -- every new thread is given a pause task
    case isTrue hpaused =>
      rw [if_pos hpaused] at hpauses
      constructor
      · show pool.workers.length + (newNumThreads - pool.numThreads) =
          newNumThreads + pool.leaving + pool.stops + 0
        omega
      · show 0 = pool.threadsToRemove + pool.leaving + pool.stops + 0
        omega
      · show pool.pauses + pool.pausing + (newNumThreads - pool.numThreads) =
          pool.semPause + (if pool.isPaused then newNumThreads + 0 else 0)
        rw [if_pos hpaused]
        omega
      · exact Or.inr ⟨hpaused, Or.inl (Nat.le_refl _)⟩
    case isFalse hrunning =>
      rw [if_neg hrunning] at hpauses
      constructor
      · show pool.workers.length + (newNumThreads - pool.numThreads) =
          newNumThreads + pool.leaving + pool.stops + 0
        omega
      · show 0 = pool.threadsToRemove + pool.leaving + pool.stops + 0
        omega
      · show pool.pauses + pool.pausing + 0 =
          pool.semPause + (if pool.isPaused then newNumThreads + 0 else 0)
        rw [if_neg hrunning]
        omega
      · exact Or.inl rfl
  · constructor
    · show pool.workers.length + 0 =
        newNumThreads + pool.leaving + pool.stops + (pool.numThreads - newNumThreads)
      omega
    · show pool.numThreads - newNumThreads =
        pool.threadsToRemove + pool.leaving + pool.stops + (pool.numThreads - newNumThreads)
      omega
    · show pool.pauses + pool.pausing + 0 = pool.semPause +
        (if pool.isPaused then newNumThreads + (pool.numThreads - newNumThreads) else 0)
      split
      case isTrue hpaused =>
        rw [if_pos hpaused] at hpauses
        omega
      case isFalse hrunning =>
        rw [if_neg hrunning] at hpauses
        omega
    · exact Or.inl rfl

theorem ThreadPool.accounted_initial : ThreadPool.initial.Accounted :=
  ⟨rfl, rfl, rfl, Or.inl rfl⟩

/-- The books after `Run`. -/
theorem ThreadPool.Accounted.run {pool : ThreadPool} (h : pool.Accounted)
    (hidle : pool.call = .idle) : pool.run.Accounted := by
  obtain ⟨hworkers, hremovals, hpauses, hadd⟩ := h
  rw [ThreadPool.run]
  split
  case isFalse => exact ⟨hworkers, hremovals, hpauses, hadd⟩
  case isTrue hpaused =>
    refine ⟨hworkers, hremovals, ?_, Or.inl (by rw [hidle]; rfl)⟩
    simp only [target, hidle, hpaused, Call.target, Call.toRelease, if_true] at hpauses
    show pool.pauses + pool.pausing + pool.call.pausesToAdd = pool.semPause + pool.numThreads + 0
    rw [hidle]
    exact hpauses

/-- The books after the beginning of `Pause`. -/
theorem ThreadPool.Accounted.pause {pool : ThreadPool} (h : pool.Accounted)
    (hidle : pool.call = .idle) : pool.pause.Accounted := by
  obtain ⟨hworkers, hleaving, hstops, hremove, hpauses⟩ := h.idle hidle
  rw [ThreadPool.pause]
  split
  case isTrue => exact h
  case isFalse hrunning =>
    rw [if_neg hrunning] at hpauses
    constructor
    · show pool.workers.length + 0 = pool.numThreads + pool.leaving + pool.stops + 0
      omega
    · show 0 = pool.threadsToRemove + pool.leaving + pool.stops + 0
      omega
    · show pool.pauses + pool.pausing + pool.numThreads =
        pool.semPause + (pool.numThreads + 0)
      omega
    · exact Or.inr ⟨rfl, Or.inr rfl⟩

/-- The constructor has the books in order. -/
theorem ThreadPool.accounted_ctor (numThreads : Nat) : (ThreadPool.ctor numThreads).Accounted :=
  accounted_initial.setNumOfThreads rfl numThreads

/-- A step of a worker keeps the books, where the counts change as they say. -/
theorem ThreadPool.Accounted.of_counts {pool pool' : ThreadPool} (h : pool.Accounted)
    (hcall : pool'.call = pool.call) (hnum : pool'.numThreads = pool.numThreads)
    (hpaused : pool'.isPaused = pool.isPaused)
    (hworkers : pool'.workers.length + (pool.leaving + pool.stops) =
      pool.workers.length + (pool'.leaving + pool'.stops))
    (hremove : pool'.threadsToRemove + (pool'.leaving + pool'.stops) =
      pool.threadsToRemove + (pool.leaving + pool.stops))
    (hpauses : pool'.pauses + pool'.pausing + pool.semPause =
      pool.pauses + pool.pausing + pool'.semPause) : pool'.Accounted := by
  obtain ⟨h1, h2, h3, h4⟩ := h
  refine ⟨?_, ?_, ?_, ?_⟩
  · rw [target, hcall, hnum, ← target]
    omega
  · rw [hcall]
    omega
  · rw [target, hcall, hnum, hpaused, ← target]
    omega
  · rw [hcall, hpaused]
    exact h4

/-- The next step of a call keeps the books. -/
theorem ThreadPool.Round.accounted {pool pool' : ThreadPool} (hround : pool.Round pool')
    (h : pool.Accounted) : pool'.Accounted := by
  obtain ⟨hworkers, hremovals, hpauses, hadd⟩ := h
  cases hpaused : pool.isPaused <;> cases hround <;> rename_i hcall <;>
    simp only [target, hcall, hpaused, Call.target, Call.toCreate, Call.stopsToAdd,
      Call.toRemove, Call.pausesToAdd, Call.toRelease, reduceCtorEq, if_true, if_false,
      Bool.false_eq_true, false_and, or_false, false_or, true_and]
      at hworkers hremovals hpauses hadd
  -- what is left are the rounds of every loop and its end, first of a running pool
  all_goals
    constructor <;>
      simp only [target, leaving, stops, pauses, pausing, push, hpaused, Call.target,
        Call.toCreate, Call.stopsToAdd, Call.toRemove, Call.pausesToAdd, Call.toRelease,
        List.count_cons, List.length_cons, beq_iff_eq, reduceCtorEq, if_true, if_false,
        Bool.false_eq_true, true_or, true_and, and_true, or_true, or_false] at * <;>
      omega

/-- Every step keeps the books. -/
theorem ThreadPool.Effect.accounted {pool pool' : ThreadPool} {a : PoolAction}
    (heffect : pool.Effect a pool') (h : pool.Accounted) : pool'.Accounted := by
  cases heffect with
  | add priority => exact ⟨h.workers_eq, h.removals_eq, h.pauses_eq, h.pausesToAdd_eq⟩
  | run hidle => exact h.run hidle
  | pause hidle => exact h.pause hidle
  | setNumOfThreads newNumThreads hidle => exact h.setNumOfThreads hidle newNumThreads
  | goOn hround => exact hround.accounted h
  | @popUser _ _ id priority w₁ w₂ t₁ t₂ hw ht hfront =>
      refine h.of_counts rfl rfl rfl ?_ ?_ ?_ <;>
        simp only [leaving, stops, pauses, pausing, hw, ht, count_take_out, length_take_out,
          reduceCtorEq, if_false, Nat.add_zero]
  | popPause worker task hw ht =>
      refine h.of_counts rfl rfl rfl ?_ ?_ ?_ <;>
        simp only [leaving, stops, pauses, pausing, hw, ht, count_take_out, length_take_out,
          reduceCtorEq, if_false, if_true, Nat.add_zero]
      omega
  | popStop worker task hw ht hfront =>
      refine h.of_counts rfl rfl rfl ?_ ?_ ?_ <;>
        simp only [leaving, stops, pauses, pausing, hw, ht, count_take_out, length_take_out,
          reduceCtorEq, if_false, if_true, Nat.add_zero] <;> omega
  | executed worker hw =>
      refine h.of_counts rfl rfl rfl ?_ ?_ ?_ <;>
        simp only [leaving, stops, pauses, pausing, hw, count_take_out, length_take_out,
          reduceCtorEq, if_false, Nat.add_zero]
  | acquire worker hw hpermit =>
      refine h.of_counts rfl rfl rfl ?_ ?_ ?_ <;>
        simp only [leaving, stops, pauses, pausing, hw, count_take_out, length_take_out,
          reduceCtorEq, if_false, if_true, Nat.add_zero]
      omega
  | leave worker hw =>
      refine h.of_counts rfl rfl rfl ?_ ?_ ?_ <;>
        simp only [leaving, stops, pauses, pausing, hw, count_take_out, length_take_out,
          reduceCtorEq, if_false, if_true, Nat.add_zero] <;> omega

/-- The books of a pool are in order in every state of every run. -/
theorem ThreadPool.accounted_of_reached {pool : ThreadPool} (h : poolMachine.Reached pool) :
    pool.Accounted := by
  refine Machine.ReachedBy.invariant (I := ThreadPool.Accounted) ?_ ?_ h
  · rintro s ⟨numThreads, rfl⟩
    exact accounted_ctor numThreads
  · intro s a s' hs _ hstep
    exact (step_effect hstep).accounted hs

end Framework
end InfinityLabs
