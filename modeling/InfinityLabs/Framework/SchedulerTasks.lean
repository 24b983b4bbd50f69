import InfinityLabs.Framework.SchedulerTimer

/-!
# What becomes of the tasks of the scheduler

Every task that was added is in the queue, in the hands of the thread that holds the mutex, or
taken; every task that was taken is in the hands of a callback that is about to execute it, or
has been executed.  So no task is lost or executed twice, and none before its time.
-/

namespace InfinityLabs
namespace Framework

open Lib

variable {τ : Type}

/-! ## Where a task is -/

/-- The task that the holder of the mutex has popped and not yet pushed again or taken. -/
def Holder.held : Holder τ → Option (Entry τ)
  | .compare t | .pushNext t => some t
  | _ => none

/-- The task that a callback has taken and not yet executed. -/
def Callback.unlockedTask : Callback τ → Option (Entry τ)
  | .unlocked t => some t
  | _ => none

/-- The task in the hands of the holder of the mutex. -/
def Scheduler.held (s : Scheduler τ) : List (Entry τ) := (s.holder.bind Holder.held).toList

/-- The tasks that the callbacks are about to execute. -/
def Scheduler.unlockedTasks (s : Scheduler τ) : List (Entry τ) :=
  s.callbacks.filterMap Callback.unlockedTask

/-- The tasks are conserved. -/
structure Scheduler.Conserved (s : Scheduler τ) : Prop where
  added_perm : s.added.Perm (s.queue ++ s.held ++ s.taken)
  taken_perm : s.taken.Perm (s.unlockedTasks ++ s.started.map Prod.fst)
  added_lt : ∀ t ∈ s.added, t.id < s.nextId
  added_nodup : (s.added.map Entry.id).Nodup
  taken_due : ∀ t ∈ s.unlockedTasks, t.execTime ≤ s.now
  started_due : ∀ p ∈ s.started, p.1.execTime ≤ p.2

/-- What the holder of the mutex has in its hands. -/
theorem Scheduler.held_eq {s : Scheduler τ} {holder : Holder τ}
    (h : s.holder = some holder) : s.held = holder.held.toList := by
  rw [held, h]
  rfl

/-- A step that moves no task keeps the books. -/
theorem Scheduler.Conserved.of_same {s s' : Scheduler τ} (h : s.Conserved)
    (hadded : s'.added = s.added) (hqueue : s'.queue = s.queue) (hheld : s'.held = s.held)
    (htaken : s'.taken = s.taken) (hunlocked : s'.unlockedTasks = s.unlockedTasks)
    (hstarted : s'.started = s.started) (hnext : s'.nextId = s.nextId)
    (hnow : s.now ≤ s'.now) : s'.Conserved := by
  refine ⟨?_, ?_, ?_, ?_, ?_, ?_⟩
  · rw [hadded, hqueue, hheld, htaken]
    exact h.added_perm
  · rw [htaken, hunlocked, hstarted]
    exact h.taken_perm
  · rw [hadded, hnext]
    exact h.added_lt
  · rw [hadded]
    exact h.added_nodup
  · rw [hunlocked]
    exact fun t ht => Int.le_trans (h.taken_due t ht) hnow
  · rw [hstarted]
    exact h.started_due

/-- The holder of the mutex pushes the task in its hands. -/
theorem Scheduler.Conserved.push {s : Scheduler τ} {t : Entry τ} {holder holder' : Holder τ}
    (h : s.Conserved) (hholder : s.holder = some holder) (hheld : holder.held = some t)
    (hheld' : holder'.held = none) : { s.push t with holder := some holder' }.Conserved := by
  refine { h with added_perm := ?_ }
  have hperm := h.added_perm
  rw [held_eq hholder, hheld] at hperm
  show s.added.Perm (t :: s.queue ++ holder'.held.toList ++ s.taken)
  rw [hheld']
  simp only [Option.toList_none, Option.toList_some, List.append_nil, List.append_assoc,
    List.cons_append] at hperm ⊢
  exact hperm.trans List.perm_middle

end Framework
end InfinityLabs
