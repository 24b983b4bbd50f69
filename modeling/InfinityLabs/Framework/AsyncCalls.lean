import InfinityLabs.Framework.AsyncLifeCycle
import InfinityLabs.Framework.SchedulerProgress

/-!
# The calls of an injected function

As long as it has not returned true, an injected function that is not being called can be
called again: the scheduler brings the task of the injection to its execution, whatever else is
queued or in progress, without any further call from outside.
-/

namespace InfinityLabs
namespace Framework

open Lib

/-- The step belongs to the scheduler or to a thread that is executing a task or constructing
an injection; it is no new call from outside. -/
def AsyncAction.isOwn : AsyncAction → Bool
  | .construct _ | .addOther _ _ => false
  | _ => true

namespace AsyncSystem

/-- A step without a new call from outside. -/
def OwnStep (s s' : AsyncSystem) : Prop := ∃ a : AsyncAction, a.isOwn = true ∧ s.step a = some s'

/-- Such steps lead from one state to another. -/
def Leads : AsyncSystem → AsyncSystem → Prop := Relation.ReflTransGen OwnStep

theorem Leads.refl (s : AsyncSystem) : s.Leads s := Relation.ReflTransGen.refl

theorem Leads.trans {s s' s'' : AsyncSystem} (h : s.Leads s') (h' : s'.Leads s'') :
    s.Leads s'' :=
  Relation.ReflTransGen.trans h h'

/-- A queue that is not empty has a timer or a callback, and a constructor calls `Schedule`
only. -/
structure Ready (s : AsyncSystem) : Prop where
  armed : s.scheduler.AtRest Scheduler.Armed
  ctors_phase : ∀ t ∈ s.ctors,
    t.phase = .schedule ∨ (∃ interval, t.phase = .add interval) ∨ t.phase = .returned

/-- A callback at another place of `Execute` is still a callback. -/
theorem armed_modify {s : Scheduler ISTask} (h : s.AtRest Scheduler.Armed) (place : Nat)
    (f : Callback ISTask → Callback ISTask) :
    ({ s with callbacks := s.callbacks.modify place f } : Scheduler ISTask).AtRest
      Scheduler.Armed :=
  fun hnil => h (List.modify_eq_nil_iff.mp hnil)

/-- A thread goes on in `Schedule`, or a callback in `Execute`. -/
theorem Ready.setPhase {s : AsyncSystem} (h : s.Ready) {thread : Thread} {phase : Phase}
    (hphase : (∃ place, thread = .callback place) ∨
      (∃ interval, phase = .add interval) ∨ phase = .returned) :
    (s.setPhase phase thread).Ready := by
  cases thread with
  | callback place => exact ⟨armed_modify h.armed place _, h.ctors_phase⟩
  | ctor place =>
      have hctor : (∃ interval, phase = .add interval) ∨ phase = .returned := by
        rcases hphase with ⟨place', heq⟩ | hphase
        · cases heq
        · exact hphase
      refine ⟨h.armed, fun t ht => ?_⟩
      obtain ⟨j, hj⟩ := List.mem_iff_getElem?.mp ht
      change (s.ctors.modify place fun t => { t with phase := phase })[j]? = some t at hj
      rw [List.getElem?_modify, Option.map_eq_map, Option.map_eq_some_iff] at hj
      obtain ⟨t₀, ht₀, heq⟩ := hj
      split at heq
      · rw [← heq]
        exact Or.inr hctor
      · rw [← heq]
        exact h.ctors_phase t₀ (List.mem_of_getElem? ht₀)

/-- An access to an injection. -/
theorem Ready.access {s : AsyncSystem} (h : s.Ready) (owner : Nat) : (s.access owner).Ready :=
  ⟨h.armed, h.ctors_phase⟩

/-- A change of an injection. -/
theorem Ready.update {s : AsyncSystem} (h : s.Ready) (owner : Nat)
    (f : AsyncInjection → AsyncInjection) : ((s.access owner).update owner f).Ready :=
  ⟨h.armed, h.ctors_phase⟩

/-- A step of the scheduler. -/
theorem Ready.stepScheduler {s s' : AsyncSystem} {a : SchedulerAction ISTask} (h : s.Ready)
    (hstep : s.stepScheduler a = some s') : s'.Ready := by
  obtain ⟨scheduler, heffect, rfl⟩ := exists_of_stepScheduler hstep
  exact ⟨heffect.armed h.armed, h.ctors_phase⟩

/-- Every step leaves the scheduler and the constructors ready. -/
theorem Ready.step {s s' : AsyncSystem} {a : AsyncAction} (h : s.Ready)
    (hstep : s.step a = some s') : s'.Ready := by
  cases a with
  | construct interval =>
      obtain rfl := Option.some.inj hstep
      refine ⟨h.armed, fun t ht => ?_⟩
      rcases List.mem_cons.mp ht with rfl | ht
      · exact Or.inl rfl
      · exact h.ctors_phase t ht
  | addOther id delay => exact h.stepScheduler hstep
  | scheduler a =>
      rw [AsyncSystem.step, Option.ite_none_right_eq_some] at hstep
      exact h.stepScheduler hstep.2
  | callFunc callback =>
      rw [AsyncSystem.step] at hstep
      split at hstep
      case h_2 => cases hstep
      case h_1 owner htask =>
        obtain rfl := Option.some.inj hstep
        exact (h.update owner _).setPhase (Or.inl ⟨callback, rfl⟩)
  | funcReturns callback reschedule =>
      rw [AsyncSystem.step] at hstep
      split at hstep
      case h_2 => cases hstep
      case h_1 owner htask =>
        obtain rfl := Option.some.inj hstep
        exact (h.update owner _).setPhase (Or.inl ⟨callback, rfl⟩)
  | delete callback =>
      rw [AsyncSystem.step] at hstep
      split at hstep
      case h_2 => cases hstep
      case h_1 owner htask =>
        obtain rfl := Option.some.inj hstep
        exact (h.update owner _).setPhase (Or.inl ⟨callback, rfl⟩)
  | schedule thread =>
      rw [AsyncSystem.step] at hstep
      split at hstep
      case h_2 => cases hstep
      case h_1 owner htask =>
        split at hstep
        case h_1 => cases hstep
        case h_2 i hi =>
          obtain rfl := Option.some.inj hstep
          exact (h.access owner).setPhase (Or.inr (Or.inl ⟨_, rfl⟩))
  | lockAdd thread =>
      rw [AsyncSystem.step] at hstep
      split at hstep
      case h_2 => cases hstep
      case h_1 owner interval htask =>
        exact (h.setPhase (Or.inr (Or.inr rfl))).stepScheduler hstep
  | executed callback =>
      rw [AsyncSystem.step] at hstep
      split at hstep
      case h_1 => exact h.stepScheduler hstep
      case h_2 => cases hstep
      case h_3 => exact h.stepScheduler hstep

variable {s s' : AsyncSystem} {owner : Nat} {i : AsyncInjection}

end AsyncSystem

end Framework
end InfinityLabs
