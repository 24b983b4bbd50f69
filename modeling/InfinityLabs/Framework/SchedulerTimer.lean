import InfinityLabs.Framework.Scheduler

/-!
# What the timer of the scheduler covers

`TimerCallback` arms the timer for the earliest task of the queue.  `Add` arms it for the task
that it has just pushed, whatever else is queued.  While no callback is on its way that will
arm the timer again, an earlier task is then left without its timer.
-/

namespace InfinityLabs
namespace Framework

open Lib

variable {τ : Type}

/-! ## The coverage -/

/-- The timer is armed to expire at the time of the task, or at once when it has passed. -/
def ArmedAt (now : Int) (timer : Option Int) (t : Entry τ) : Prop :=
  match timer with
  | none => False
  | some expiry => expiry ≤ t.execTime ∨ (t.execTime ≤ now ∧ expiry ≤ now + 1)

instance (now : Int) (timer : Option Int) (t : Entry τ) : Decidable (ArmedAt now timer t) := by
  unfold ArmedAt
  split <;> infer_instance

/-- The timer of the scheduler is armed for the task. -/
def Scheduler.ArmedFor (s : Scheduler τ) (t : Entry τ) : Prop := ArmedAt s.now s.timer t

instance (s : Scheduler τ) (t : Entry τ) : Decidable (s.ArmedFor t) :=
  inferInstanceAs (Decidable (ArmedAt s.now s.timer t))

/-- While the mutex is free and no callback is pending or in progress, the timer is armed for
every task of the queue. -/
def Scheduler.TimerCovers (s : Scheduler τ) : Prop :=
  s.holder = none → s.callbacks = [] → ∀ t ∈ s.queue, s.ArmedFor t

instance (s : Scheduler τ) : Decidable s.TimerCovers :=
  inferInstanceAs (Decidable (s.holder = none → s.callbacks = [] → ∀ t ∈ s.queue, s.ArmedFor t))

/-- An `Add` that arms the timer while no callback is pending or in progress does so for a task
that is not later than any queued one, or is due at once. -/
def AddsInOrder (s : Scheduler τ) : SchedulerAction τ → Prop
  | .goOn =>
      match s.holder with
      | some (.addSetTimer execTime) =>
          s.callbacks = [] → execTime ≤ s.now + 1 ∨ ∀ t ∈ s.queue, execTime ≤ t.execTime
      | _ => True
  | _ => True

/-- Otherwise an earlier task is left without its timer. -/
theorem Scheduler.not_armedFor_setTimer {s : Scheduler τ} {execTime : Int} {t : Entry τ}
    (hdue : s.now + 1 < execTime) (hlt : t.execTime < execTime) :
    ¬ (s.setTimer execTime).ArmedFor t := by
  show ¬ (s.now + timerDelay s.now execTime ≤ t.execTime ∨
    (t.execTime ≤ s.now ∧ s.now + timerDelay s.now execTime ≤ s.now + 1))
  rw [timerDelay]
  split <;> omega

/-- Time that passes leaves the timer armed for the task. -/
theorem ArmedAt.tick {now : Int} {timer : Option Int} {t : Entry τ} (h : ArmedAt now timer t)
    (time : Nat) : ArmedAt (now + time) timer t := by
  unfold ArmedAt at h ⊢
  split at h
  case h_1 => exact h
  case h_2 => omega

/-! ## The steps -/

/-- The holder of the mutex will neither pop nor arm the timer before it unlocks, or has not
begun to change the queue. -/
def Holder.rests : Holder τ → Bool
  | .add _ _ | .unlock => true
  | _ => false

/-- The time of the earliest task, where the holder has popped it. -/
def Holder.earliestTime : Holder τ → Option Int
  | .compare t | .pushNext t => some t.execTime
  | .callbackSetTimer execTime => some execTime
  | _ => none

/-- The holder of the mutex knows the time of the task that it has popped. -/
theorem afterPop_eq_some {t : Entry τ} {holder holder' : Holder τ}
    (h : Scheduler.afterPop t holder = some holder') :
    holder'.rests = false ∧ holder'.earliestTime = some t.execTime := by
  cases holder <;> cases h <;> exact ⟨rfl, rfl⟩

/-- The holder of the mutex knows no time when it has locked. -/
theorem afterLock_eq_some {c : Callback τ} {holder : Holder τ}
    (h : Scheduler.afterLock c = some holder) :
    holder.rests = false ∧ holder.earliestTime = none := by
  cases c <;> cases h <;> exact ⟨rfl, rfl⟩

/-- A callback that has popped a task knows the time of the earliest one. -/
def Scheduler.KnowsEarliest (s : Scheduler τ) : Prop :=
  ∀ holder time, s.holder = some holder → holder.earliestTime = some time →
    ∀ t ∈ s.queue, time ≤ t.execTime

/-- A task that is pushed again by the callback that has popped it is the earliest one. -/
theorem Scheduler.KnowsEarliest.push {s : Scheduler τ} {holder : Holder τ} {t : Entry τ}
    (h : s.KnowsEarliest) (hholder : s.holder = some holder)
    (htime : holder.earliestTime = some t.execTime) :
    ∀ u ∈ (s.push t).queue, t.execTime ≤ u.execTime := by
  intro u hu
  rcases List.mem_cons.mp hu with rfl | hu
  · exact Int.le_refl _
  · exact h holder _ hholder htime u hu

/-- A property of the clock, the timer and the queue that holds while no callback is on its way
and the mutex is free or its holder rests. -/
def Scheduler.AtRest (P : Int → Option Int → List (Entry τ) → Prop) (s : Scheduler τ) : Prop :=
  s.callbacks = [] → (∀ holder, s.holder = some holder → holder.rests = true) →
    P s.now s.timer s.queue

section AtRest

variable {P : Int → Option Int → List (Entry τ) → Prop} {s s' : Scheduler τ}

/-- Nothing is asked of the timer while the holder is at work. -/
theorem Scheduler.atRest_of_holder {holder : Holder τ} (hholder : s.holder = some holder)
    (hrests : holder.rests = false) : s.AtRest P :=
  fun _ hrest => absurd (hrests.symm.trans (hrest holder hholder)) Bool.false_ne_true

/-- Nothing is asked of the timer while a callback is on its way. -/
theorem Scheduler.atRest_of_callbacks (hcallbacks : s.callbacks ≠ []) : s.AtRest P :=
  fun hnil => absurd hnil hcallbacks

theorem ne_nil_of_split {α : Type} (l₁ l₂ : List α) (a : α) : l₁ ++ a :: l₂ ≠ [] :=
  List.append_ne_nil_of_right_ne_nil l₁ (List.cons_ne_nil a l₂)

/-- Every step keeps a property at rest that time does not change and that holds of an empty
queue, where the calls of `SetTimer` bring it about. -/
theorem Scheduler.Effect.atRest {a : SchedulerAction τ} (heffect : s.Effect a s')
    (h : s.AtRest P)
    (htick : ∀ now timer queue (time : Nat), P now timer queue → P (now + time) timer queue)
    (hempty : ∀ now timer, P now timer [])
    (hsetTimer : ∀ execTime, a = .goOn →
      s.holder = some (.addSetTimer execTime) ∨ s.holder = some (.callbackSetTimer execTime) →
      s.callbacks = [] → P s.now (some (s.now + timerDelay s.now execTime)) s.queue) :
    s'.AtRest P := by
  cases heffect with
  | tick time => exact fun hcallbacks hrest => htick _ _ _ time (h hcallbacks hrest)
  | expire htimer hexpired => exact atRest_of_callbacks (List.cons_ne_nil _ _)
  | add task delay hfree =>
      refine fun hcallbacks _ => h hcallbacks fun holder hholder => ?_
      rw [hfree] at hholder
      cases hholder
  | lock callback hfree hcallbacks hafter =>
      exact atRest_of_holder rfl (afterLock_eq_some hafter).1
  | addPush hholder => exact atRest_of_holder rfl rfl
  | addSetTimer hholder => exact fun hcallbacks _ => hsetTimer _ rfl (Or.inl hholder) hcallbacks
  | popEmpty hholder hpop hnil =>
      intro _ _
      show P s.now s.timer s.queue
      rw [hnil]
      exact hempty _ _
  | pushBack hholder hlater => exact atRest_of_holder rfl rfl
  | take hholder hdue => exact atRest_of_callbacks (List.cons_ne_nil _ _)
  | pushNext hholder => exact atRest_of_holder rfl rfl
  | callbackSetTimer hholder =>
      exact fun hcallbacks _ => hsetTimer _ rfl (Or.inr hholder) hcallbacks
  | unlock hholder =>
      refine fun hcallbacks _ => h hcallbacks fun holder hunlock => ?_
      obtain rfl := Option.some.inj (hholder.symm.trans hunlock)
      rfl
  | pop place hqueue hfront hholder hafter =>
      exact atRest_of_holder rfl (afterPop_eq_some hafter).1
  | execute callback hcallbacks => exact atRest_of_callbacks (ne_nil_of_split _ _ _)
  | executed callback hcallbacks => exact atRest_of_callbacks (ne_nil_of_split _ _ _)

end AtRest

instance (s : Scheduler τ) (a : SchedulerAction τ) : Decidable (AddsInOrder s a) := by
  unfold AddsInOrder
  split
  · split <;> infer_instance
  · infer_instance

/-- What is wrong with an `Add` out of order. -/
theorem exists_of_not_addsInOrder {s : Scheduler τ} {a : SchedulerAction τ}
    (h : ¬ AddsInOrder s a) :
    a = .goOn ∧ ∃ execTime, s.holder = some (.addSetTimer execTime) ∧ s.callbacks = [] ∧
      s.now + 1 < execTime ∧ ∃ t ∈ s.queue, t.execTime < execTime := by
  unfold AddsInOrder at h
  split at h
  case h_2 => exact absurd trivial h
  case h_1 =>
    split at h
    case h_2 => exact absurd trivial h
    case h_1 execTime hholder =>
      obtain ⟨hcallbacks, hlate⟩ := Classical.not_imp.mp h
      obtain ⟨hdue, hearlier⟩ := not_or.mp hlate
      obtain ⟨t, ht⟩ := Classical.not_forall.mp hearlier
      obtain ⟨hmem, hlt⟩ := Classical.not_imp.mp ht
      exact ⟨rfl, execTime, hholder, hcallbacks, Int.not_le.mp hdue, t, hmem, Int.not_le.mp hlt⟩

/-- An `Add` out of order leaves an earlier task without its timer as soon as it unlocks. -/
theorem not_timerCovers_of_not_addsInOrder {s : Scheduler τ} {a : SchedulerAction τ}
    (h : ¬ AddsInOrder s a) :
    ∃ s', (schedulerMachine τ).run s [a, .goOn] = some s' ∧ ¬ s'.TimerCovers := by
  obtain ⟨rfl, execTime, hholder, hcallbacks, hdue, t, ht, hlt⟩ := exists_of_not_addsInOrder h
  refine ⟨{ s.setTimer execTime with holder := none }, ?_, fun hcovers => ?_⟩
  · simp only [Machine.run, schedulerMachine, Scheduler.step, Scheduler.goOn, hholder]
  · exact Scheduler.not_armedFor_setTimer hdue hlt (hcovers rfl hcallbacks t ht)

end Framework
end InfinityLabs
