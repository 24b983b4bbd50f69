import InfinityLabs.Framework.AsyncInjection

/-!
# The life cycle of an injection

The task of an injection is at one place: it waits in the scheduler, or a thread is executing
it, or the constructor has still to add it.  The place moves with every step and is given up
with the deletion only.  So there is nobody to call the function while it is called, or to
access the injection once it is deleted.
-/

namespace InfinityLabs
namespace Framework

open Lib

/-! ## The tasks that wait in the scheduler -/

section Waiting

variable {τ : Type}

/-- The task that the holder of the mutex has still to push, or has popped. -/
def Holder.task? : Holder τ → Option τ
  | .add task _ => some task
  | .compare t | .pushNext t => some t.task
  | _ => none

/-- The tasks that are to be executed. -/
def Scheduler.waiting (s : Scheduler τ) : List τ :=
  s.queue.map Entry.task ++ (s.holder.bind Holder.task?).toList ++
    s.unlockedTasks.map Entry.task

end Waiting

namespace AsyncSystem

/-! ## The threads -/

/-- The tasks that wait. -/
def waiting (s : AsyncSystem) : List ISTask := s.scheduler.waiting

/-- The threads that execute the task of an injection, or construct one. -/
def threads (s : AsyncSystem) : List AsyncTask :=
  s.scheduler.callbacks.filterMap executing ++ s.ctors

/-- The injection lives. -/
def isAlive (s : AsyncSystem) (owner : Nat) : Bool :=
  s.injections[owner]?.any AsyncInjection.isAlive

/-- A thread that accesses its injection goes from one place to another. -/
inductive Goes : Phase → Phase → (AsyncInjection → AsyncInjection) → Prop
  | callFunc : Goes .func .inFunc called
  | funcReturns (reschedule : Bool) :
      Goes .inFunc (if reschedule then .delete else .schedule) (returned reschedule)
  | delete : Goes .delete .returned deleted
  | schedule (interval : Int) : Goes .schedule (.add interval) id

/-- The injections are the same. -/
def SameInjections (s s' : AsyncSystem) : Prop :=
  s'.injections = s.injections ∧ s'.isFaulted = s.isFaulted

/-- What a step moves. -/
inductive Moves (s s' : AsyncSystem) : Prop
  | still (hwaiting : s'.waiting.Perm s.waiting) (hthreads : s'.threads.Perm s.threads)
      (hsame : SameInjections s s')
  | construct (interval : Int) (hwaiting : s'.waiting.Perm s.waiting)
      (hthreads : s'.threads.Perm (⟨s.injections.length, .schedule⟩ :: s.threads))
      (hinjections : s'.injections = s.injections ++ [⟨interval, true, 0, [], 0⟩])
      (hfaulted : s'.isFaulted = s.isFaulted)
  | addOther (id : Nat) (hwaiting : s'.waiting.Perm (.other id :: s.waiting))
      (hthreads : s'.threads.Perm s.threads) (hsame : SameInjections s s')
  | execute (task : AsyncTask) (hwaiting : s.waiting.Perm (.asyncTask task :: s'.waiting))
      (hthreads : s'.threads.Perm (task :: s.threads)) (hsame : SameInjections s s')
  | executeOther (id : Nat) (hwaiting : s.waiting.Perm (.other id :: s'.waiting))
      (hthreads : s'.threads.Perm s.threads) (hsame : SameInjections s s')
  | goes {owner : Nat} {phase phase' : Phase} {f : AsyncInjection → AsyncInjection}
      {rest : List AsyncTask} (hgoes : Goes phase phase' f)
      (hwaiting : s'.waiting.Perm s.waiting) (hthreads : s.threads.Perm (⟨owner, phase⟩ :: rest))
      (hthreads' : s'.threads.Perm (⟨owner, phase'⟩ :: rest))
      (hinjections : s'.injections = s.injections.modify owner f)
      (hfaulted : s'.isFaulted = (s.isFaulted || !s.isAlive owner))
  | lockAdd {owner : Nat} {interval : Int} {rest : List AsyncTask}
      (hwaiting : s'.waiting.Perm (.asyncTask ⟨owner, .func⟩ :: s.waiting))
      (hthreads : s.threads.Perm (⟨owner, .add interval⟩ :: rest))
      (hthreads' : s'.threads.Perm (⟨owner, .returned⟩ :: rest)) (hsame : SameInjections s s')
  | executed (owner : Nat) (hwaiting : s'.waiting.Perm s.waiting)
      (hthreads : s.threads.Perm (⟨owner, .returned⟩ :: s'.threads))
      (hsame : SameInjections s s')

/-- A step of the scheduler alone. -/
theorem exists_of_stepScheduler {s s' : AsyncSystem} {a : SchedulerAction ISTask}
    (h : s.stepScheduler a = some s') :
    ∃ scheduler, s.scheduler.Effect a scheduler ∧ s' = { s with scheduler := scheduler } := by
  obtain ⟨scheduler, hstep, rfl⟩ := Option.map_eq_some_iff.mp h
  exact ⟨scheduler, Scheduler.step_effect hstep, rfl⟩

end AsyncSystem

/-- The task is that of the injection. -/
def ISTask.isOf (owner : Nat) : ISTask → Bool
  | .asyncTask task => task.owner == owner
  | .other _ => false

/-- The thread has still to do with the injection. -/
def AsyncTask.isPendingOf (owner : Nat) (task : AsyncTask) : Bool :=
  task.owner == owner && task.phase != .returned

namespace AsyncSystem

/-- The places that the task of the injection is at. -/
def tokens (s : AsyncSystem) (owner : Nat) : Nat :=
  s.waiting.countP (ISTask.isOf owner) + s.threads.countP (AsyncTask.isPendingOf owner)

/-- What an injection says of its calls, and of its deletion. -/
structure Record (s : AsyncSystem) (owner : Nat) (i : AsyncInjection) : Prop where
  deletions_eq : i.deletions = if i.isAlive then 0 else 1
  calls_eq : i.calls = i.results.length + s.threads.count ⟨owner, .inFunc⟩
  tail_false : ∀ r ∈ i.results.tail, r = false
  true_iff : i.results.head? = some true ↔ i.isAlive = false ∨ ⟨owner, .delete⟩ ∈ s.threads

/-- Every injection that lives owns one place, and no other injection is accessed. -/
structure Owned (s : AsyncSystem) : Prop where
  waiting_func : ∀ task, .asyncTask task ∈ s.waiting → task.phase = .func
  tokens_eq : ∀ owner, s.tokens owner = if s.isAlive owner then 1 else 0
  notFaulted : s.isFaulted = false
  record : ∀ owner i, s.injections[owner]? = some i → s.Record owner i

/-- The record of an injection reads two counts of the threads. -/
theorem Record.congr {s s' : AsyncSystem} {owner : Nat} {i : AsyncInjection}
    (h : s.Record owner i)
    (hthreads : ∀ phase, phase = .inFunc ∨ phase = .delete →
      s'.threads.count ⟨owner, phase⟩ = s.threads.count ⟨owner, phase⟩) : s'.Record owner i := by
  refine ⟨h.deletions_eq, ?_, h.tail_false, ?_⟩
  · rw [hthreads .inFunc (Or.inl rfl)]
    exact h.calls_eq
  · rw [← List.count_pos_iff, hthreads .delete (Or.inr rfl), List.count_pos_iff]
    exact h.true_iff

/-- A step that accesses no injection keeps the owners, where it keeps the counts. -/
theorem Owned.of_same {s s' : AsyncSystem} (h : s.Owned) (hsame : SameInjections s s')
    (hfunc : ∀ task, .asyncTask task ∈ s'.waiting → task.phase = .func)
    (htokens : ∀ owner, s'.tokens owner = s.tokens owner)
    (hthreads : ∀ owner phase, phase = .inFunc ∨ phase = .delete →
      s'.threads.count ⟨owner, phase⟩ = s.threads.count ⟨owner, phase⟩) : s'.Owned := by
  obtain ⟨hinjections, hfaulted⟩ := hsame
  refine ⟨hfunc, fun owner => ?_, hfaulted.trans h.notFaulted, fun owner i hi => ?_⟩
  · rw [htokens, h.tokens_eq, isAlive, isAlive, hinjections]
  · rw [hinjections] at hi
    exact (h.record owner i hi).congr (hthreads owner)

/-- A thread that has to do with an injection is the only one, and the injection lives. -/
theorem Owned.unique {s : AsyncSystem} (h : s.Owned) {owner : Nat} {phase : Phase}
    {rest : List AsyncTask} (hthreads : s.threads.Perm (⟨owner, phase⟩ :: rest))
    (hphase : phase ≠ .returned) :
    s.isAlive owner = true ∧ s.waiting.countP (ISTask.isOf owner) = 0 ∧
      rest.countP (AsyncTask.isPendingOf owner) = 0 := by
  have htokens := h.tokens_eq owner
  have hpending : AsyncTask.isPendingOf owner ⟨owner, phase⟩ = true := by
    simp only [AsyncTask.isPendingOf, beq_self_eq_true, Bool.true_and, bne_iff_ne]
    exact hphase
  rw [tokens, hthreads.countP_eq, List.countP_cons_of_pos hpending] at htokens
  split at htokens
  case isTrue halive => exact ⟨halive, by omega, by omega⟩
  case isFalse => omega

/-- Threads that have nothing to do with an injection are at none of its places. -/
theorem count_eq_zero_of_pending {threads : List AsyncTask} {owner : Nat} {phase : Phase}
    (h : threads.countP (AsyncTask.isPendingOf owner) = 0) (hphase : phase ≠ .returned) :
    threads.count ⟨owner, phase⟩ = 0 := by
  rw [List.count_eq_zero]
  intro hmem
  refine List.countP_eq_zero.mp h _ hmem ?_
  simp only [AsyncTask.isPendingOf, beq_self_eq_true, Bool.true_and, bne_iff_ne]
  exact hphase

/-- A thread at another place does not count. -/
theorem count_cons_of_phase_ne {task : AsyncTask} {phase : Phase} (h : task.phase ≠ phase)
    (threads : List AsyncTask) (owner : Nat) :
    (task :: threads).count ⟨owner, phase⟩ = threads.count ⟨owner, phase⟩ := by
  refine List.count_cons_of_ne fun heq => h ?_
  rw [heq]

/-- A task that waits is pending once it is executed. -/
theorem isPendingOf_of_func {task : AsyncTask} (h : task.phase = .func) (owner : Nat) :
    task.isPendingOf owner = (ISTask.asyncTask task).isOf owner := by
  rw [AsyncTask.isPendingOf, ISTask.isOf, h]
  exact Bool.and_true _

/-- A task that has returned is not. -/
theorem isPendingOf_returned (owner owner' : Nat) :
    AsyncTask.isPendingOf owner ⟨owner', .returned⟩ = false :=
  Bool.and_false _

/-- An access needs a place that is not given up yet. -/
theorem Goes.ne_returned {phase phase' : Phase} {f : AsyncInjection → AsyncInjection}
    (h : Goes phase phase' f) : phase ≠ .returned := by
  cases h <;> exact fun heq => by cases heq

/-- The counts of the only thread of an injection. -/
theorem count_of_unique {threads rest : List AsyncTask} {owner : Nat} {phase phase' : Phase}
    (hthreads : threads.Perm (⟨owner, phase⟩ :: rest))
    (hrest : rest.countP (AsyncTask.isPendingOf owner) = 0) (hphase' : phase' ≠ .returned) :
    threads.count ⟨owner, phase'⟩ = if phase = phase' then 1 else 0 := by
  rw [hthreads.count_eq, List.count_cons, count_eq_zero_of_pending hrest hphase', Nat.zero_add]
  simp only [beq_iff_eq, AsyncTask.mk.injEq, true_and]

/-- The injection is in its thread before its deletion. -/
theorem delete_mem_iff {threads rest : List AsyncTask} {owner : Nat} {phase : Phase}
    (hthreads : threads.Perm (⟨owner, phase⟩ :: rest))
    (hrest : rest.countP (AsyncTask.isPendingOf owner) = 0) :
    ⟨owner, .delete⟩ ∈ threads ↔ phase = .delete := by
  have hne : Phase.delete ≠ .returned := fun heq => by cases heq
  rw [← List.count_pos_iff, count_of_unique hthreads hrest hne]
  split <;> simp_all

/-- The function has returned false only, as long as the injection is called. -/
theorem Record.results_false {s : AsyncSystem} {owner : Nat} {i : AsyncInjection}
    (h : s.Record owner i) (hnot : ¬ (i.isAlive = false ∨ ⟨owner, .delete⟩ ∈ s.threads)) :
    ∀ r ∈ i.results, r = false := by
  have hhead := mt h.true_iff.mp hnot
  have htail := h.tail_false
  cases hresults : i.results with
  | nil => exact fun r hr => absurd hr List.not_mem_nil
  | cons r rest =>
      rw [hresults] at hhead htail
      intro r' hr'
      rcases List.mem_cons.mp hr' with rfl | hr'
      · exact Bool.eq_false_iff.mpr fun heq => hhead (by rw [heq]; rfl)
      · exact htail r' hr'

/-- The record of the injection that a thread accesses. -/
theorem Record.goes {s s' : AsyncSystem} {owner : Nat} {phase phase' : Phase}
    {f : AsyncInjection → AsyncInjection} {rest : List AsyncTask} {i : AsyncInjection}
    (h : s.Record owner i) (hgoes : Goes phase phase' f) (halive : i.isAlive = true)
    (hthreads : s.threads.Perm (⟨owner, phase⟩ :: rest))
    (hthreads' : s'.threads.Perm (⟨owner, phase'⟩ :: rest))
    (hrest : rest.countP (AsyncTask.isPendingOf owner) = 0) : s'.Record owner (f i) := by
  have hne : Phase.inFunc ≠ .returned := fun heq => by cases heq
  have hcount := count_of_unique hthreads hrest hne
  have hcount' := count_of_unique hthreads' hrest hne
  have hdelete := delete_mem_iff hthreads hrest
  have hdelete' := delete_mem_iff hthreads' hrest
  have hdeletions := h.deletions_eq
  have hcalls := h.calls_eq
  have hiff := h.true_iff
  rw [hcount] at hcalls
  rw [hdelete, halive] at hiff
  rw [halive, if_pos rfl] at hdeletions
  cases hgoes with
  | callFunc =>
      refine ⟨h.deletions_eq, ?_, h.tail_false, ?_⟩
      · show i.calls + 1 = i.results.length + _
        rw [hcount', hcalls]
        rfl
      · show i.results.head? = some true ↔ i.isAlive = false ∨ _
        rw [hdelete', halive, hiff]
        simp only [reduceCtorEq]
  | funcReturns reschedule =>
      refine ⟨h.deletions_eq, ?_, ?_, ?_⟩
      · show i.calls = (i.results.length + 1) + _
        rw [hcount', hcalls]
        cases reschedule <;> rfl
      · exact h.results_false (by rw [hdelete, halive]; simp only [reduceCtorEq, or_self,
          not_false_eq_true])
      · show some reschedule = some true ↔ i.isAlive = false ∨ _
        rw [hdelete', halive]
        cases reschedule <;> simp only [reduceCtorEq, if_true, if_false, Option.some.injEq,
          Bool.false_eq_true, or_self, or_true]
  | delete =>
      refine ⟨?_, ?_, h.tail_false, ?_⟩
      · show i.deletions + 1 = 1
        rw [hdeletions]
      · show i.calls = i.results.length + _
        rw [hcount', hcalls]
        rfl
      · show i.results.head? = some true ↔ false = false ∨ _
        rw [hiff]
        simp only [or_true, true_or]
  | schedule interval =>
      refine ⟨h.deletions_eq, ?_, h.tail_false, ?_⟩
      · show i.calls = i.results.length + _
        rw [hcount', hcalls]
        rfl
      · show i.results.head? = some true ↔ i.isAlive = false ∨ _
        rw [hdelete', halive, hiff]
        simp only [reduceCtorEq]

/-- A thread that accesses its injection keeps the owners. -/
theorem Owned.goes {s s' : AsyncSystem} (h : s.Owned) {owner : Nat} {phase phase' : Phase}
    {f : AsyncInjection → AsyncInjection} {rest : List AsyncTask} (hgoes : Goes phase phase' f)
    (hwaiting : s'.waiting.Perm s.waiting) (hthreads : s.threads.Perm (⟨owner, phase⟩ :: rest))
    (hthreads' : s'.threads.Perm (⟨owner, phase'⟩ :: rest))
    (hinjections : s'.injections = s.injections.modify owner f)
    (hfaulted : s'.isFaulted = (s.isFaulted || !s.isAlive owner)) : s'.Owned := by
  obtain ⟨halive, hwaiting0, hrest⟩ := h.unique hthreads hgoes.ne_returned
  have hi : ∃ i, s.injections[owner]? = some i ∧ i.isAlive = true := by
    rw [isAlive, Option.any_eq_true] at halive
    exact halive
  obtain ⟨i, hi, hialive⟩ := hi
  have hi' : s'.injections[owner]? = some (f i) := by
    rw [hinjections, List.getElem?_modify_eq, hi]
    rfl
  refine ⟨fun task htask => ?_, fun o => ?_, ?_, fun o j hj => ?_⟩
  · exact h.waiting_func task (hwaiting.mem_iff.mp htask)
  · by_cases ho : owner = o
    · subst ho
      rw [tokens, hwaiting.countP_eq, hwaiting0, hthreads'.countP_eq, List.countP_cons, hrest,
        isAlive, hi', Option.any_some]
      cases hgoes with
      | callFunc =>
          show _ = if i.isAlive = true then 1 else 0
          simp [AsyncTask.isPendingOf, hialive]
      | funcReturns reschedule =>
          show _ = if i.isAlive = true then 1 else 0
          cases reschedule <;> simp [AsyncTask.isPendingOf, hialive]
      | delete =>
          rw [isPendingOf_returned]
          rfl
      | schedule interval =>
          show _ = if i.isAlive = true then 1 else 0
          simp [AsyncTask.isPendingOf, hialive]
    · have htokens := h.tokens_eq o
      have hnot : ∀ phase, AsyncTask.isPendingOf o ⟨owner, phase⟩ = false := fun phase => by
        rw [AsyncTask.isPendingOf, beq_eq_false_iff_ne.mpr ho, Bool.false_and]
      rw [tokens, hthreads.countP_eq, List.countP_cons_of_neg (by rw [hnot]; decide)] at htokens
      rw [tokens, hwaiting.countP_eq, hthreads'.countP_eq,
        List.countP_cons_of_neg (by rw [hnot]; decide), htokens, isAlive, isAlive, hinjections,
        List.getElem?_modify_ne _ _ ho]
  · rw [hfaulted, h.notFaulted, halive]
    rfl
  · by_cases ho : owner = o
    · subst ho
      rw [hi'] at hj
      obtain rfl := Option.some.inj hj
      exact (h.record owner i hi).goes hgoes hialive hthreads hthreads' hrest
    · rw [hinjections, List.getElem?_modify_ne _ _ ho] at hj
      refine (h.record o j hj).congr fun p _ => ?_
      have hne : ∀ phase, (⟨owner, phase⟩ : AsyncTask) ≠ ⟨o, p⟩ := fun phase heq =>
        ho (AsyncTask.mk.inj heq).1
      rw [hthreads.count_eq, hthreads'.count_eq, List.count_cons_of_ne (hne phase),
        List.count_cons_of_ne (hne phase')]

/-- A new injection owns the place of its constructor. -/
theorem Owned.construct {s s' : AsyncSystem} (h : s.Owned) {interval : Int}
    (hwaiting : s'.waiting.Perm s.waiting)
    (hthreads : s'.threads.Perm (⟨s.injections.length, .schedule⟩ :: s.threads))
    (hinjections : s'.injections = s.injections ++ [⟨interval, true, 0, [], 0⟩])
    (hfaulted : s'.isFaulted = s.isFaulted) : s'.Owned := by
  have hnew : s.injections[s.injections.length]? = none :=
    List.getElem?_eq_none (Nat.le_refl _)
  have htokens : s.tokens s.injections.length = 0 := by
    rw [h.tokens_eq, isAlive, hnew]
    rfl
  have hold : ∀ owner, owner ≠ s.injections.length →
      s'.injections[owner]? = s.injections[owner]? := by
    intro owner hne
    rw [hinjections, List.getElem?_append]
    split
    · rfl
    · rw [List.getElem?_eq_none (by simp only [List.length_singleton]; omega),
        List.getElem?_eq_none (by omega)]
  have hthreads_eq : ∀ owner phase, phase = .inFunc ∨ phase = .delete →
      s'.threads.count ⟨owner, phase⟩ = s.threads.count ⟨owner, phase⟩ := by
    intro owner phase hphase
    rw [hthreads.count_eq]
    exact count_cons_of_phase_ne
      (by rcases hphase with rfl | rfl <;> exact fun h => by cases h) _ _
  refine ⟨fun task htask => ?_, fun owner => ?_, hfaulted.trans h.notFaulted,
    fun owner i hi => ?_⟩
  · exact h.waiting_func task (hwaiting.mem_iff.mp htask)
  · rw [tokens, hwaiting.countP_eq, hthreads.countP_eq, List.countP_cons]
    by_cases howner : owner = s.injections.length
    · subst howner
      rw [tokens] at htokens
      rw [isAlive, hinjections, List.getElem?_concat_length, Option.any_some, if_pos rfl]
      simp only [AsyncTask.isPendingOf, beq_self_eq_true, Bool.true_and, bne_iff_ne, ne_eq,
        reduceCtorEq, not_false_eq_true, if_true]
      omega
    · have hpending : AsyncTask.isPendingOf owner ⟨s.injections.length, .schedule⟩ = false := by
        rw [AsyncTask.isPendingOf, beq_eq_false_iff_ne.mpr fun heq => howner heq.symm,
          Bool.false_and]
      have hbefore := h.tokens_eq owner
      rw [tokens] at hbefore
      rw [hpending, if_neg Bool.false_ne_true, Nat.add_zero, hbefore, isAlive, isAlive,
        hold owner howner]
  · by_cases howner : owner = s.injections.length
    · subst howner
      rw [hinjections, List.getElem?_concat_length] at hi
      obtain rfl := Option.some.inj hi
      have hcount : ∀ phase, phase = .inFunc ∨ phase = .delete →
          s'.threads.count ⟨s.injections.length, phase⟩ = 0 := by
        intro phase hphase
        rw [hthreads_eq _ _ hphase]
        refine count_eq_zero_of_pending (Nat.eq_zero_of_add_eq_zero_left htokens) ?_
        rcases hphase with rfl | rfl <;> decide
      refine ⟨rfl, ?_, fun r hr => absurd hr List.not_mem_nil, ?_⟩
      · rw [hcount .inFunc (Or.inl rfl)]
        rfl
      have hdelete := List.count_eq_zero.mp (hcount .delete (Or.inr rfl))
      simp only [List.head?_nil, reduceCtorEq, Bool.true_eq_false, false_or, hdelete]
    · rw [hold owner howner] at hi
      exact (h.record owner i hi).congr (hthreads_eq owner)

/-- Every step keeps the owners. -/
theorem Moves.owned {s s' : AsyncSystem} (hmoves : s.Moves s') (h : s.Owned) : s'.Owned := by
  cases hmoves with
  | still hwaiting hthreads hsame =>
      refine h.of_same hsame (fun task htask => ?_) (fun owner => ?_) fun owner phase _ => ?_
      · exact h.waiting_func task (hwaiting.mem_iff.mp htask)
      · rw [tokens, tokens, hwaiting.countP_eq, hthreads.countP_eq]
      · exact hthreads.count_eq _
  | construct interval hwaiting hthreads hinjections hfaulted =>
      exact h.construct hwaiting hthreads hinjections hfaulted
  | addOther id hwaiting hthreads hsame =>
      refine h.of_same hsame (fun task htask => ?_) (fun owner => ?_) fun owner phase _ => ?_
      · rcases List.mem_cons.mp (hwaiting.mem_iff.mp htask) with heq | htask
        · cases heq
        · exact h.waiting_func task htask
      · rw [tokens, tokens, hwaiting.countP_eq, hthreads.countP_eq]
        rfl
      · exact hthreads.count_eq _
  | execute task hwaiting hthreads hsame =>
      have hfunc := h.waiting_func task (hwaiting.mem_iff.mpr List.mem_cons_self)
      refine h.of_same hsame (fun task' htask' => ?_) (fun owner => ?_)
        fun owner phase hphase => ?_
      · exact h.waiting_func task' (hwaiting.mem_iff.mpr (List.mem_cons_of_mem _ htask'))
      · rw [tokens, tokens, hwaiting.countP_eq, hthreads.countP_eq, List.countP_cons,
          List.countP_cons, isPendingOf_of_func hfunc]
        omega
      · rw [hthreads.count_eq]
        exact count_cons_of_phase_ne
          (by rw [hfunc]; rcases hphase with rfl | rfl <;> decide) _ _
  | executeOther id hwaiting hthreads hsame =>
      refine h.of_same hsame (fun task htask => ?_) (fun owner => ?_) fun owner phase _ => ?_
      · exact h.waiting_func task (hwaiting.mem_iff.mpr (List.mem_cons_of_mem _ htask))
      · rw [tokens, tokens, hwaiting.countP_eq, hthreads.countP_eq]
        rfl
      · exact hthreads.count_eq _
  | goes hgoes hwaiting hthreads hthreads' hinjections hfaulted =>
      exact h.goes hgoes hwaiting hthreads hthreads' hinjections hfaulted
  | @lockAdd owner interval rest hwaiting hthreads hthreads' hsame =>
      refine h.of_same hsame (fun task htask => ?_) (fun o => ?_) fun o phase hphase => ?_
      · rcases List.mem_cons.mp (hwaiting.mem_iff.mp htask) with heq | htask
        · obtain rfl := ISTask.asyncTask.inj heq
          rfl
        · exact h.waiting_func task htask
      · have hpending : AsyncTask.isPendingOf o ⟨owner, .add interval⟩ =
            (ISTask.asyncTask ⟨owner, .func⟩).isOf o := Bool.and_true _
        rw [tokens, tokens, hwaiting.countP_eq, hthreads.countP_eq, hthreads'.countP_eq,
          List.countP_cons, List.countP_cons, List.countP_cons, isPendingOf_returned, hpending,
          if_neg Bool.false_ne_true]
        omega
      · rw [hthreads.count_eq, hthreads'.count_eq,
          count_cons_of_phase_ne (by rcases hphase with rfl | rfl <;> exact fun h => by cases h),
          count_cons_of_phase_ne (by rcases hphase with rfl | rfl <;> exact fun h => by cases h)]
  | executed owner hwaiting hthreads hsame =>
      refine h.of_same hsame (fun task htask => ?_) (fun o => ?_) fun o phase hphase => ?_
      · exact h.waiting_func task (hwaiting.mem_iff.mp htask)
      · rw [tokens, tokens, hwaiting.countP_eq, hthreads.countP_eq, List.countP_cons,
          isPendingOf_returned]
        rfl
      · rw [hthreads.count_eq]
        exact (count_cons_of_phase_ne
          (by rcases hphase with rfl | rfl <;> exact fun h => by cases h) _ _).symm

end AsyncSystem

end Framework
end InfinityLabs
