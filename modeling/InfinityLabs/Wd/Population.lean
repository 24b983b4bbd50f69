import InfinityLabs.Wd.Process

/-!
# The population of tasks

How many heartbeat tasks and how many counter checks the scheduler of a process holds, the
executed one included.  A check that revives the watchdog adds a new check, and is then run
again itself: from then on there are two.
-/

namespace InfinityLabs
namespace Wd

open Lib Ds Sched

/-! ## Counting -/

/-- The queued tasks of a function. -/
def queued (s : SchedState WdPtr) (opFunc : WdPtr) : Nat :=
  s.sch.queue.countP fun task => task.opFunc = opFunc

/-- The tasks of a function, held or queued. -/
def population (s : SchedState WdPtr) (opFunc : WdPtr) : Nat :=
  (s.phase.held.toList ++ s.sch.queue).countP fun task => task.opFunc = opFunc

/-- The population is the held task and the queue. -/
theorem population_eq (s : SchedState WdPtr) (opFunc : WdPtr) :
    population s opFunc =
      (s.phase.held.toList.countP fun task => task.opFunc = opFunc) + queued s opFunc := by
  rw [population, List.countP_append, queued]

/-- Only `SchedAdd` adds to a population. -/
theorem population_le {s s' : SchedState WdPtr} {a : SchedAction WdPtr} (h : s.Effect a s')
    (hadd : ∀ env opFunc param timeExe cleanupFunc cleanupParam,
      a ≠ .add env opFunc param timeExe cleanupFunc cleanupParam) (opFunc : WdPtr) :
    population s' opFunc ≤ population s opFunc := by
  simp only [population_eq, queued]
  cases h with
  | add => exact absurd rfl (hadd _ _ _ _ _ _)
  | remove task sch hcallable hqueue hstop =>
      have hcount := hqueue.countP_eq fun task : Sched.Task WdPtr => decide (task.opFunc = opFunc)
      rw [List.countP_append] at hcount
      dsimp only
      omega
  | clear destroyed sch hcallable hqueue hempty hstop =>
      simp only [hempty, List.countP_nil]
      omega
  | stop hcallable => exact Nat.le_refl _
  | destroy destroyed sch hphase hqueue hempty hstop =>
      simp only [hempty, List.countP_nil, RunPhase.held, Option.toList_none]
      omega
  | run hphase =>
      rw [hphase]
      exact Nat.le_refl _
  | take hadFail task sch hphase hstop hpeek hqueue hfirst hkeep =>
      have hcount := hqueue.countP_eq fun task : Sched.Task WdPtr => decide (task.opFunc = opFunc)
      simp only [hphase, RunPhase.held, hcount, Option.toList_none, Option.toList_some,
        List.countP_cons, List.countP_nil]
      omega
  | leave hadFail hphase => simp [hphase, RunPhase.held]
  | sleep hadFail task toSleep hphase => simp [hphase, RunPhase.held]
  | execute hadFail task hphase => simp [hphase, RunPhase.held]
  | fail hadFail task hphase => simp [hphase, RunPhase.held]
  | cease hadFail task hphase => simp [hphase, RunPhase.held]
  | rearm hadFail task sch hphase hresult hqueue hstop =>
      have hcount := hqueue.countP_eq fun task : Sched.Task WdPtr => decide (task.opFunc = opFunc)
      simp only [hphase, RunPhase.held, hcount, Option.toList_none, Option.toList_some,
        List.countP_cons, List.countP_nil, taskSetTimeToRun]
      omega
  | tick => exact Nat.le_refl _

/-- `SchedAdd` adds the task that it creates, and leaves the phase. -/
theorem addTask_effect {env : TaskEnv} {s s' : SchedState WdPtr} {opFunc : WdPtr} {timeExe : Nat}
    {uid : Uid} (h : s.sch.Wf) (hadd : addTask env s opFunc timeExe = some (s', uid)) :
    s'.sch.Wf ∧ s'.phase = s.phase ∧ ∃ task, (∀ new ∈ task, new.opFunc = opFunc) ∧
      task = (schedAdd env s.clock s.counter s.sch opFunc .ctx timeExe .NoCleanup .NULL).task ∧
        s'.sch.queue.Perm (task.toList ++ s.sch.queue) := by
  rw [addTask, Option.map_eq_some_iff] at hadd
  obtain ⟨t, hstep, heq⟩ := hadd
  obtain ⟨rfl, -⟩ := Prod.mk.inj heq
  obtain ⟨hwf, heffect⟩ := SchedState.step_effect h hstep
  cases heffect with
  | add task sch counter hcallable hqueue hfunc htask hstop =>
      exact ⟨hwf, rfl, task, hfunc, htask, hqueue⟩

/-! ## The invariant -/

/-- The function that a statement belongs to, if only one can be. -/
def TaskPc.function : TaskPc → Option WdPtr
  | .testStop | .chooseSignal | .sendSignal _ | .countBeat => some .TaskSendHeartbeat
  | .testStopped | .clearStopped | .readCounter | .clearLate | .revive | .addHeartbeat
  | .addCheck => some .TaskCheckCounter
  | .ret _ => none

/-- There is at most one heartbeat task, there are at most `limit` checks, the statement that
comes next is one of the executed task, and the queue is empty when a revival begins. -/
structure Populated (limit : Nat) (p : WdProcess) : Prop where
  wf : p.sched.sch.Wf
  heartbeats : population p.sched .TaskSendHeartbeat ≤ 1
  checks : population p.sched .TaskCheckCounter ≤ limit
  executing : ∀ pc, p.pc = some pc → ∃ hadFail task, p.sched.phase = .executing hadFail task ∧
    ∀ opFunc, pc.function = some opFunc → task.opFunc = opFunc
  cleared : p.pc = some .revive ∨ p.pc = some .addHeartbeat → p.sched.sch.queue = []
  readded : p.pc = some .addCheck → queued p.sched .TaskCheckCounter = 0

/-- No counter check adds itself again: after a revival one of its calls of `SchedAdd`
fails. -/
def NoSecondCheck (p : WdProcess) : WdAction → Prop
  | .statement env => p.pc = some .addCheck →
      (schedAdd env.add p.sched.clock p.sched.counter p.sched.sch .TaskCheckCounter .ctx 0
        .NoCleanup .NULL).task = none
  | _ => True

instance (p : WdProcess) : (a : WdAction) → Decidable (NoSecondCheck p a)
  | .statement env => inferInstanceAs (Decidable (p.pc = some .addCheck →
      (schedAdd env.add p.sched.clock p.sched.counter p.sched.sch .TaskCheckCounter .ctx 0
        .NoCleanup .NULL).task = none))
  | .loop _ | .execute | .sigUsr1 | .sigUsr2 | .answer | .requestStop => instDecidableTrue

/-! ## The steps -/

/-- Nothing changes where the scheduler and the statement stay. -/
theorem Populated.same {limit : Nat} {p p' : WdProcess} (h : Populated limit p)
    (hsched : p'.sched = p.sched) (hpc : p'.pc = p.pc) : Populated limit p' := by
  constructor <;> simp only [hsched, hpc]
  · exact h.wf
  · exact h.heartbeats
  · exact h.checks
  · exact h.executing
  · exact h.cleared
  · exact h.readded

/-- A statement that leaves the scheduler is followed by one of the same task. -/
theorem Populated.goto {limit : Nat} {p p' : WdProcess} {pc pc' : TaskPc}
    (h : Populated limit p) (hsched : p'.sched = p.sched) (hpc : p.pc = some pc)
    (hpc' : p'.pc = some pc') (hfunc : pc'.function = pc.function ∨ pc'.function = none)
    (hrevive : pc' ≠ .revive) (hadd : pc' = .addHeartbeat → p.sched.sch.queue = [])
    (hcheck : pc' ≠ .addCheck) : Populated limit p' := by
  refine ⟨?_, ?_, ?_, ?_, ?_, ?_⟩ <;> simp only [hsched, hpc', Option.some.injEq]
  · exact h.wf
  · exact h.heartbeats
  · exact h.checks
  · rintro _ rfl
    obtain ⟨hadFail, task, hphase, htask⟩ := h.executing pc hpc
    refine ⟨hadFail, task, hphase, fun opFunc hop => ?_⟩
    rcases hfunc with hfunc | hfunc
    · exact htask opFunc (hfunc ▸ hop)
    · rw [hfunc] at hop
      cases hop
  · rintro (rfl | rfl)
    · exact absurd rfl hrevive
    · exact hadd rfl
  · intro hreadded
    exact absurd hreadded hcheck

/-- `SchedClear` leaves the executed task. -/
theorem Populated.clearThen {limit : Nat} {p p' : WdProcess} {pc pc' : TaskPc}
    (h : Populated limit p) (hclear : p.clearThen pc' = some p') (hpc : p.pc = some pc)
    (hfunc : pc'.function = pc.function ∨ pc'.function = none) : Populated limit p' := by
  rw [WdProcess.clearThen, Option.map_eq_some_iff] at hclear
  obtain ⟨s, hstep, rfl⟩ := hclear
  obtain ⟨hwf, heffect⟩ := SchedState.step_effect h.wf hstep
  have hle := population_le heffect (by simp)
  obtain ⟨hadFail, task, hphase, htask⟩ := h.executing pc hpc
  cases heffect with
  | clear destroyed sch hcallable hqueue hempty hstop =>
      refine ⟨hwf, Nat.le_trans (hle _) h.heartbeats, Nat.le_trans (hle _) h.checks, ?_,
        fun _ => hempty, fun _ => ?_⟩
      · rintro _ ⟨⟩
        refine ⟨hadFail, task, hphase, fun opFunc hop => ?_⟩
        rcases hfunc with hfunc | hfunc
        · exact htask opFunc (hfunc ▸ hop)
        · rw [hfunc] at hop
          cases hop
      · simp only [queued, hempty, List.countP_nil]

/-- A created task of another function does not count. -/
theorem countP_created {task : Option (Sched.Task WdPtr)} {opFunc : WdPtr}
    (hfunc : ∀ new ∈ task, new.opFunc = opFunc) (other : WdPtr) :
    task.toList.countP (fun new => new.opFunc = other) ≤ if opFunc = other then 1 else 0 := by
  cases task with
  | none => simp
  | some new => simp [hfunc new rfl]

/-- `SchedAdd` in a task adds at most one task, of the given function. -/
theorem population_add {s s' : SchedState WdPtr} {task : Option (Sched.Task WdPtr)}
    (hphase : s'.phase = s.phase) (hqueue : s'.sch.queue.Perm (task.toList ++ s.sch.queue))
    (other : WdPtr) :
    population s' other =
      task.toList.countP (fun new => new.opFunc = other) + population s other := by
  have hcount := hqueue.countP_eq fun new : Sched.Task WdPtr => decide (new.opFunc = other)
  rw [List.countP_append] at hcount
  rw [population_eq, population_eq, queued, queued, hphase, hcount]
  omega

/-- The heartbeat task is added to an empty queue. -/
theorem Populated.addHeartbeat {limit : Nat} {p p' : WdProcess} {env : TaskEnv}
    (h : Populated limit p) (hpc : p.pc = some .addHeartbeat)
    (hadd : p.addThen env .TaskSendHeartbeat .addCheck = some p') : Populated limit p' := by
  rw [WdProcess.addThen, Option.map_eq_some_iff] at hadd
  obtain ⟨⟨s, uid⟩, hadd, rfl⟩ := hadd
  obtain ⟨hwf, hsame, task, hfunc, -, hqueue⟩ := addTask_effect h.wf hadd
  obtain ⟨hadFail, held, hphase, hheld⟩ := h.executing _ hpc
  -- the executed task is a check, and the queue is empty since `SchedClear`
  have hheld := hheld .TaskCheckCounter rfl
  have hempty := h.cleared (Or.inr hpc)
  have hbeat := countP_created hfunc .TaskSendHeartbeat
  have hcheck := countP_created hfunc .TaskCheckCounter
  simp only [if_true, reduceCtorEq, if_false] at hbeat hcheck
  refine ⟨hwf, ?_, ?_, ?_, ?_, fun _ => ?_⟩
  · have hnone : population p.sched .TaskSendHeartbeat = 0 := by
      simp [population, hphase, RunPhase.held, hempty, hheld]
    rw [population_add hsame hqueue, hnone]
    exact hbeat
  · rw [population_add hsame hqueue]
    have hchecks := h.checks
    omega
  · rintro pc' hpc'
    refine ⟨hadFail, held, hsame.trans hphase, fun opFunc hop => ?_⟩
    obtain rfl := Option.some.inj hpc'
    split at hop
    · cases hop
    · obtain rfl := Option.some.inj hop
      exact hheld
  · rintro (hpc' | hpc') <;> (have hpc' := Option.some.inj hpc'; split at hpc' <;> cases hpc')
  · have hcount := hqueue.countP_eq fun new : Sched.Task WdPtr =>
      decide (new.opFunc = .TaskCheckCounter)
    rw [hempty, List.append_nil] at hcount
    rw [queued, hcount]
    omega

/-- The check is added beside the one that is executed. -/
theorem Populated.addCheck {limit : Nat} {p p' : WdProcess} {env : TaskEnv} {interval : Int}
    (h : Populated limit p) (hpc : p.pc = some .addCheck)
    (hlimit : limit = 2 ∨ (schedAdd env p.sched.clock p.sched.counter p.sched.sch
      .TaskCheckCounter .ctx 0 .NoCleanup .NULL).task = none)
    (hadd : p.addThen env .TaskCheckCounter (.ret interval) = some p') : Populated limit p' := by
  rw [WdProcess.addThen, Option.map_eq_some_iff] at hadd
  obtain ⟨⟨s, uid⟩, hadd, rfl⟩ := hadd
  obtain ⟨hwf, hsame, task, hfunc, htask, hqueue⟩ := addTask_effect h.wf hadd
  obtain ⟨hadFail, held, hphase, hheld⟩ := h.executing _ hpc
  have hheld := hheld .TaskCheckCounter rfl
  have hbeat := countP_created hfunc .TaskSendHeartbeat
  have hcheck := countP_created hfunc .TaskCheckCounter
  simp only [if_true, reduceCtorEq, if_false] at hbeat hcheck
  refine ⟨hwf, ?_, ?_, ?_, ?_, ?_⟩
  · rw [population_add hsame hqueue]
    have hbeats := h.heartbeats
    omega
  · rw [population_add hsame hqueue]
    rcases hlimit with rfl | hnone
    · have hone : population p.sched .TaskCheckCounter = 1 := by
        rw [population_eq, h.readded hpc]
        simp [hphase, RunPhase.held, hheld]
      omega
    · rw [htask, hnone]
      have hchecks := h.checks
      simpa using hchecks
  · rintro pc' hpc'
    refine ⟨hadFail, held, hsame.trans hphase, fun opFunc hop => ?_⟩
    obtain rfl := Option.some.inj hpc'
    split at hop <;> cases hop
  · rintro (hpc' | hpc') <;> (have hpc' := Option.some.inj hpc'; split at hpc' <;> cases hpc')
  · intro hpc'
    have hpc' := Option.some.inj hpc'
    split at hpc' <;> cases hpc'

/-- The end of a task. -/
theorem Populated.finish {limit : Nat} {p : WdProcess} {s : SchedState WdPtr} {result : Int}
    (h : Populated limit p) (hstep : p.sched.step (.finish result) = some s) :
    Populated limit { p with sched := s, pc := none } := by
  obtain ⟨hwf, heffect⟩ := SchedState.step_effect h.wf hstep
  have hle := population_le heffect (by simp)
  exact ⟨hwf, Nat.le_trans (hle _) h.heartbeats, Nat.le_trans (hle _) h.checks, by simp, by simp,
    by simp⟩

/-- A statement keeps the population. -/
theorem Populated.statement {limit : Nat} {p p' : WdProcess} {env : WdEnv} {pc : TaskPc}
    (h : Populated limit p) (hpc : p.pc = some pc)
    (hlimit : limit = 2 ∨ NoSecondCheck p (.statement env))
    (hstep : p.statement env pc = some p') : Populated limit p' := by
  cases pc with
  | testStop =>
      obtain rfl := Option.some.inj hstep
      refine h.goto rfl hpc rfl ?_ ?_ ?_ ?_ <;> split <;> simp [TaskPc.function]
  | chooseSignal =>
      obtain rfl := Option.some.inj hstep
      refine h.goto rfl hpc rfl ?_ ?_ ?_ ?_ <;> simp [TaskPc.function]
  | sendSignal signalToSend =>
      obtain rfl := Option.some.inj hstep
      refine h.goto rfl hpc rfl ?_ ?_ ?_ ?_ <;> simp [TaskPc.function]
  | countBeat =>
      obtain rfl := Option.some.inj hstep
      refine h.goto rfl hpc rfl ?_ ?_ ?_ ?_ <;> simp [TaskPc.function]
  | testStopped =>
      obtain rfl := Option.some.inj hstep
      refine h.goto rfl hpc rfl ?_ ?_ ?_ ?_ <;> split <;> simp [TaskPc.function]
  | clearStopped => exact h.clearThen hstep hpc (Or.inr rfl)
  | readCounter =>
      obtain rfl := Option.some.inj hstep
      refine h.goto rfl hpc rfl ?_ ?_ ?_ ?_ <;> split <;> simp [TaskPc.function]
  | clearLate => exact h.clearThen hstep hpc (Or.inl rfl)
  | revive =>
      simp only [WdProcess.statement, Option.some.injEq] at hstep
      subst hstep
      have hnext : (if (reviveProcess env.fork p.ctx).2 ≠ 0 then TaskPc.ret 0
          else .addHeartbeat) = .ret 0 ∨
          (if (reviveProcess env.fork p.ctx).2 ≠ 0 then TaskPc.ret 0
            else .addHeartbeat) = .addHeartbeat := by
        split
        · exact Or.inl rfl
        · exact Or.inr rfl
      rcases hnext with hnext | hnext
      · exact h.goto rfl hpc (congrArg some hnext) (Or.inr rfl) (by simp) (by simp) (by simp)
      · exact h.goto rfl hpc (congrArg some hnext) (Or.inl rfl) (by simp)
          (fun _ => h.cleared (Or.inl hpc)) (by simp)
  | addHeartbeat => exact h.addHeartbeat hpc hstep
  | addCheck => exact h.addCheck hpc (hlimit.imp_right fun hguard => hguard hpc) hstep
  | ret result =>
      rw [WdProcess.statement, Option.map_eq_some_iff] at hstep
      obtain ⟨s, hstep, rfl⟩ := hstep
      exact h.finish hstep

/-- While a task runs, the loop does not. -/
theorem Populated.loop {limit : Nat} {p : WdProcess} {a : LoopAction} {s : SchedState WdPtr}
    (h : Populated limit p) (hstep : p.sched.step a.toSched = some s) :
    Populated limit { p with sched := s } := by
  obtain ⟨hwf, heffect⟩ := SchedState.step_effect h.wf hstep
  have hadd : ∀ env opFunc param timeExe cleanupFunc cleanupParam,
      a.toSched ≠ .add env opFunc param timeExe cleanupFunc cleanupParam := by
    cases a <;> simp [LoopAction.toSched]
  have hle := population_le heffect hadd
  -- outside of an operation there is no statement to come
  have hnone : (∀ hadFail task, p.sched.phase ≠ .executing hadFail task) → p.pc = none := by
    intro hphase
    cases hpc : p.pc with
    | none => rfl
    | some pc =>
        obtain ⟨hadFail, task, hexec, -⟩ := h.executing pc hpc
        exact absurd hexec (hphase hadFail task)
  have hidle : p.pc = none → Populated limit { p with sched := s } := fun hpc =>
    ⟨hwf, Nat.le_trans (hle _) h.heartbeats, Nat.le_trans (hle _) h.checks, by simp [hpc],
      by simp [hpc], by simp [hpc]⟩
  cases a with
  | next =>
      apply hidle
      cases heffect with
      | take hadFail task sch hphase => exact hnone (by simp [hphase])
      | leave hadFail hphase => exact hnone (by simp [hphase])
  | sleep slept unslept =>
      apply hidle
      cases heffect with
      | sleep hadFail task toSleep hphase => exact hnone (by simp [hphase])
  | destroy =>
      apply hidle
      cases heffect with
      | destroy destroyed sch hphase => exact hnone (by simp [hphase])
  | tick seconds =>
      cases heffect with
      | tick => exact ⟨hwf, h.heartbeats, h.checks, h.executing, h.cleared, h.readded⟩

/-- The execution of a task begins with the first statement of its function. -/
theorem Populated.execute {limit : Nat} {p : WdProcess} {s : SchedState WdPtr}
    {task : Sched.Task WdPtr} (h : Populated limit p) (hstep : p.sched.step .execute = some s)
    (htask : executingTask s = some task) :
    Populated limit { p with sched := s, pc := entry task.opFunc } := by
  obtain ⟨hwf, heffect⟩ := SchedState.step_effect h.wf hstep
  have hle := population_le heffect (by simp)
  cases heffect with
  | execute hadFail held hphase =>
      obtain rfl : held = task := Option.some.inj htask
      refine ⟨hwf, Nat.le_trans (hle _) h.heartbeats, Nat.le_trans (hle _) h.checks, ?_, ?_, ?_⟩
      · intro pc hpc
        refine ⟨hadFail, held, rfl, fun opFunc hop => ?_⟩
        cases hheld : held.opFunc <;> rw [hheld] at hpc <;> cases hpc <;> cases hop <;> rfl
      · cases hheld : held.opFunc <;> simp [entry]
      · cases hheld : held.opFunc <;> simp [entry]

/-- A step keeps the population. -/
theorem Populated.step {limit : Nat} {p p' : WdProcess} {a : WdAction} (h : Populated limit p)
    (hlimit : limit = 2 ∨ NoSecondCheck p a) (hstep : p.step a = some p') :
    Populated limit p' := by
  cases WdProcess.step_effect hstep with
  | loop s hfree hloop => exact h.loop hloop
  | execute s task hfree hexecute htask => exact h.execute hexecute htask
  | statement pc hfree hpc hstatement => exact h.statement hpc hlimit hstatement
  | sigUsr1 => exact h.same rfl rfl
  | sigUsr2 hfree => exact h.same rfl rfl
  | answer hanswering => exact h.same rfl rfl
  | requestStop hclient => exact h.same rfl rfl

/-! ## The runs -/

/-- `WDTasksInit` adds one task of each kind. -/
theorem populated_wdStart {env₁ env₂ : TaskEnv} {counter : Nat} {clock : Int} {isWd : Bool}
    {peerPid : Int} {intervalSec tolerance : Nat} {p : WdProcess}
    (h : wdStart env₁ env₂ counter clock isWd peerPid intervalSec tolerance = some p) :
    Populated 1 p := by
  obtain ⟨s₁, uid₁, s₂, uid₂, s, hbeat, -, hcheck, -, hrun, rfl⟩ := wdStart_some h
  have hwf₀ : (schedCreate : Scheduler WdPtr).Wf := wf_heapCreate
  obtain ⟨hwf₁, hphase₁, task₁, hfunc₁, -, hqueue₁⟩ := addTask_effect hwf₀ hbeat
  obtain ⟨hwf₂, hphase₂, task₂, hfunc₂, -, hqueue₂⟩ := addTask_effect hwf₁ hcheck
  obtain ⟨hwf, heffect⟩ := SchedState.step_effect hwf₂ hrun
  have hle := population_le heffect (by simp)
  have hcount : ∀ opFunc, population s₂ opFunc =
      task₂.toList.countP (fun new => new.opFunc = opFunc) +
        (task₁.toList.countP (fun new => new.opFunc = opFunc) + 0) := by
    intro opFunc
    rw [population_add hphase₂ hqueue₂, population_add hphase₁ hqueue₁]
    rfl
  have hbeats := hle .TaskSendHeartbeat
  have hchecks := hle .TaskCheckCounter
  have hbeat₁ := countP_created hfunc₁ .TaskSendHeartbeat
  have hbeat₂ := countP_created hfunc₂ .TaskSendHeartbeat
  have hcheck₁ := countP_created hfunc₁ .TaskCheckCounter
  have hcheck₂ := countP_created hfunc₂ .TaskCheckCounter
  rw [hcount] at hbeats hchecks
  simp only [if_true, reduceCtorEq, if_false] at hbeat₁ hbeat₂ hcheck₁ hcheck₂
  refine ⟨hwf, ?_, ?_, by simp, by simp, by simp⟩
  · dsimp only
    omega
  · dsimp only
    omega

/-- **The population of tasks**: while no counter check adds itself again after a revival, a
process has at most one heartbeat task and at most one counter check. -/
theorem wd_population {p : WdProcess} (hreached : processMachine.ReachedBy NoSecondCheck p) :
    population p.sched .TaskSendHeartbeat ≤ 1 ∧ population p.sched .TaskCheckCounter ≤ 1 := by
  have h : Populated 1 p := by
    refine hreached.invariant ?_ fun p a p' h hguard hstep => h.step (Or.inr hguard) hstep
    rintro p ⟨env₁, env₂, counter, clock, isWd, peerPid, intervalSec, tolerance, hstart⟩
    exact populated_wdStart hstart
  exact ⟨h.heartbeats, h.checks⟩

/-- In the watchdog `ReviveProcess` does not return 0, so no check adds itself again. -/
theorem noSecondCheck_of_isWd {p : WdProcess} (hreached : processMachine.Reached p)
    (hwd : p.ctx.isWd = true) (a : WdAction) : NoSecondCheck p a := by
  have h : p.ctx.isWd = true → p.pc ≠ some .addHeartbeat ∧ p.pc ≠ some .addCheck := by
    refine hreached.invariant (I := fun p => p.ctx.isWd = true →
      p.pc ≠ some .addHeartbeat ∧ p.pc ≠ some .addCheck) ?_ ?_
    · rintro p ⟨env₁, env₂, counter, clock, isWd, peerPid, intervalSec, tolerance, hstart⟩ -
      obtain ⟨-, -, -, -, s, -, -, -, -, -, rfl⟩ := wdStart_some hstart
      simp
    · intro p a p' h _ hstep hwd'
      exact not_readding ((WdProcess.step_isWd hstep).symm.trans hwd')
        (h ((WdProcess.step_isWd hstep).symm.trans hwd')) hstep
  cases a with
  | statement env => exact fun hpc => absurd hpc (h hwd).2
  | _ => trivial

/-- Whatever happens, there is at most one heartbeat task and there are at most two checks. -/
theorem wd_population_le_two {p : WdProcess} (hreached : processMachine.Reached p) :
    population p.sched .TaskSendHeartbeat ≤ 1 ∧ population p.sched .TaskCheckCounter ≤ 2 := by
  have h : Populated 2 p := by
    refine hreached.invariant ?_ fun p a p' h _ hstep => h.step (Or.inl rfl) hstep
    rintro p ⟨env₁, env₂, counter, clock, isWd, peerPid, intervalSec, tolerance, hstart⟩
    have hone := populated_wdStart hstart
    exact ⟨hone.wf, hone.heartbeats, Nat.le_succ_of_le hone.checks, hone.executing, hone.cleared,
      hone.readded⟩
  exact ⟨h.heartbeats, h.checks⟩

/-! ## A revival -/

/-- The system has memory and an address, and gives the process 42 to `fork`. -/
def sampleEnv : WdEnv := ⟨⟨true, 700, 8, some [49, 57, 50]⟩, some 42⟩

/-- The next task is executed after a wait. -/
def turn (wait statements : Nat) : List WdAction :=
  [.loop .next] ++ (if wait = 0 then [] else [.loop (.sleep wait 0)]) ++ [.execute] ++
    List.replicate statements (.statement sampleEnv)

/-- A client with an interval of one second that tolerates one missed heartbeat. -/
def sampleClient : Option WdProcess :=
  wdStart sampleEnv.add sampleEnv.add 0 700 false 41 1 1

/-- The second check finds two missed heartbeats, and adds a check beside itself. -/
theorem wd_population_two :
    ¬ ∀ p : WdProcess, processMachine.Reached p →
      population p.sched .TaskSendHeartbeat ≤ 1 ∧ population p.sched .TaskCheckCounter ≤ 1 := by
  intro hclaim
  have hrun : (sampleClient.bind fun p => processMachine.run p
      (turn 0 5 ++ turn 1 3 ++ turn 0 5 ++ turn 1 7)).map
        (fun p => population p.sched .TaskCheckCounter) = some 2 := by
    decide +kernel
  obtain ⟨p', hrun, htwo⟩ := Option.map_eq_some_iff.mp hrun
  obtain ⟨p, hstart, hrun⟩ := Option.bind_eq_some_iff.mp hrun
  have hreached : processMachine.Reached p := .start ⟨_, _, _, _, _, _, _, _, hstart⟩
  have hone := (hclaim p' (hreached.run hrun)).2
  omega

/-- The heartbeat of the peer comes between the two checks. -/
theorem wd_population_sample :
    ∃ p : WdProcess, p.ctx.counter = 1 ∧ p.sched.clock = 702 ∧
      population p.sched .TaskSendHeartbeat ≤ 1 ∧ population p.sched .TaskCheckCounter ≤ 1 := by
  have hrun : (sampleClient.bind fun p =>
      if processMachine.Admits NoSecondCheck p
          (turn 0 5 ++ turn 1 3 ++ [.sigUsr1] ++ turn 0 5 ++ turn 1 3) then
        processMachine.run p (turn 0 5 ++ turn 1 3 ++ [.sigUsr1] ++ turn 0 5 ++ turn 1 3)
      else none).map (fun p => (p.ctx.counter, p.sched.clock)) = some (1, 702) := by
    decide +kernel
  obtain ⟨p', hrun, hshown⟩ := Option.map_eq_some_iff.mp hrun
  obtain ⟨p, hstart, hrun⟩ := Option.bind_eq_some_iff.mp hrun
  split at hrun
  · rename_i hadmits
    have hreached : processMachine.ReachedBy NoSecondCheck p :=
      .start ⟨_, _, _, _, _, _, _, _, hstart⟩
    exact ⟨p', congrArg Prod.fst hshown, congrArg Prod.snd hshown,
      wd_population (hreached.run hadmits hrun)⟩
  · cases hrun

end Wd
end InfinityLabs
