import InfinityLabs.Sched.Sched

/-!
# A process of the watchdog

`utils/src/wd_lib.c`.  The client and the watchdog run the same two tasks in a scheduler of
their own.  A signal handler, and in the client another thread, can come between any two
statements of a task, so a task is cut into its statements.

`ReviveProcess` is one statement.  In the watchdog it returns only where `execvp` has failed;
in the client it returns 0 once the new watchdog has posted its semaphore.
-/

namespace InfinityLabs
namespace Wd

open Lib Ds Sched

/-! ## The data -/

/-- The functions and the parameters that the scheduler is given. -/
inductive WdPtr where
  | TaskSendHeartbeat
  | TaskCheckCounter
  | NoCleanup
  | ctx
  | NULL
  deriving DecidableEq, Repr

/-- The signals between the processes. -/
inductive Signal where
  | SIGUSR1
  | SIGUSR2
  | SIGKILL
  deriving DecidableEq, Repr

/-- A `wd_ctx_t`, without the scheduler and the arguments of the program. -/
structure WdCtx where
  peerPid : Int
  intervalSec : Nat
  tolerance : Nat
  counter : Nat
  stopFlag : Nat
  isWd : Bool
  deriving DecidableEq, Repr

/-- The next statement of the task that runs. -/
inductive TaskPc where
  /-- `TaskSendHeartbeat`, the test of `stop_flag`. -/
  | testStop
  | chooseSignal
  | sendSignal (signalToSend : Signal)
  | countBeat
  /-- `TaskCheckCounter`, the test of `stop_flag`. -/
  | testStopped
  | clearStopped
  | readCounter
  | clearLate
  | revive
  | addHeartbeat
  | addCheck
  /-- The end of either function. -/
  | ret (result : Int)
  deriving DecidableEq, Repr

/-- A process: its scheduler, `g_ctx`, the task that runs, and whether `SigUsr2Handler` is
about to answer. -/
structure WdProcess where
  sched : SchedState WdPtr
  ctx : WdCtx
  pc : Option TaskPc
  answering : Bool

/-- What the system answers in a statement. -/
structure WdEnv where
  add : TaskEnv
  fork : Option Int

/-! ## The functions -/

/-- `SchedAdd` of one of the two functions with `g_ctx`, with the identifier that it
returns. -/
def addTask (env : TaskEnv) (s : SchedState WdPtr) (opFunc : WdPtr) (timeExe : Nat) :
    Option (SchedState WdPtr × Uid) :=
  (s.step (.add env opFunc .ctx timeExe .NoCleanup .NULL)).map fun s' =>
    (s', (schedAdd env s.clock s.counter s.sch opFunc .ctx timeExe .NoCleanup .NULL).uid)

/-- `WDTasksInit`, where `calloc` and `sigaction` succeed. -/
def wdTasksInit (env₁ env₂ : TaskEnv) (sched : SchedState WdPtr) (isWd : Bool) (peerPid : Int)
    (intervalSec tolerance : Nat) : Option WdProcess := do
  let (sched, uid) ← addTask env₁ sched .TaskSendHeartbeat 0
  if uidIsSame UIDbadUID uid ≠ 0 then none
  else
    let (sched, uid) ← addTask env₂ sched .TaskCheckCounter 1
    if uidIsSame UIDbadUID uid ≠ 0 then none
    else some ⟨sched, ⟨peerPid, intervalSec, tolerance, 0, 0, isWd⟩, none, false⟩

/-- `WDTasksRequestStop`. -/
def wdTasksRequestStop (p : WdProcess) : WdProcess :=
  { p with ctx := { p.ctx with stopFlag := 1 } }

/-- `SigUsr1Handler`. -/
def sigUsr1Handler (p : WdProcess) : WdProcess :=
  { p with ctx := { p.ctx with counter := 0 } }

/-- `SigUsr2Handler`, up to its `kill`. -/
def sigUsr2Handler (p : WdProcess) : WdProcess :=
  { p with
    ctx := { p.ctx with stopFlag := 2 }
    answering := p.ctx.isWd && decide (0 < p.ctx.peerPid) }

/-- `ReviveProcess`, where it returns. -/
def reviveProcess (fork : Option Int) (ctx : WdCtx) : WdCtx × Int :=
  if ctx.isWd then (ctx, -1)
  else
    match fork with
    | none => (ctx, -1)
    | some newPid => ({ ctx with peerPid := newPid, counter := 0 }, 0)

/-- The first statement of a function. -/
def entry : WdPtr → Option TaskPc
  | .TaskSendHeartbeat => some .testStop
  | .TaskCheckCounter => some .testStopped
  | _ => none

/-- `SchedClear` in a task, before the statement `next`. -/
def WdProcess.clearThen (p : WdProcess) (next : TaskPc) : Option WdProcess :=
  (p.sched.step .clear).map fun s => { p with sched := s, pc := some next }

/-- `SchedAdd` in a task, before the statement `next` or the return of -1. -/
def WdProcess.addThen (p : WdProcess) (env : TaskEnv) (opFunc : WdPtr) (next : TaskPc) :
    Option WdProcess :=
  (addTask env p.sched opFunc 0).map fun (s, uid) =>
    { p with sched := s, pc := some (if uidIsSame UIDbadUID uid ≠ 0 then .ret (-1) else next) }

/-- A statement of `TaskSendHeartbeat` or of `TaskCheckCounter`. -/
def WdProcess.statement (p : WdProcess) (env : WdEnv) : TaskPc → Option WdProcess
  | .testStop =>
      some { p with pc := some (if p.ctx.stopFlag = 2 then .ret 0 else .chooseSignal) }
  | .chooseSignal =>
      some { p with
        pc := some (.sendSignal (if p.ctx.stopFlag = 0 then .SIGUSR1 else .SIGUSR2)) }
  | .sendSignal _ => some { p with pc := some .countBeat }
  | .countBeat => some { p with
      ctx := { p.ctx with counter := p.ctx.counter + 1 }
      pc := some (.ret p.ctx.intervalSec) }
  | .testStopped =>
      some { p with pc := some (if p.ctx.stopFlag = 2 then .clearStopped else .readCounter) }
  | .clearStopped => p.clearThen (.ret 0)
  | .readCounter => some { p with
      pc := some (if p.ctx.tolerance < p.ctx.counter then .clearLate else .ret p.ctx.intervalSec) }
  | .clearLate => p.clearThen .revive
  | .revive =>
      let (ctx, status) := reviveProcess env.fork p.ctx
      some { p with ctx := ctx, pc := some (if status ≠ 0 then .ret 0 else .addHeartbeat) }
  | .addHeartbeat => p.addThen env.add .TaskSendHeartbeat .addCheck
  | .addCheck => p.addThen env.add .TaskCheckCounter (.ret p.ctx.intervalSec)
  | .ret result => (p.sched.step (.finish result)).map fun s => { p with sched := s, pc := none }

/-! ## The steps of a process -/

/-- The steps of `SchedRun` outside of operations, the destruction after it, and the clock. -/
inductive LoopAction where
  | next
  | sleep (slept unslept : Nat)
  | tick (seconds : Nat)
  | destroy

/-- As a step of the scheduler. -/
def LoopAction.toSched : LoopAction → SchedAction WdPtr
  | .next => .next
  | .sleep slept unslept => .sleep slept unslept
  | .tick seconds => .tick seconds
  | .destroy => .destroy

/-- What happens in a process. -/
inductive WdAction where
  | loop (a : LoopAction)
  | execute
  | statement (env : WdEnv)
  | sigUsr1
  | sigUsr2
  | answer
  | requestStop

/-- The task that `SchedRun` executes. -/
def executingTask (s : SchedState WdPtr) : Option (Sched.Task WdPtr) :=
  match s.phase with
  | .executing _ task => some task
  | _ => none

/-- A step.  A handler that is about to answer keeps its thread. -/
def WdProcess.step (p : WdProcess) : WdAction → Option WdProcess
  | .loop a =>
      if p.answering then none
      else (p.sched.step a.toSched).map fun s => { p with sched := s }
  | .execute =>
      if p.answering then none
      else do
        let s ← p.sched.step .execute
        let task ← executingTask s
        some { p with sched := s, pc := entry task.opFunc }
  | .statement env =>
      if p.answering then none
      else p.pc.bind (p.statement env)
  | .sigUsr1 => some (sigUsr1Handler p)
  | .sigUsr2 => if p.answering then none else some (sigUsr2Handler p)
  | .answer => if p.answering then some { p with answering := false } else none
  | .requestStop => if p.ctx.isWd then none else some (wdTasksRequestStop p)

/-- The signal that a step sends to the peer. -/
def WdProcess.sends (p : WdProcess) : WdAction → Option Signal
  | .statement _ =>
      match p.pc with
      | some (.sendSignal signalToSend) => some signalToSend
      | some .revive => if 0 < p.ctx.peerPid then some .SIGKILL else none
      | _ => none
  | .answer => some .SIGUSR2
  | _ => none

/-- `SchedCreate`, `WDTasksInit` and the start of `SchedRun`. -/
def wdStart (env₁ env₂ : TaskEnv) (counter : Nat) (clock : Int) (isWd : Bool) (peerPid : Int)
    (intervalSec tolerance : Nat) : Option WdProcess := do
  let p ← wdTasksInit env₁ env₂ ⟨schedCreate, counter, clock, .idle, []⟩ isWd peerPid intervalSec
    tolerance
  let s ← p.sched.step .run
  some { p with sched := s }

/-- The runs of one process, with any signals and any requests to stop. -/
def processMachine : Machine WdProcess WdAction where
  start p := ∃ env₁ env₂ counter clock isWd peerPid intervalSec tolerance,
    wdStart env₁ env₂ counter clock isWd peerPid intervalSec tolerance = some p
  step p a := p.step a

/-! ## The start -/

/-- A process starts with both of its tasks, and before any signal. -/
theorem wdStart_some {env₁ env₂ : TaskEnv} {counter : Nat} {clock : Int} {isWd : Bool}
    {peerPid : Int} {intervalSec tolerance : Nat} {p : WdProcess}
    (h : wdStart env₁ env₂ counter clock isWd peerPid intervalSec tolerance = some p) :
    ∃ s₁ uid₁ s₂ uid₂ s,
      addTask env₁ ⟨schedCreate, counter, clock, .idle, []⟩ .TaskSendHeartbeat 0 =
          some (s₁, uid₁) ∧ uidIsSame UIDbadUID uid₁ = 0 ∧
        addTask env₂ s₁ .TaskCheckCounter 1 = some (s₂, uid₂) ∧ uidIsSame UIDbadUID uid₂ = 0 ∧
          s₂.step .run = some s ∧
            p = ⟨s, ⟨peerPid, intervalSec, tolerance, 0, 0, isWd⟩, none, false⟩ := by
  obtain ⟨q, hinit, h⟩ := Option.bind_eq_some_iff.mp h
  obtain ⟨s, hrun, h⟩ := Option.bind_eq_some_iff.mp h
  obtain rfl := Option.some.inj h
  unfold wdTasksInit at hinit
  obtain ⟨⟨s₁, uid₁⟩, hbeat, hinit⟩ := Option.bind_eq_some_iff.mp hinit
  dsimp only at hinit
  split at hinit
  · cases hinit
  · rename_i huid₁
    obtain ⟨⟨s₂, uid₂⟩, hcheck, hinit⟩ := Option.bind_eq_some_iff.mp hinit
    dsimp only at hinit
    split at hinit
    · cases hinit
    · rename_i huid₂
      obtain rfl := Option.some.inj hinit
      exact ⟨s₁, uid₁, s₂, uid₂, s, hbeat, not_not.mp huid₁, hcheck, not_not.mp huid₂, hrun, rfl⟩

/-! ## The statements and the context -/

/-- `SchedClear` in a task changes the scheduler and the statement. -/
theorem WdProcess.clearThen_some {p p' : WdProcess} {next : TaskPc}
    (h : p.clearThen next = some p') :
    ∃ s, p.sched.step .clear = some s ∧ p' = { p with sched := s, pc := some next } := by
  obtain ⟨s, hstep, rfl⟩ := Option.map_eq_some_iff.mp h
  exact ⟨s, hstep, rfl⟩

/-- `SchedAdd` in a task changes the scheduler and the statement. -/
theorem WdProcess.addThen_some {p p' : WdProcess} {env : TaskEnv} {opFunc : WdPtr}
    {next : TaskPc} (h : p.addThen env opFunc next = some p') :
    ∃ s uid pc, addTask env p.sched opFunc 0 = some (s, uid) ∧
      p' = { p with sched := s, pc := some pc } ∧
        (uidIsSame UIDbadUID uid = 0 ∧ pc = next ∨
          uidIsSame UIDbadUID uid ≠ 0 ∧ pc = .ret (-1)) := by
  obtain ⟨⟨s, uid⟩, hadd, rfl⟩ := Option.map_eq_some_iff.mp h
  refine ⟨s, uid, _, hadd, rfl, ?_⟩
  by_cases hbad : uidIsSame UIDbadUID uid = 0
  · exact Or.inl ⟨hbad, by simp [hbad]⟩
  · exact Or.inr ⟨hbad, by simp [hbad]⟩

/-- The watchdog cannot revive its client and go on. -/
theorem reviveProcess_isWd (fork : Option Int) {ctx : WdCtx} (hwd : ctx.isWd = true) :
    reviveProcess fork ctx = (ctx, -1) := by
  unfold reviveProcess
  rw [if_pos hwd]

/-- `ReviveProcess` changes the peer and the counter only. -/
theorem reviveProcess_frame (fork : Option Int) (ctx : WdCtx) :
    ∃ peerPid counter,
      (reviveProcess fork ctx).1 = { ctx with peerPid := peerPid, counter := counter } := by
  unfold reviveProcess
  split
  · exact ⟨ctx.peerPid, ctx.counter, rfl⟩
  · split
    · exact ⟨ctx.peerPid, ctx.counter, rfl⟩
    · next newPid => exact ⟨newPid, 0, rfl⟩

/-- A statement changes the scheduler, what comes next and the counter, and the peer in a
revival. -/
theorem WdProcess.statement_frame {p p' : WdProcess} {env : WdEnv} {pc : TaskPc}
    (h : p.statement env pc = some p') :
    ∃ sched peerPid counter next,
      p' = ⟨sched, { p.ctx with peerPid := peerPid, counter := counter }, next, p.answering⟩ ∧
        (pc ≠ .revive → peerPid = p.ctx.peerPid) := by
  cases pc with
  | clearStopped | clearLate =>
      obtain ⟨s, -, rfl⟩ := clearThen_some h
      exact ⟨s, p.ctx.peerPid, p.ctx.counter, _, rfl, fun _ => rfl⟩
  | addHeartbeat | addCheck =>
      obtain ⟨s, uid, pc, -, rfl, -⟩ := addThen_some h
      exact ⟨s, p.ctx.peerPid, p.ctx.counter, _, rfl, fun _ => rfl⟩
  | revive =>
      obtain ⟨peerPid, counter, hctx⟩ := reviveProcess_frame env.fork p.ctx
      simp only [WdProcess.statement, hctx, Option.some.injEq] at h
      exact ⟨p.sched, peerPid, counter, _, h.symm, fun hne => absurd rfl hne⟩
  | ret result =>
      obtain ⟨s, -, rfl⟩ := Option.map_eq_some_iff.mp h
      exact ⟨s, p.ctx.peerPid, p.ctx.counter, _, rfl, fun _ => rfl⟩
  | _ =>
      obtain rfl := Option.some.inj h
      exact ⟨p.sched, p.ctx.peerPid, _, _, rfl, fun _ => rfl⟩

/-- What a step of a process does. -/
inductive WdProcess.Effect (p : WdProcess) : WdAction → WdProcess → Prop
  | loop {a : LoopAction} (s : SchedState WdPtr) (hfree : p.answering = false)
      (hstep : p.sched.step a.toSched = some s) : Effect p (.loop a) { p with sched := s }
  | execute (s : SchedState WdPtr) (task : Sched.Task WdPtr) (hfree : p.answering = false)
      (hstep : p.sched.step .execute = some s) (htask : executingTask s = some task) :
      Effect p .execute { p with sched := s, pc := entry task.opFunc }
  | statement {env : WdEnv} {p' : WdProcess} (pc : TaskPc) (hfree : p.answering = false)
      (hpc : p.pc = some pc) (hstep : p.statement env pc = some p') : Effect p (.statement env) p'
  | sigUsr1 : Effect p .sigUsr1 (sigUsr1Handler p)
  | sigUsr2 (hfree : p.answering = false) : Effect p .sigUsr2 (sigUsr2Handler p)
  | answer (hanswering : p.answering = true) : Effect p .answer { p with answering := false }
  | requestStop (hclient : p.ctx.isWd = false) : Effect p .requestStop (wdTasksRequestStop p)

/-- **What a step of a process can do.** -/
theorem WdProcess.step_effect {p p' : WdProcess} {a : WdAction} (h : p.step a = some p') :
    p.Effect a p' := by
  cases a with
  | loop a =>
      rw [WdProcess.step] at h
      split at h
      · cases h
      · rename_i hfree
        obtain ⟨s, hstep, rfl⟩ := Option.map_eq_some_iff.mp h
        exact .loop s (Bool.not_eq_true _ ▸ hfree) hstep
  | execute =>
      rw [WdProcess.step] at h
      split at h
      · cases h
      · rename_i hfree
        obtain ⟨s, hstep, h⟩ := Option.bind_eq_some_iff.mp h
        obtain ⟨task, htask, h⟩ := Option.bind_eq_some_iff.mp h
        obtain rfl := Option.some.inj h
        exact .execute s task (Bool.not_eq_true _ ▸ hfree) hstep htask
  | statement env =>
      rw [WdProcess.step] at h
      split at h
      · cases h
      · rename_i hfree
        obtain ⟨pc, hpc, hstep⟩ := Option.bind_eq_some_iff.mp h
        exact .statement pc (Bool.not_eq_true _ ▸ hfree) hpc hstep
  | sigUsr1 =>
      obtain rfl := Option.some.inj h
      exact .sigUsr1
  | sigUsr2 =>
      rw [WdProcess.step] at h
      split at h
      · cases h
      · rename_i hfree
        obtain rfl := Option.some.inj h
        exact .sigUsr2 (Bool.not_eq_true _ ▸ hfree)
  | answer =>
      rw [WdProcess.step] at h
      split at h
      · rename_i hanswering
        obtain rfl := Option.some.inj h
        exact .answer hanswering
      · cases h
  | requestStop =>
      rw [WdProcess.step] at h
      split at h
      · cases h
      · rename_i hclient
        obtain rfl := Option.some.inj h
        exact .requestStop (Bool.not_eq_true _ ▸ hclient)

/-- A step leaves the side of the process. -/
theorem WdProcess.step_isWd {p p' : WdProcess} {a : WdAction} (h : p.step a = some p') :
    p'.ctx.isWd = p.ctx.isWd := by
  cases step_effect h with
  | statement pc hfree hpc hstep =>
      obtain ⟨sched, peerPid, counter, next, rfl, -⟩ := statement_frame hstep
      rfl
  | _ => rfl

/-- In the watchdog no statement leads to the calls of `SchedAdd`. -/
theorem not_readding {p p' : WdProcess} {a : WdAction} (hwd : p.ctx.isWd = true)
    (h : p.pc ≠ some .addHeartbeat ∧ p.pc ≠ some .addCheck) (hstep : p.step a = some p') :
    p'.pc ≠ some .addHeartbeat ∧ p'.pc ≠ some .addCheck := by
  cases WdProcess.step_effect hstep with
  | loop s hfree hloop => exact h
  | execute s task hfree hexecute htask => cases htask : task.opFunc <;> simp [entry]
  | sigUsr1 => exact h
  | sigUsr2 hfree => exact h
  | answer hanswering => exact h
  | requestStop hclient => exact h
  | statement pc hfree hpc hstatement =>
      cases pc with
      | addHeartbeat => exact absurd hpc h.1
      | addCheck => exact absurd hpc h.2
      | revive =>
          simp only [WdProcess.statement, reviveProcess_isWd _ hwd, Option.some.injEq] at hstatement
          subst hstatement
          simp
      | clearStopped =>
          obtain ⟨s, -, rfl⟩ := WdProcess.clearThen_some hstatement
          simp
      | clearLate =>
          obtain ⟨s, -, rfl⟩ := WdProcess.clearThen_some hstatement
          simp
      | ret result =>
          obtain ⟨s, -, rfl⟩ := Option.map_eq_some_iff.mp hstatement
          simp
      | sendSignal signalToSend =>
          obtain rfl := Option.some.inj hstatement
          simp
      | _ =>
          simp only [WdProcess.statement, Option.some.injEq] at hstatement
          subst hstatement
          constructor <;> simp <;> split <;> simp

end Wd
end InfinityLabs
