import InfinityLabs.Wd.System

/-!
# What a process keeps

Facts about one process that hold whatever its peer does: its flag changes only in the
handler and in `WDTasksRequestStop`, and its `SchedRun` goes on until a task has found the
flag at 2.
-/

namespace InfinityLabs
namespace Wd

open Lib Ds Sched

/-! ## The flag -/

/-- What a step makes of the flag. -/
def WdAction.flag (flag : Nat) : WdAction → Nat
  | .sigUsr2 => 2
  | .requestStop => 1
  | _ => flag

/-- The flag after a step. -/
theorem stopFlag_step {p p' : WdProcess} {a : WdAction} (h : p.step a = some p') :
    p'.ctx.stopFlag = a.flag p.ctx.stopFlag := by
  cases WdProcess.step_effect h with
  | statement pc hfree hpc hstep =>
      obtain ⟨sched, peerPid, counter, next, rfl, -⟩ := WdProcess.statement_frame hstep
      rfl
  | _ => rfl

/-- The handler and the request aside, a step keeps the flag. -/
theorem stopFlag_eq {p p' : WdProcess} {a : WdAction} (h : p.step a = some p')
    (husr2 : a ≠ .sigUsr2) (hrequest : a ≠ .requestStop) : p'.ctx.stopFlag = p.ctx.stopFlag := by
  rw [stopFlag_step h]
  cases a with
  | sigUsr2 => exact absurd rfl husr2
  | requestStop => exact absurd rfl hrequest
  | _ => rfl

/-- What a step makes of the answer of the handler. -/
def WdProcess.answeringAfter (p : WdProcess) : WdAction → Bool
  | .sigUsr2 => p.ctx.isWd && decide (0 < p.ctx.peerPid)
  | .answer => false
  | _ => p.answering

/-- Only the handler of the watchdog begins an answer, and only the answer ends it. -/
theorem answering_step {p p' : WdProcess} {a : WdAction} (h : p.step a = some p') :
    p'.answering = p.answeringAfter a := by
  cases WdProcess.step_effect h with
  | statement pc hfree hpc hstep =>
      obtain ⟨sched, peerPid, counter, next, rfl, -⟩ := WdProcess.statement_frame hstep
      rfl
  | _ => rfl

/-! ## What holds in every process -/

/-- A scheduler that nobody stops, an interval that runs a task again, and statements that the
flag and the task that is executed have led to. -/
structure Sound (p : WdProcess) : Prop where
  wf : p.sched.sch.Wf
  running : p.sched.sch.stopFlag = false
  interval : 0 < p.ctx.intervalSec
  cleared : p.pc = some .clearStopped → p.ctx.stopFlag = 2
  signals : ∀ signal, p.pc = some (.sendSignal signal) →
    signal = .SIGUSR1 ∨ signal = .SIGUSR2 ∧ p.ctx.stopFlag ≠ 0
  executing : p.pc ≠ none → ∃ hadFail task, p.sched.phase = .executing hadFail task
  readding : p.pc = some .addCheck → p.sched.sch.queue ≠ []

/-- No step of a process calls `SchedStop`. -/
theorem SchedAction.stopFlag_effect {s s' : SchedState WdPtr} {a : SchedAction WdPtr}
    (h : s.Effect a s') (ha : a ≠ .stop) (hrunning : s.sch.stopFlag = false) :
    s'.sch.stopFlag = false := by
  cases h with
  | add task sch counter hcallable hqueue hfunc htask hstop => exact hstop.trans hrunning
  | remove task sch hcallable hqueue hstop => exact hstop.trans hrunning
  | clear destroyed sch hcallable hqueue hempty hstop => exact hstop.trans hrunning
  | stop => exact absurd rfl ha
  | destroy destroyed sch hphase hqueue hempty hstop => exact hstop.trans hrunning
  | run => rfl
  | take hadFail task sch hphase hstop hpeek hqueue hfirst hkeep => exact hkeep.trans hrunning
  | rearm hadFail task sch hphase hresult hqueue hstop => exact hstop.trans hrunning
  | _ => exact hrunning

/-- Where a process goes on to another statement of its task. -/
theorem Sound.goto {p : WdProcess} (h : Sound p) {ctx : WdCtx} {pc : TaskPc}
    {s : SchedState WdPtr} (hpc : p.pc ≠ none) (hwf : s.sch.Wf) (hrunning : s.sch.stopFlag = false)
    (hphase : s.phase = p.sched.phase) (hinterval : 0 < ctx.intervalSec)
    (hcleared : pc ≠ .clearStopped) (hsignals : ∀ signal, pc ≠ .sendSignal signal)
    (hreadding : pc = .addCheck → s.sch.queue ≠ []) :
    Sound { p with sched := s, ctx := ctx, pc := some pc } :=
  ⟨hwf, hrunning, hinterval, fun hpc' => absurd (Option.some.inj hpc') hcleared,
    fun signal hpc' => absurd (Option.some.inj hpc') (hsignals signal),
    fun _ => hphase ▸ h.executing hpc, fun hpc' => hreadding (Option.some.inj hpc')⟩

/-- A process whose scheduler stays, with another statement. -/
theorem Sound.move {p : WdProcess} (h : Sound p) {ctx : WdCtx} {pc : TaskPc} (hpc : p.pc ≠ none)
    (hinterval : 0 < ctx.intervalSec) (hcleared : pc ≠ .clearStopped)
    (hsignals : ∀ signal, pc ≠ .sendSignal signal) (hreadding : pc ≠ .addCheck) :
    Sound { p with ctx := ctx, pc := some pc } :=
  h.goto hpc h.wf h.running rfl hinterval hcleared hsignals fun hpc' => absurd hpc' hreadding

/-- What `SchedAdd` does for a process. -/
theorem addTask_queue {env : TaskEnv} {s s' : SchedState WdPtr} {opFunc : WdPtr} {timeExe : Nat}
    {uid : Uid} (h : s.sch.Wf) (hadd : addTask env s opFunc timeExe = some (s', uid)) :
    s'.sch.Wf ∧ s'.phase = s.phase ∧ s'.sch.stopFlag = s.sch.stopFlag ∧
      s.phase.callable = true ∧
        (s.sch.queue ≠ [] ∨ (schedAdd env s.clock s.counter s.sch opFunc .ctx timeExe .NoCleanup
          .NULL).task ≠ none → s'.sch.queue ≠ []) := by
  obtain ⟨t, hstep, heq⟩ := Option.map_eq_some_iff.mp hadd
  obtain ⟨rfl, -⟩ := Prod.mk.inj heq
  obtain ⟨hwf, heffect⟩ := SchedState.step_effect h hstep
  cases heffect with
  | add task sch counter hcallable hqueue hfunc htask hstop =>
      refine ⟨hwf, rfl, hstop, hcallable, fun hcreated hnil => ?_⟩
      dsimp only at hnil
      rw [hnil] at hqueue
      obtain ⟨hnone, hempty⟩ := List.append_eq_nil_iff.mp hqueue.nil_eq.symm
      rcases hcreated with hne | hsome
      · exact hne hempty
      · cases task with
        | none => exact hsome htask.symm
        | some new => cases hnone

/-- Where `SchedAdd` does not return the bad identifier, it has created a task. -/
theorem task_ne_none_of_uid {env : TaskEnv} {s s' : SchedState WdPtr} {opFunc : WdPtr}
    {timeExe : Nat} {uid : Uid} (hadd : addTask env s opFunc timeExe = some (s', uid))
    (huid : uidIsSame UIDbadUID uid = 0) :
    (schedAdd env s.clock s.counter s.sch opFunc .ctx timeExe .NoCleanup .NULL).task ≠ none := by
  obtain ⟨t, -, heq⟩ := Option.map_eq_some_iff.mp hadd
  obtain ⟨-, rfl⟩ := Prod.mk.inj heq
  intro hnone
  unfold schedAdd at huid hnone
  split at hnone
  · have hsame : uidIsSame UIDbadUID UIDbadUID = 0 := by
      rename_i hcreate
      rw [hcreate] at huid
      exact huid
    exact absurd hsame (by decide)
  · cases hnone

/-- A statement keeps a process sound. -/
theorem Sound.statement {p p' : WdProcess} {env : WdEnv} {pc : TaskPc} (h : Sound p)
    (hpc : p.pc = some pc) (hstep : p.statement env pc = some p') : Sound p' := by
  have hsome : p.pc ≠ none := by simp [hpc]
  cases pc with
  | testStop | readCounter =>
      obtain rfl := Option.some.inj hstep
      refine h.move hsome h.interval ?_ ?_ ?_ <;> split <;> simp
  | chooseSignal =>
      simp only [WdProcess.statement, Option.some.injEq] at hstep
      subst hstep
      refine ⟨h.wf, h.running, h.interval, by simp, fun signal hpc' => ?_,
        fun _ => h.executing hsome, by simp⟩
      simp only [Option.some.injEq, TaskPc.sendSignal.injEq] at hpc'
      subst hpc'
      by_cases hzero : p.ctx.stopFlag = 0
      · exact Or.inl (if_pos hzero)
      · exact Or.inr ⟨if_neg hzero, hzero⟩
  | sendSignal signalToSend =>
      obtain rfl := Option.some.inj hstep
      exact h.move hsome h.interval (by simp) (by simp) (by simp)
  | countBeat =>
      obtain rfl := Option.some.inj hstep
      exact h.move hsome h.interval (by simp) (by simp) (by simp)
  | testStopped =>
      simp only [WdProcess.statement, Option.some.injEq] at hstep
      subst hstep
      by_cases hflag : p.ctx.stopFlag = 2
      · simp only [hflag, if_true]
        exact ⟨h.wf, h.running, h.interval, fun _ => hflag, by simp, fun _ => h.executing hsome,
          by simp⟩
      · simp only [hflag, if_false]
        exact h.move hsome h.interval (by simp) (by simp) (by simp)
  | clearStopped | clearLate =>
      obtain ⟨s, hclear, rfl⟩ := WdProcess.clearThen_some hstep
      obtain ⟨hwf, heffect⟩ := SchedState.step_effect h.wf hclear
      have hrunning := SchedAction.stopFlag_effect heffect (by simp) h.running
      cases heffect with
      | clear => exact h.goto hsome hwf hrunning rfl h.interval (by simp) (by simp) (by simp)
  | revive =>
      simp only [WdProcess.statement, Option.some.injEq] at hstep
      subst hstep
      refine h.move hsome ?_ ?_ ?_ ?_
      · obtain ⟨peerPid, counter, hctx⟩ := reviveProcess_frame env.fork p.ctx
        rw [hctx]
        exact h.interval
      · split <;> simp
      · split <;> simp
      · split <;> simp
  | addHeartbeat =>
      obtain ⟨s, uid, pc, hadd, rfl, hnext⟩ := WdProcess.addThen_some hstep
      obtain ⟨hwf, hphase, hstop, -, hqueue⟩ := addTask_queue h.wf hadd
      refine h.goto hsome hwf (hstop.trans h.running) hphase h.interval ?_ ?_ ?_
      · rcases hnext with ⟨-, rfl⟩ | ⟨-, rfl⟩ <;> simp
      · rcases hnext with ⟨-, rfl⟩ | ⟨-, rfl⟩ <;> simp
      · rcases hnext with ⟨huid, rfl⟩ | ⟨-, rfl⟩
        · exact fun _ => hqueue (Or.inr (task_ne_none_of_uid hadd huid))
        · simp
  | addCheck =>
      obtain ⟨s, uid, pc, hadd, rfl, hnext⟩ := WdProcess.addThen_some hstep
      obtain ⟨hwf, hphase, hstop, -, -⟩ := addTask_queue h.wf hadd
      refine h.goto hsome hwf (hstop.trans h.running) hphase h.interval ?_ ?_ ?_ <;>
        rcases hnext with ⟨-, rfl⟩ | ⟨-, rfl⟩ <;> simp
  | ret result =>
      obtain ⟨s, hfinish, rfl⟩ := Option.map_eq_some_iff.mp hstep
      obtain ⟨hwf, heffect⟩ := SchedState.step_effect h.wf hfinish
      exact ⟨hwf, SchedAction.stopFlag_effect heffect (by simp) h.running, h.interval, by simp,
        by simp, by simp, by simp⟩

/-- Outside of an operation the loop of `SchedRun` runs no statement. -/
theorem Sound.pc_eq_none {p : WdProcess} (h : Sound p)
    (hphase : ∀ hadFail task, p.sched.phase ≠ .executing hadFail task) : p.pc = none := by
  by_contra hsome
  obtain ⟨hadFail, task, hexec⟩ := h.executing hsome
  exact hphase hadFail task hexec

/-- A step of the loop keeps a process sound. -/
theorem Sound.loop {p : WdProcess} {a : LoopAction} {s : SchedState WdPtr} (h : Sound p)
    (hstep : p.sched.step a.toSched = some s) : Sound { p with sched := s } := by
  obtain ⟨hwf, heffect⟩ := SchedState.step_effect h.wf hstep
  have hnotStop : a.toSched ≠ .stop := by cases a <;> simp [LoopAction.toSched]
  have hrunning := SchedAction.stopFlag_effect heffect hnotStop h.running
  have hidle : p.pc = none → Sound { p with sched := s } := fun hpc =>
    ⟨hwf, hrunning, h.interval, h.cleared, h.signals, fun hsome => absurd hpc hsome, by simp [hpc]⟩
  cases a with
  | next =>
      apply hidle
      cases heffect with
      | take hadFail task sch hphase => exact h.pc_eq_none (by simp [hphase])
      | leave hadFail hphase => exact h.pc_eq_none (by simp [hphase])
  | sleep slept unslept =>
      apply hidle
      cases heffect with
      | sleep hadFail task toSleep hphase => exact h.pc_eq_none (by simp [hphase])
  | destroy =>
      apply hidle
      cases heffect with
      | destroy destroyed sch hphase => exact h.pc_eq_none (by simp [hphase])
  | tick seconds =>
      cases heffect with
      | tick => exact ⟨hwf, hrunning, h.interval, h.cleared, h.signals, h.executing, h.readding⟩

/-- A step keeps a process sound, unless a request takes back a stop. -/
theorem Sound.step {p p' : WdProcess} {a : WdAction} (h : Sound p) (hstep : p.step a = some p')
    (hrequest : a = .requestStop → p.ctx.stopFlag ≠ 2) : Sound p' := by
  cases WdProcess.step_effect hstep with
  | loop s hfree hloop => exact h.loop hloop
  | execute s task hfree hexecute htask =>
      obtain ⟨hwf, heffect⟩ := SchedState.step_effect h.wf hexecute
      have hrunning := SchedAction.stopFlag_effect heffect (by simp) h.running
      cases heffect with
      | execute hadFail held hphase =>
          refine ⟨hwf, hrunning, h.interval, ?_, ?_, fun _ => ⟨hadFail, held, rfl⟩, ?_⟩ <;>
            cases htask : task.opFunc <;> simp [entry]
  | statement pc hfree hpc hstatement => exact h.statement hpc hstatement
  | sigUsr1 =>
      exact ⟨h.wf, h.running, h.interval, h.cleared, h.signals, h.executing, h.readding⟩
  | sigUsr2 hfree =>
      refine ⟨h.wf, h.running, h.interval, fun _ => rfl, fun signal hpc => ?_, h.executing,
        h.readding⟩
      exact (h.signals signal hpc).imp_right fun hsignal => ⟨hsignal.1, by simp [sigUsr2Handler]⟩
  | answer hanswering =>
      exact ⟨h.wf, h.running, h.interval, h.cleared, h.signals, h.executing, h.readding⟩
  | requestStop hclient =>
      refine ⟨h.wf, h.running, h.interval, fun hpc => ?_, fun signal hpc => ?_, h.executing,
        h.readding⟩
      · exact absurd (h.cleared hpc) (hrequest rfl)
      · exact (h.signals signal hpc).imp_right fun hsignal =>
          ⟨hsignal.1, by simp [wdTasksRequestStop]⟩

/-! ## The loop goes on -/

/-- `SchedRun` does not return before another task has run: a task is queued, or the one that
is executed does not end for good. -/
def Lasting (p : WdProcess) : Prop :=
  match p.sched.phase with
  | .looping _ => p.sched.sch.queue ≠ []
  | .waiting _ _ _ => True
  | .executing _ _ => p.sched.sch.queue ≠ [] ∨ ∀ result, p.pc = some (.ret result) → 0 < result
  | _ => False

/-- A scheduler that lasts has not ended. -/
theorem Lasting.not_ended {p : WdProcess} (h : Lasting p) : p.ended = false := by
  unfold Lasting at h
  unfold WdProcess.ended
  split at h <;> simp_all

/-- A statement that leaves the scheduler and does not end its task. -/
theorem Lasting.goto {p p' : WdProcess} (h : Lasting p) (hsched : p'.sched = p.sched)
    (hret : ∀ result, p'.pc = some (.ret result) → 0 < result) : Lasting p' := by
  unfold Lasting at h ⊢
  rw [hsched]
  split
  · simp_all
  · trivial
  · exact Or.inr hret
  · simp_all

/-- Nothing changes where the scheduler and the statement stay. -/
theorem Lasting.same {p p' : WdProcess} (h : Lasting p) (hsched : p'.sched = p.sched)
    (hpc : p'.pc = p.pc) : Lasting p' := by
  unfold Lasting at h ⊢
  rw [hsched, hpc]
  exact h

/-- The heartbeat task of a revival, if one is added in this step, has memory. -/
def HeartbeatAdded (p : WdProcess) : WdAction → Prop
  | .statement env => p.pc = some .addHeartbeat →
      (schedAdd env.add p.sched.clock p.sched.counter p.sched.sch .TaskSendHeartbeat .ctx 0
        .NoCleanup .NULL).task ≠ none
  | _ => True

instance (p : WdProcess) : (a : WdAction) → Decidable (HeartbeatAdded p a)
  | .statement env => inferInstanceAs (Decidable (p.pc = some .addHeartbeat →
      (schedAdd env.add p.sched.clock p.sched.counter p.sched.sch .TaskSendHeartbeat .ctx 0
        .NoCleanup .NULL).task ≠ none))
  | .loop _ | .execute | .sigUsr1 | .sigUsr2 | .answer | .requestStop => instDecidableTrue

/-- In an operation a queued task lets the loop go on. -/
theorem Lasting.of_queue {p p' : WdProcess} (h : Lasting p)
    (hcallable : p.sched.phase.callable = true) (hphase : p'.sched.phase = p.sched.phase)
    (hqueue : p'.sched.sch.queue ≠ []) : Lasting p' := by
  unfold Lasting at h ⊢
  rw [hphase]
  cases hp : p.sched.phase with
  | executing hadFail task => exact Or.inl hqueue
  | idle =>
      rw [hp] at h
      exact h.elim
  | _ =>
      rw [hp] at hcallable
      cases hcallable

/-- A statement lets the loop go on, unless it finds the flag at 2, or a revival fails. -/
theorem Lasting.statement {p p' : WdProcess} {env : WdEnv} {pc : TaskPc} (h : Lasting p)
    (hsound : Sound p) (hflag : p.ctx.stopFlag ≠ 2) (hpc : p.pc = some pc)
    (hrevive : pc = .revive → (reviveProcess env.fork p.ctx).2 = 0)
    (hadded : HeartbeatAdded p (.statement env))
    (hstep : p.statement env pc = some p') : Lasting p' := by
  have hinterval : (0 : Int) < p.ctx.intervalSec := by
    have hpos := hsound.interval
    omega
  cases pc with
  | testStop | testStopped =>
      simp only [WdProcess.statement, if_neg hflag, Option.some.injEq] at hstep
      subst hstep
      exact h.goto rfl (by simp)
  | chooseSignal | sendSignal =>
      obtain rfl := Option.some.inj hstep
      exact h.goto rfl (by simp)
  | countBeat =>
      obtain rfl := Option.some.inj hstep
      exact h.goto rfl (by simpa using hsound.interval)
  | clearStopped => exact absurd (hsound.cleared hpc) hflag
  | readCounter =>
      obtain rfl := Option.some.inj hstep
      refine h.goto rfl fun result hret => ?_
      have hret := Option.some.inj hret
      split at hret
      · cases hret
      · cases hret
        exact hinterval
  | clearLate =>
      obtain ⟨s, hclear, rfl⟩ := WdProcess.clearThen_some hstep
      obtain ⟨-, heffect⟩ := SchedState.step_effect hsound.wf hclear
      cases heffect with
      | clear destroyed sch hcallable hqueue hempty hstop =>
          unfold Lasting at h ⊢
          cases hphase : p.sched.phase with
          | executing hadFail task => exact Or.inr (by simp)
          | idle =>
              rw [hphase] at h
              exact h.elim
          | _ =>
              rw [hphase] at hcallable
              cases hcallable
  | revive =>
      simp only [WdProcess.statement, hrevive rfl, Option.some.injEq] at hstep
      subst hstep
      exact h.goto rfl (by simp)
  | addHeartbeat =>
      obtain ⟨s, uid, pc, hadd, rfl, -⟩ := WdProcess.addThen_some hstep
      obtain ⟨-, hphase, -, hcallable, hqueue⟩ := addTask_queue hsound.wf hadd
      exact h.of_queue hcallable hphase (hqueue (Or.inr (hadded hpc)))
  | addCheck =>
      obtain ⟨s, uid, pc, hadd, rfl, -⟩ := WdProcess.addThen_some hstep
      obtain ⟨-, hphase, -, hcallable, hqueue⟩ := addTask_queue hsound.wf hadd
      exact h.of_queue hcallable hphase (hqueue (Or.inl (hsound.readding hpc)))
  | ret result =>
      obtain ⟨s, hfinish, rfl⟩ := Option.map_eq_some_iff.mp hstep
      obtain ⟨-, heffect⟩ := SchedState.step_effect hsound.wf hfinish
      unfold Lasting at h
      cases heffect with
      | fail hadFail task hphase hresult =>
          rw [hphase] at h
          rcases h with hne | hpos
          · exact hne
          · have := hpos result hpc
            omega
      | cease hadFail task hphase hresult =>
          rw [hphase] at h
          rcases h with hne | hpos
          · exact hne
          · have := hpos result hpc
            omega
      | rearm hadFail task sch hphase hresult hqueue hstop =>
          intro hnil
          dsimp only at hnil
          rw [hnil] at hqueue
          cases hqueue.nil_eq

/-- A step lets the loop go on, unless it finds the flag at 2, or a revival fails. -/
theorem Lasting.step {p p' : WdProcess} {a : WdAction} (h : p.ctx.stopFlag = 2 ∨ Lasting p)
    (hsound : Sound p) (hrequest : a = .requestStop → p.ctx.stopFlag ≠ 2)
    (hrevive : ∀ env, a = .statement env → p.pc = some .revive →
      (reviveProcess env.fork p.ctx).2 = 0)
    (hadded : HeartbeatAdded p a) (hstep : p.step a = some p') :
    p'.ctx.stopFlag = 2 ∨ Lasting p' := by
  by_cases hflag : p.ctx.stopFlag = 2
  · refine Or.inl ?_
    rw [stopFlag_step hstep]
    cases a with
    | requestStop => exact absurd hflag (hrequest rfl)
    | sigUsr2 => rfl
    | _ => exact hflag
  · have hlast := h.resolve_left hflag
    cases WdProcess.step_effect hstep with
    | @loop a s hfree hloop =>
        obtain ⟨-, heffect⟩ := SchedState.step_effect hsound.wf hloop
        refine Or.inr ?_
        unfold Lasting at hlast
        cases a with
        | next =>
            cases heffect with
            | take hadFail task sch hphase => trivial
            | leave hadFail hphase hend =>
                -- the queue has a task, and nobody has asked for a stop
                rw [hphase] at hlast
                rcases hend with hstop | hempty
                · rw [hsound.running] at hstop
                  cases hstop
                · exact absurd (queue_eq_nil hempty) hlast
        | sleep slept unslept =>
            cases heffect with
            | sleep hadFail task toSleep hphase => trivial
        | destroy =>
            cases heffect with
            | destroy destroyed sch hphase =>
                rw [hphase] at hlast
                exact hlast.elim
        | tick seconds =>
            cases heffect with
            | tick => exact hlast
    | execute s task hfree hexecute htask =>
        obtain ⟨-, heffect⟩ := SchedState.step_effect hsound.wf hexecute
        refine Or.inr ?_
        cases heffect with
        | execute hadFail held hphase =>
            refine Or.inr fun result hpc => ?_
            cases hfunc : task.opFunc <;> rw [hfunc] at hpc <;> cases hpc
    | statement pc hfree hpc hstatement =>
        exact Or.inr (hlast.statement hsound hflag hpc
          (fun hpc' => hrevive _ rfl (hpc' ▸ hpc)) hadded hstatement)
    | sigUsr2 hfree => exact Or.inl rfl
    | _ => exact Or.inr (hlast.same rfl rfl)

/-! ## Checks under way -/

/-- No check of the process is about to revive the peer. -/
structure Settled (p : WdProcess) : Prop where
  late : p.pc ≠ some .clearLate
  revive : p.pc ≠ some .revive
  read : p.pc = some .readCounter → p.ctx.counter ≤ p.ctx.tolerance

/-- A settled process does not call `ReviveProcess`. -/
theorem Settled.revives_eq_false {p : WdProcess} (h : Settled p) (a : WdAction) :
    p.revives a = false := by
  cases a with
  | statement env => simpa [WdProcess.revives] using h.revive
  | _ => rfl

/-- A statement settles where it goes on to something else than a late check. -/
theorem Settled.of_pc {p : WdProcess} {pc : TaskPc} (hpc : p.pc = some pc)
    (hlate : pc ≠ .clearLate) (hrevive : pc ≠ .revive) (hread : pc ≠ .readCounter) : Settled p :=
  ⟨fun h => hlate (Option.some.inj (hpc.symm.trans h)),
    fun h => hrevive (Option.some.inj (hpc.symm.trans h)),
    fun h => absurd (Option.some.inj (hpc.symm.trans h)) hread⟩

/-- A step keeps a process settled, if its checks find the flag at 2 or no late peer. -/
theorem Settled.step {p p' : WdProcess} {a : WdAction} (h : Settled p)
    (htest : ∀ env, a = .statement env → p.pc = some .testStopped →
      p.ctx.stopFlag = 2 ∨ p.ctx.counter ≤ p.ctx.tolerance)
    (hstep : p.step a = some p') : Settled p' := by
  cases WdProcess.step_effect hstep with
  | loop s hfree hloop => exact ⟨h.late, h.revive, h.read⟩
  | execute s task hfree hexecute htask =>
      refine ⟨?_, ?_, ?_⟩ <;> cases htask : task.opFunc <;> simp [entry]
  | sigUsr1 => exact ⟨h.late, h.revive, fun _ => Nat.zero_le _⟩
  | sigUsr2 hfree => exact ⟨h.late, h.revive, h.read⟩
  | answer hanswering => exact ⟨h.late, h.revive, h.read⟩
  | requestStop hclient => exact ⟨h.late, h.revive, h.read⟩
  | @statement env p' pc hfree hpc hstatement =>
      cases pc with
      | testStopped =>
          simp only [WdProcess.statement, Option.some.injEq] at hstatement
          subst hstatement
          by_cases hflag : p.ctx.stopFlag = 2
          · exact .of_pc (congrArg some (if_pos hflag)) (by simp) (by simp) (by simp)
          · have hcounter := (htest env rfl hpc).resolve_left hflag
            exact ⟨by simp [hflag], by simp [hflag], fun _ => hcounter⟩
      | readCounter =>
          have hcounter : ¬ p.ctx.tolerance < p.ctx.counter := Nat.not_lt.mpr (h.read hpc)
          simp only [WdProcess.statement, if_neg hcounter, Option.some.injEq] at hstatement
          subst hstatement
          exact .of_pc rfl (by simp) (by simp) (by simp)
      | clearLate => exact absurd hpc h.late
      | revive => exact absurd hpc h.revive
      | clearStopped =>
          obtain ⟨s, -, rfl⟩ := WdProcess.clearThen_some hstatement
          exact .of_pc rfl (by simp) (by simp) (by simp)
      | addHeartbeat | addCheck =>
          obtain ⟨s, uid, pc, -, rfl, hnext⟩ := WdProcess.addThen_some hstatement
          refine .of_pc rfl ?_ ?_ ?_ <;> rcases hnext with ⟨-, rfl⟩ | ⟨-, rfl⟩ <;> simp
      | ret result =>
          obtain ⟨s, -, rfl⟩ := Option.map_eq_some_iff.mp hstatement
          exact ⟨by simp, by simp, by simp⟩
      | testStop =>
          obtain rfl := Option.some.inj hstatement
          refine .of_pc rfl ?_ ?_ ?_ <;> split <;> simp
      | _ =>
          obtain rfl := Option.some.inj hstatement
          exact .of_pc rfl (by simp) (by simp) (by simp)

/-! ## The peer -/

/-- Only a revival that succeeds changes the peer. -/
theorem peerPid_step {p p' : WdProcess} {a : WdAction} (h : p.step a = some p')
    (hfork : ∀ env, a = .statement env → p.pc = some .revive →
      env.fork = none ∨ p.ctx.isWd = true) :
    p'.ctx.peerPid = p.ctx.peerPid := by
  cases WdProcess.step_effect h with
  | @statement env p' pc hfree hpc hstep =>
      by_cases hrevive : pc = .revive
      · subst hrevive
        simp only [WdProcess.statement, Option.some.injEq] at hstep
        subst hstep
        rcases hfork env rfl hpc with hnone | hwd
        · dsimp only
          unfold reviveProcess
          rw [hnone]
          split <;> rfl
        · dsimp only
          rw [reviveProcess_isWd _ hwd]
      · obtain ⟨sched, peerPid, counter, next, rfl, hpeer⟩ := WdProcess.statement_frame hstep
        exact hpeer hrevive
  | _ => rfl

end Wd
end InfinityLabs
