import InfinityLabs.Wd.Process

/-!
# The client and its watchdog

`utils/src/wd_client.c` and `utils/src/wd.c` after `WDStart`: the main thread of the client,
its scheduler thread, the watchdog, and the signals that are pending between them.  A signal
that is pending already is not queued again.

The watchdog can die before `WDStop` is called, and be revived.  From the call on the two
processes are left to themselves.
-/

namespace InfinityLabs
namespace Wd

open Lib Ds Sched

/-! ## The data -/

/-- Where the main thread of the client is, in and after `WDStop`. -/
inductive MainPc where
  | running
  | begun
  | signalled
  | requested
  | joined
  | exited
  deriving DecidableEq, Repr

/-- The two processes.  `wdPid` is the process of `wd`, and `gWdPid` is `g_wd_pid`.  `revived`
is set when `ReviveProcess` is executed after the call of `WDStop`. -/
structure WdSystem where
  client : WdProcess
  wd : WdProcess
  clientAlive : Bool
  wdAlive : Bool
  wdPid : Int
  gWdPid : Int
  main : MainPc
  clientUsr1 : Bool
  clientUsr2 : Bool
  wdUsr1 : Bool
  wdUsr2 : Bool
  revived : Bool

/-- `WDStop` has been called. -/
def WdSystem.begun (s : WdSystem) : Bool := decide (s.main ≠ .running)

/-! ## Signals -/

/-- `kill` of the process `pid` by the client. -/
def WdSystem.killWd (s : WdSystem) (pid : Int) (signal : Signal) : WdSystem :=
  if s.wdAlive ∧ pid = s.wdPid then
    match signal with
    | .SIGUSR1 => { s with wdUsr1 := true }
    | .SIGUSR2 => { s with wdUsr2 := true }
    | .SIGKILL => { s with wdAlive := false }
  else s

/-- `kill` of the client by the watchdog. -/
def WdSystem.killClient (s : WdSystem) (signal : Signal) : WdSystem :=
  if s.clientAlive then
    match signal with
    | .SIGUSR1 => { s with clientUsr1 := true }
    | .SIGUSR2 => { s with clientUsr2 := true }
    | .SIGKILL => { s with clientAlive := false }
  else s

/-! ## The machine -/

/-- The statement that comes next is the call of `ReviveProcess`. -/
def WdProcess.revives (p : WdProcess) : WdAction → Bool
  | .statement _ => decide (p.pc = some .revive)
  | _ => false

/-- What the two processes, their threads and the system do. -/
inductive SysAction where
  /-- A step of the scheduler thread of the client, or a handler. -/
  | client (a : WdAction)
  /-- `ReviveProcess` in the client, where `fork` succeeds and the new watchdog is ready. -/
  | clientRevives (newPid : Int) (env₁ env₂ : TaskEnv) (clock : Int)
  | wd (a : WdAction)
  /-- `ReviveProcess` in the watchdog, where `execvp` succeeds. -/
  | wdRevives
  | wdDies
  | wdExits
  /-- The call of `WDStop`. -/
  | begin
  | signal
  | request
  | join
  | exit

/-- A handler runs for a pending signal, the main thread sets the flag of a stop, and a
revival that succeeds is a step of its own. -/
def WdSystem.clientMay (s : WdSystem) : WdAction → Bool
  | .sigUsr1 => s.clientUsr1
  | .sigUsr2 => s.clientUsr2
  | .requestStop => false
  | .statement env => env.fork.isNone
  | _ => true

/-- A handler runs for a pending signal. -/
def WdSystem.wdMay (s : WdSystem) : WdAction → Bool
  | .sigUsr1 => s.wdUsr1
  | .sigUsr2 => s.wdUsr2
  | _ => true

/-- The pending signals of the client without the one that is handled. -/
def WdSystem.handledByClient (s : WdSystem) : WdAction → WdSystem
  | .sigUsr1 => { s with clientUsr1 := false }
  | .sigUsr2 => { s with clientUsr2 := false }
  | _ => s

/-- The pending signals of the watchdog without the one that is handled. -/
def WdSystem.handledByWd (s : WdSystem) : WdAction → WdSystem
  | .sigUsr1 => { s with wdUsr1 := false }
  | .sigUsr2 => { s with wdUsr2 := false }
  | _ => s

/-- The signal that a step of the client sends. -/
def WdSystem.sentByClient (s : WdSystem) (p : WdProcess) (a : WdAction) : WdSystem :=
  match p.sends a with
  | none => s
  | some signal => s.killWd p.ctx.peerPid signal

/-- The signal that a step of the watchdog sends. -/
def WdSystem.sentByWd (s : WdSystem) (p : WdProcess) (a : WdAction) : WdSystem :=
  match p.sends a with
  | none => s
  | some signal => s.killClient signal

/-- The thread of a process has left `SchedRun` and destroyed the scheduler. -/
def WdProcess.ended (p : WdProcess) : Bool :=
  match p.sched.phase with
  | .destroyed => true
  | _ => false

/-- A step. -/
def WdSystem.step (s : WdSystem) : SysAction → Option WdSystem
  | .client a =>
      if s.clientAlive ∧ s.clientMay a then
        (s.client.step a).map fun client =>
          ({ s with client := client, revived := s.revived || (s.begun && s.client.revives a) }
            |>.handledByClient a).sentByClient s.client a
      else none
  | .clientRevives newPid env₁ env₂ clock =>
      if s.clientAlive ∧ s.client.pc = some .revive ∧ 0 < newPid then do
        let client ← s.client.step (.statement ⟨env₁, some newPid⟩)
        let wd ← wdStart env₁ env₂ 0 clock true s.wd.ctx.peerPid s.client.ctx.intervalSec
          s.client.ctx.tolerance
        some { s with
          client := client
          wd := wd
          wdAlive := true
          wdPid := newPid
          wdUsr1 := false
          wdUsr2 := false
          revived := s.revived || s.begun }
      else none
  | .wd a =>
      if s.wdAlive ∧ s.wdMay a then
        (s.wd.step a).map fun wd =>
          ({ s with wd := wd, revived := s.revived || (s.begun && s.wd.revives a) }
            |>.handledByWd a).sentByWd s.wd a
      else none
  | .wdRevives =>
      if s.wdAlive ∧ s.wd.pc = some .revive ∧ s.wd.answering = false then
        some { s with
          clientAlive := false
          wdAlive := false
          revived := s.revived || s.begun }
      else none
  | .wdDies =>
      if s.begun then none else some { s with wdAlive := false }
  | .wdExits =>
      if s.wdAlive ∧ s.wd.ended ∧ s.wd.answering = false then some { s with wdAlive := false }
      else none
  | .begin =>
      if s.clientAlive ∧ s.wdAlive ∧ s.main = .running then some { s with main := .begun }
      else none
  | .signal =>
      if s.clientAlive ∧ s.main = .begun then
        if 0 < s.gWdPid then some ({ s with main := .signalled }.killWd s.gWdPid .SIGUSR2)
        else some { s with main := .signalled }
      else none
  | .request =>
      if s.clientAlive ∧ s.main = .signalled then
        (s.client.step .requestStop).map fun client =>
          { s with client := client, main := .requested }
      else none
  | .join =>
      if s.clientAlive ∧ s.main = .requested ∧ s.client.ended then
        some { s with main := .joined }
      else none
  | .exit =>
      if s.clientAlive ∧ s.main = .joined then
        some { s with main := .exited, clientAlive := false }
      else none

/-- `WDStart` has returned: both schedulers run, and no signal is pending.  The watchdog has
read the interval and the tolerance with `atoi`. -/
def Started (s : WdSystem) : Prop :=
  ∃ env₁ env₂ env₃ env₄ counter clock wdClock clientPid wdPid intervalSec tolerance client wd,
    0 < clientPid ∧ 0 < wdPid ∧ 0 < intervalSec ∧ intervalSec < 2 ^ 31 ∧ 0 < tolerance ∧
      tolerance < 2 ^ 31 ∧
        wdStart env₁ env₂ counter clock false wdPid intervalSec tolerance = some client ∧
          wdStart env₃ env₄ 0 wdClock true clientPid intervalSec tolerance = some wd ∧
            s = ⟨client, wd, true, true, wdPid, wdPid, .running, false, false, false, false, false⟩

/-- The runs of the two processes. -/
def systemMachine : Machine WdSystem SysAction where
  start := Started
  step s a := s.step a

end Wd
end InfinityLabs
