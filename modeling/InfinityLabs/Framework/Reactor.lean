import Mathlib.Data.List.AList
import InfinityLabs.Lib.Runs

/-!
# The reactor of the framework

`projects/final_project/framework/src/reactor.cpp`, used by one thread.  The listener and the
callbacks are not the reactor's own: they add and remove registrations, call `Stop` and `Run`,
return and throw as they like.  The calls of `Run` that are not finished are a stack, and what
the innermost one has called runs on top of it.

`m_is_running` is cleared by `Stop` alone.  A `Run` that ends because nothing is registered, or
by an exception, leaves it set.
-/

namespace InfinityLabs
namespace Framework

open Lib

/-! ## The state -/

/-- `Reactor::Mode`. -/
inductive Mode where
  | read
  | write
  deriving DecidableEq, Repr

/-- `Reactor::FdPair`. -/
abbrev FdPair := Int × Mode

/-- Where a `Run` that is not finished is: before the condition of its loop, in `Listen` with
the monitored descriptors, before the ready descriptors that are left, or in a callback with
those that are left behind it. -/
inductive RunFrame where
  | condition
  | listen (fds : List FdPair)
  | serve (rdyFds : List FdPair)
  | callback (fdPair : FdPair) (rdyFds : List FdPair)
  deriving DecidableEq, Repr

/-- What can be seen of a reactor: its calls, and the ends of `Run`. -/
inductive ReactorEvent (CallBack : Type) where
  | added (fdPair : FdPair) (callback : CallBack)
  | removed (fdPair : FdPair)
  | stopped
  /-- `Run` throws that it is already running. -/
  | runThrew
  | runStarted
  /-- `Run` returns, or an exception leaves it. -/
  | runEnded
  | invoked (fdPair : FdPair) (callback : CallBack)
  deriving DecidableEq, Repr

/-- A reactor: `m_callbacks`, whose order nothing depends on, `m_is_running`, the calls of `Run`
that are not finished, the innermost first, and what has been seen, the latest first. -/
structure Reactor (CallBack : Type) where
  callbacks : AList fun _ : FdPair => CallBack
  isRunning : Bool
  runs : List RunFrame
  log : List (ReactorEvent CallBack)

variable {CallBack : Type}

namespace Reactor

/-! ## The functions -/

/-- The constructor. -/
def ctor : Reactor CallBack := { callbacks := ∅, isRunning := false, runs := [], log := [] }

/-- `Add`. -/
def add (s : Reactor CallBack) (fd : Int) (mode : Mode) (callback : CallBack) :
    Reactor CallBack :=
  { s with
    callbacks := s.callbacks.insert (fd, mode) callback
    log := .added (fd, mode) callback :: s.log }

/-- `Remove`. -/
def remove (s : Reactor CallBack) (fd : Int) (mode : Mode) : Reactor CallBack :=
  { s with callbacks := s.callbacks.erase (fd, mode), log := .removed (fd, mode) :: s.log }

/-- `Stop`. -/
def stop (s : Reactor CallBack) : Reactor CallBack :=
  { s with isRunning := false, log := .stopped :: s.log }

/-- `GetMonitoredFds`. -/
def getMonitoredFds (s : Reactor CallBack) : List FdPair := s.callbacks.keys

/-- `Run` up to its loop. -/
def run (s : Reactor CallBack) : Reactor CallBack :=
  if s.isRunning then { s with log := .runThrew :: s.log }
  else
    { s with isRunning := true, runs := .condition :: s.runs, log := .runStarted :: s.log }

/-- The innermost `Run` is over. -/
def leave (s : Reactor CallBack) (outer : List RunFrame) : Reactor CallBack :=
  { s with runs := outer, log := .runEnded :: s.log }

/-- The condition of the loop, and `Listen` is called where it holds. -/
def loopCondition (s : Reactor CallBack) (outer : List RunFrame) : Reactor CallBack :=
  if s.isRunning ∧ s.callbacks.keys ≠ [] then
    { s with runs := .listen s.getMonitoredFds :: outer }
  else s.leave outer

/-- `InvokeCallback`, with the ready descriptors behind this one. -/
def invokeCallback (s : Reactor CallBack) (fdPair : FdPair) (rdyFds : List FdPair)
    (outer : List RunFrame) : Reactor CallBack :=
  match s.callbacks.lookup fdPair with
  | some callback =>
      { s with
        runs := .callback fdPair rdyFds :: outer
        log := .invoked fdPair callback :: s.log }
  | none => { s with runs := .serve rdyFds :: outer }

/-- No `Run` is in progress, or what the innermost one has called is running. -/
def mayCall (s : Reactor CallBack) : Bool :=
  match s.runs with
  | [] | .listen _ :: _ | .callback _ _ :: _ => true
  | _ => false

end Reactor

/-- What the program, the listener or the callback that is running calls; the next step of the
innermost `Run`; the descriptors that the listener returns; the end of a callback; and an
exception that leaves the innermost `Run`. -/
inductive ReactorAction (CallBack : Type) where
  | add (fd : Int) (mode : Mode) (callback : CallBack)
  | remove (fd : Int) (mode : Mode)
  | stop
  | run
  | advance
  | listened (rdyFds : List FdPair)
  | returns
  | throws
  deriving DecidableEq, Repr

namespace Reactor

/-- The innermost `Run` goes on. -/
def goOn (s : Reactor CallBack) : Option (Reactor CallBack) :=
  match s.runs with
  | .condition :: outer => some (s.loopCondition outer)
  | .serve [] :: outer => some { s with runs := .condition :: outer }
  | .serve (fdPair :: rdyFds) :: outer => some (s.invokeCallback fdPair rdyFds outer)
  | _ => none

/-- A step. -/
def step (s : Reactor CallBack) : ReactorAction CallBack → Option (Reactor CallBack)
  | .add fd mode callback => if s.mayCall then some (s.add fd mode callback) else none
  | .remove fd mode => if s.mayCall then some (s.remove fd mode) else none
  | .stop => if s.mayCall then some s.stop else none
  | .run => if s.mayCall then some s.run else none
  | .advance => s.goOn
  | .listened rdyFds =>
      match s.runs with
      | .listen _ :: outer => some { s with runs := .serve rdyFds :: outer }
      | _ => none
  | .returns =>
      match s.runs with
      | .callback _ rdyFds :: outer => some { s with runs := .serve rdyFds :: outer }
      | _ => none
  | .throws =>
      match s.runs with
      | _ :: outer => some (s.leave outer)
      | [] => none

end Reactor

/-- The runs of a new reactor. -/
def reactorMachine (CallBack : Type) : Machine (Reactor CallBack) (ReactorAction CallBack) where
  start s := s = Reactor.ctor
  step s a := s.step a

namespace Reactor

/-! ## The property -/

/-- The calls of `Run` that have not ended. -/
def runsInProgress : List (ReactorEvent CallBack) → Nat
  | [] => 0
  | .runStarted :: earlier => runsInProgress earlier + 1
  | .runEnded :: earlier => runsInProgress earlier - 1
  | _ :: earlier => runsInProgress earlier

/-- What was added last for a descriptor and a mode, and has not been removed. -/
def registered (fdPair : FdPair) : List (ReactorEvent CallBack) → Option CallBack
  | [] => none
  | .added other callback :: earlier =>
      if other = fdPair then some callback else registered fdPair earlier
  | .removed other :: earlier => if other = fdPair then none else registered fdPair earlier
  | _ :: earlier => registered fdPair earlier

/-- A call of `Run` throws exactly if another one is in progress. -/
def ThrowsIfRunning : ReactorEvent CallBack → List (ReactorEvent CallBack) → Prop
  | .runThrew, earlier => 0 < runsInProgress earlier
  | .runStarted, earlier => runsInProgress earlier = 0
  | _, _ => True

/-- A callback that is invoked is registered. -/
def IsRegistered : ReactorEvent CallBack → List (ReactorEvent CallBack) → Prop
  | .invoked fdPair callback, earlier => registered fdPair earlier = some callback
  | _, _ => True

/-- Every call of `Run` has thrown exactly if another one was in progress. -/
def IsExclusive (s : Reactor CallBack) : Prop := EachEntry ThrowsIfRunning s.log

/-- Every callback that was invoked was registered at that moment. -/
def InvokesRegistered (s : Reactor CallBack) : Prop := EachEntry IsRegistered s.log

/-- No `Run` ends, for want of registrations or by an exception, while `m_is_running` is set; and
no `Run` is called inside one that has been stopped. -/
def EndsByStop (s : Reactor CallBack) : ReactorAction CallBack → Prop
  | .advance =>
      ¬ (s.runs.head? = some .condition ∧ s.isRunning = true ∧ s.callbacks.keys = [])
  | .throws => s.isRunning = false
  | .run => s.runs ≠ [] → s.isRunning = true
  | _ => True

instance (s : Reactor CallBack) (a : ReactorAction CallBack) : Decidable (s.EndsByStop a) := by
  unfold EndsByStop
  split <;> infer_instance

/-! ## The steps -/

/-- **What a step does.** -/
inductive Effect (s : Reactor CallBack) : ReactorAction CallBack → Reactor CallBack → Prop
  | add (fd : Int) (mode : Mode) (callback : CallBack) :
      Effect s (.add fd mode callback) (s.add fd mode callback)
  | remove (fd : Int) (mode : Mode) : Effect s (.remove fd mode) (s.remove fd mode)
  | stop : Effect s .stop s.stop
  | runThrew (hflag : s.isRunning = true) : Effect s .run { s with log := .runThrew :: s.log }
  | runStarted (hflag : s.isRunning = false) :
      Effect s .run { s with
        isRunning := true, runs := .condition :: s.runs, log := .runStarted :: s.log }
  | moved {a : ReactorAction CallBack} {frame : RunFrame} {outer : List RunFrame}
      (next : RunFrame) (hruns : s.runs = frame :: outer) (hstop : s.EndsByStop a) :
      Effect s a { s with runs := next :: outer }
  | invoked {frame : RunFrame} {outer : List RunFrame} {fdPair : FdPair} {callback : CallBack}
      (next : RunFrame) (hruns : s.runs = frame :: outer) (hframe : frame ≠ .condition)
      (hfound : s.callbacks.lookup fdPair = some callback) :
      Effect s .advance { s with
        runs := next :: outer, log := .invoked fdPair callback :: s.log }
  | ended {outer : List RunFrame} (hruns : s.runs = .condition :: outer)
      (hends : ¬ (s.isRunning = true ∧ s.callbacks.keys ≠ [])) :
      Effect s .advance (s.leave outer)
  | threw {frame : RunFrame} {outer : List RunFrame} (hruns : s.runs = frame :: outer) :
      Effect s .throws (s.leave outer)

variable {s s' : Reactor CallBack} {a : ReactorAction CallBack}

/-- The innermost `Run` goes on in one of these ways. -/
theorem goOn_effect (hstep : s.goOn = some s') : s.Effect .advance s' := by
  unfold goOn at hstep
  split at hstep
  case h_1 outer hruns =>
    obtain rfl := Option.some.inj hstep
    rw [loopCondition]
    split
    case isTrue hgoes =>
      exact .moved _ hruns fun hends => hgoes.2 hends.2.2
    case isFalse hends => exact .ended hruns hends
  case h_2 outer hruns =>
    obtain rfl := Option.some.inj hstep
    exact .moved _ hruns (by simp [EndsByStop, hruns])
  case h_3 fdPair rdyFds outer hruns =>
    obtain rfl := Option.some.inj hstep
    rw [invokeCallback]
    split
    case h_1 callback hfound => exact .invoked _ hruns (by simp) hfound
    case h_2 => exact .moved _ hruns (by simp [EndsByStop, hruns])
  case h_4 => cases hstep

/-- Every step is one of these. -/
theorem step_effect (hstep : s.step a = some s') : s.Effect a s' := by
  cases a with
  | add fd mode callback =>
      obtain ⟨-, hstep⟩ := Option.ite_none_right_eq_some.mp hstep
      obtain rfl := Option.some.inj hstep
      exact .add fd mode callback
  | remove fd mode =>
      obtain ⟨-, hstep⟩ := Option.ite_none_right_eq_some.mp hstep
      obtain rfl := Option.some.inj hstep
      exact .remove fd mode
  | stop =>
      obtain ⟨-, hstep⟩ := Option.ite_none_right_eq_some.mp hstep
      obtain rfl := Option.some.inj hstep
      exact .stop
  | run =>
      obtain ⟨-, hstep⟩ := Option.ite_none_right_eq_some.mp hstep
      obtain rfl := Option.some.inj hstep
      rw [run]
      split
      case isTrue hflag => exact .runThrew hflag
      case isFalse hflag => exact .runStarted (Bool.eq_false_iff.mpr hflag)
  | advance => exact goOn_effect hstep
  | listened rdyFds =>
      rw [step] at hstep
      split at hstep
      case h_1 fds outer hruns =>
        obtain rfl := Option.some.inj hstep
        exact .moved _ hruns trivial
      case h_2 => cases hstep
  | returns =>
      rw [step] at hstep
      split at hstep
      case h_1 fdPair rdyFds outer hruns =>
        obtain rfl := Option.some.inj hstep
        exact .moved _ hruns trivial
      case h_2 => cases hstep
  | throws =>
      rw [step] at hstep
      split at hstep
      case h_1 frame outer hruns =>
        obtain rfl := Option.some.inj hstep
        exact .threw hruns
      case h_2 => cases hstep

/-! ## Every run -/

/-- What has been seen tells the stack and the registrations, and only registered callbacks
have been invoked. -/
structure Faithful (s : Reactor CallBack) : Prop where
  runs_eq : runsInProgress s.log = s.runs.length
  lookup_eq : ∀ fdPair, registered fdPair s.log = s.callbacks.lookup fdPair
  invokes : s.InvokesRegistered

theorem faithful_ctor : (ctor : Reactor CallBack).Faithful where
  runs_eq := rfl
  lookup_eq := fun _ => rfl
  invokes := eachEntry_nil

/-- Every step keeps this. -/
theorem Faithful.step (h : s.Faithful) (heffect : s.Effect a s') : s'.Faithful := by
  obtain ⟨hruns_eq, hlookup, hinvokes⟩ := h
  cases heffect with
  | add fd mode callback =>
      refine ⟨hruns_eq, fun fdPair => ?_, eachEntry_cons.mpr ⟨trivial, hinvokes⟩⟩
      show (if (fd, mode) = fdPair then some callback else registered fdPair s.log) =
        (s.callbacks.insert (fd, mode) callback).lookup fdPair
      by_cases hsame : (fd, mode) = fdPair
      · subst hsame
        simp
      · rw [if_neg hsame, AList.lookup_insert_ne (Ne.symm hsame), hlookup]
  | remove fd mode =>
      refine ⟨hruns_eq, fun fdPair => ?_, eachEntry_cons.mpr ⟨trivial, hinvokes⟩⟩
      show (if (fd, mode) = fdPair then none else registered fdPair s.log) =
        (s.callbacks.erase (fd, mode)).lookup fdPair
      by_cases hsame : (fd, mode) = fdPair
      · subst hsame
        simp
      · rw [if_neg hsame, AList.lookup_erase_ne (Ne.symm hsame), hlookup]
  | stop => exact ⟨hruns_eq, hlookup, eachEntry_cons.mpr ⟨trivial, hinvokes⟩⟩
  | runThrew => exact ⟨hruns_eq, hlookup, eachEntry_cons.mpr ⟨trivial, hinvokes⟩⟩
  | runStarted =>
      refine ⟨?_, hlookup, eachEntry_cons.mpr ⟨trivial, hinvokes⟩⟩
      simp [runsInProgress, hruns_eq]
  | moved next hruns =>
      refine ⟨?_, hlookup, hinvokes⟩
      simpa [hruns] using hruns_eq
  | invoked next hruns _ hfound =>
      refine ⟨?_, hlookup, eachEntry_cons.mpr ⟨(hlookup _).trans hfound, hinvokes⟩⟩
      simpa [runsInProgress, hruns] using hruns_eq
  | ended hruns =>
      refine ⟨?_, hlookup, eachEntry_cons.mpr ⟨trivial, hinvokes⟩⟩
      simp [leave, runsInProgress, hruns_eq, hruns]
  | threw hruns =>
      refine ⟨?_, hlookup, eachEntry_cons.mpr ⟨trivial, hinvokes⟩⟩
      simp [leave, runsInProgress, hruns_eq, hruns]

/-- In every run. -/
theorem faithful_of_reached {guard : Reactor CallBack → ReactorAction CallBack → Prop}
    (h : (reactorMachine CallBack).ReachedBy guard s) : s.Faithful := by
  refine h.invariant (I := Faithful) ?_ ?_
  · rintro s rfl
    exact faithful_ctor
  · intro s a s' hs _ hstep
    exact hs.step (step_effect hstep)

/-! ## Runs that end by `Stop` -/

/-- One `Run` at most is in progress, without one `m_is_running` is clear, and every call of
`Run` has been answered accordingly. -/
structure Orderly (s : Reactor CallBack) : Prop where
  one : s.runs.length ≤ 1
  idle : s.runs = [] → s.isRunning = false
  exclusive : s.IsExclusive

theorem orderly_ctor : (ctor : Reactor CallBack).Orderly where
  one := Nat.zero_le 1
  idle := fun _ => rfl
  exclusive := eachEntry_nil

/-- The innermost `Run` is the only one. -/
theorem Orderly.outer_eq_nil (h : s.Orderly) {frame : RunFrame} {outer : List RunFrame}
    (hruns : s.runs = frame :: outer) : outer = [] := by
  have hone := h.one
  rw [hruns, List.length_cons] at hone
  exact List.eq_nil_of_length_eq_zero (by omega)

/-- A `Run` that is over leaves the flag clear. -/
theorem Orderly.leave (h : s.Orderly) {frame : RunFrame} {outer : List RunFrame}
    (hruns : s.runs = frame :: outer) (hflag : s.isRunning = false) :
    (s.leave outer).Orderly where
  one := by simp [Reactor.leave, h.outer_eq_nil hruns]
  idle := fun _ => hflag
  exclusive := eachEntry_cons.mpr ⟨trivial, h.exclusive⟩

/-- Every step keeps this, where a `Run` ends by `Stop`. -/
theorem Orderly.step (h : s.Orderly) (hfaithful : s.Faithful) (hstop : s.EndsByStop a)
    (heffect : s.Effect a s') : s'.Orderly := by
  have hcount := hfaithful.runs_eq
  cases heffect with
  | add => exact ⟨h.one, h.idle, eachEntry_cons.mpr ⟨trivial, h.exclusive⟩⟩
  | remove => exact ⟨h.one, h.idle, eachEntry_cons.mpr ⟨trivial, h.exclusive⟩⟩
  | stop => exact ⟨h.one, fun _ => rfl, eachEntry_cons.mpr ⟨trivial, h.exclusive⟩⟩
  | runThrew hflag =>
      refine ⟨h.one, h.idle, eachEntry_cons.mpr ⟨?_, h.exclusive⟩⟩
      -- the flag is clear where no `Run` is in progress
      have hsome : s.runs ≠ [] := by
        intro hnil
        rw [h.idle hnil] at hflag
        cases hflag
      show 0 < runsInProgress s.log
      rw [hcount]
      exact List.length_pos_iff.mpr hsome
  | runStarted hflag =>
      have hnil : s.runs = [] := by
        by_contra hsome
        rw [hstop hsome] at hflag
        cases hflag
      refine ⟨by simp [hnil], (fun hnone => by cases hnone), eachEntry_cons.mpr ⟨?_, h.exclusive⟩⟩
      show runsInProgress s.log = 0
      rw [hcount, hnil, List.length_nil]
  | moved next hruns =>
      refine ⟨?_, (fun hnone => by cases hnone), h.exclusive⟩
      simp [h.outer_eq_nil hruns]
  | invoked next hruns =>
      refine ⟨?_, (fun hnone => by cases hnone), eachEntry_cons.mpr ⟨trivial, h.exclusive⟩⟩
      simp [h.outer_eq_nil hruns]
  | ended hruns hends =>
      refine h.leave hruns (Bool.eq_false_iff.mpr fun hflag => ?_)
      refine hends ⟨hflag, fun hnone => ?_⟩
      exact hstop ⟨by rw [hruns, List.head?_cons], hflag, hnone⟩
  | threw hruns => exact h.leave hruns hstop

/-- In every run whose calls of `Run` end by `Stop`. -/
theorem orderly_of_reached (h : (reactorMachine CallBack).ReachedBy EndsByStop s) :
    s.Faithful ∧ s.Orderly := by
  refine h.invariant (I := fun s => s.Faithful ∧ s.Orderly) ?_ ?_
  · rintro s rfl
    exact ⟨faithful_ctor, orderly_ctor⟩
  · rintro s a s' ⟨hfaithful, horderly⟩ hstop hstep
    have heffect := step_effect hstep
    exact ⟨hfaithful.step heffect, horderly.step hfaithful hstop heffect⟩

/-- A call of `Run` throws in vain where the flag was left set. -/
theorem Faithful.flag_of_exclusive (h : s.Faithful) (hnone : s.runs = [])
    (hexclusive : s.run.IsExclusive) : s.isRunning = false := by
  by_contra hflag
  rw [Bool.not_eq_false] at hflag
  have hlog : s.run.log = .runThrew :: s.log := by simp [run, hflag]
  rw [IsExclusive, hlog, eachEntry_cons] at hexclusive
  have hpos : 0 < runsInProgress s.log := hexclusive.1
  simp [h.runs_eq, hnone] at hpos

/-- A call of `Run` starts where none is in progress. -/
theorem Orderly.run_exclusive (h : s.Orderly) (hfaithful : s.Faithful) (hnone : s.runs = []) :
    s.run.IsExclusive := by
  have hlog : s.run.log = .runStarted :: s.log := by simp [run, h.idle hnone]
  rw [IsExclusive, hlog, eachEntry_cons]
  refine ⟨?_, h.exclusive⟩
  show runsInProgress s.log = 0
  simp [hfaithful.runs_eq, hnone]

/-- **The condition is exact**: a step meets it exactly if the calls of `Run` have been answered
rightly up to there, and the next call is, where the step leaves no `Run` in progress. -/
theorem endsByStop_iff (h : (reactorMachine CallBack).ReachedBy EndsByStop s)
    (hstep : s.step a = some s') :
    s.EndsByStop a ↔ s'.IsExclusive ∧ (s'.runs = [] → s'.run.IsExclusive) := by
  obtain ⟨hfaithful, horderly⟩ := orderly_of_reached h
  have heffect := step_effect hstep
  have hfaithful' := hfaithful.step heffect
  constructor
  · intro hstop
    have horderly' := horderly.step hfaithful hstop heffect
    exact ⟨horderly'.exclusive, horderly'.run_exclusive hfaithful'⟩
  · rintro ⟨hexclusive, hnext⟩
    cases heffect with
    | add => trivial
    | remove => trivial
    | stop => trivial
    | runThrew hflag => exact fun _ => hflag
    | runStarted =>
        intro hsome
        have hcount : runsInProgress s.log = 0 := (eachEntry_cons.mp hexclusive).1
        rw [hfaithful.runs_eq] at hcount
        exact absurd (List.eq_nil_of_length_eq_zero hcount) hsome
    | moved _ _ hstop => exact hstop
    | invoked _ hruns hframe =>
        rintro ⟨hhead, -⟩
        rw [hruns, List.head?_cons] at hhead
        exact hframe (Option.some.inj hhead)
    | ended hruns =>
        rintro ⟨-, hflag, -⟩
        have hnone := horderly.outer_eq_nil hruns
        have hclear : s.isRunning = false := hfaithful'.flag_of_exclusive hnone (hnext hnone)
        rw [hclear] at hflag
        cases hflag
    | threw hruns =>
        have hnone := horderly.outer_eq_nil hruns
        exact hfaithful'.flag_of_exclusive hnone (hnext hnone)

/-- **The exclusivity of `Run`**: in every run a callback is invoked only while it is registered,
and in every run whose calls of `Run` end by `Stop` a call of `Run` throws exactly if another one
is in progress. -/
theorem reactor_exclusive (h : (reactorMachine CallBack).Reached s) :
    s.InvokesRegistered ∧
      ((reactorMachine CallBack).ReachedBy EndsByStop s → s.IsExclusive) :=
  ⟨(faithful_of_reached h).invokes, fun h => (orderly_of_reached h).2.exclusive⟩

/-- The callback of a descriptor calls `Run`, removes another registration that is ready as well,
and stops; afterwards `Run` is called again. -/
def stoppedLabels : List (ReactorAction Nat) :=
  [.add 0 .read 7, .add 1 .write 8, .run, .advance, .listened [(0, .read), (1, .write)], .advance,
    .run, .remove 1 .write, .stop, .returns, .advance, .advance, .advance, .run]

/-- One callback is invoked, and the call of `Run` inside it throws. -/
theorem reactor_exclusive_stoppedLabels :
    ∃ s, (reactorMachine Nat).run ctor stoppedLabels = some s ∧
      s.log = [.runStarted, .runEnded, .stopped, .removed (1, .write), .runThrew,
        .invoked (0, .read) 7, .runStarted, .added (1, .write) 8, .added (0, .read) 7] ∧
      s.InvokesRegistered ∧ s.IsExclusive := by
  have hrun : (reactorMachine Nat).run ctor stoppedLabels = some _ := rfl
  have hadmits : (reactorMachine Nat).Admits EndsByStop ctor stoppedLabels := by decide
  have hexclusive := reactor_exclusive (Machine.Reached.run (.start rfl) hrun)
  exact ⟨_, hrun, rfl, hexclusive.1,
    hexclusive.2 (Machine.ReachedBy.run (.start rfl) hadmits hrun)⟩

/-- `Run` ends at once where nothing is registered, and the next one throws that it is already
running; and a callback that has called `Stop` runs another `Run`. -/
theorem reactor_exclusive_fails :
    (∃ s, (reactorMachine Nat).Reached s ∧ s.runs = [] ∧ ¬ s.IsExclusive) ∧
      ∃ s, (reactorMachine Nat).Reached s ∧ s.runs.length = 2 ∧ ¬ s.IsExclusive := by
  have hempty : (reactorMachine Nat).run ctor [.run, .advance, .run] = some _ := rfl
  have hnested : (reactorMachine Nat).run ctor
      [.add 0 .read 7, .run, .advance, .listened [(0, .read)], .advance, .stop, .run] =
      some _ := rfl
  refine ⟨⟨_, Machine.Reached.run (.start rfl) hempty, rfl, fun h => ?_⟩,
    ⟨_, Machine.Reached.run (.start rfl) hnested, rfl, fun h => ?_⟩⟩
  · have hcount : 0 < 0 := (eachEntry_cons.mp h).1
    exact absurd hcount (Nat.lt_irrefl 0)
  · have hcount : 1 = 0 := (eachEntry_cons.mp h).1
    exact absurd hcount (by decide)

end Reactor

end Framework
end InfinityLabs
