import InfinityLabs.Lib.Runs
import Mathlib.Data.Finset.Basic
import Mathlib.Logic.Function.Basic

/-!
# The dispatchers and callbacks of the framework

`projects/final_project/framework/inc/dispatcher.hpp`.  Any number of dispatchers and callbacks
are made and destroyed, and a handler that is notified may do what the program may do: it
subscribes and unsubscribes, broadcasts, and destroys callbacks and dispatchers, its own among
them.  A broadcast and the destruction of a dispatcher are frames of a stack; the handler that
the top frame has called runs on top of it.

Both visit a copy of the set.  The copy keeps a callback that a handler has taken out or
destroyed, and `Subscribe` does not look whether the callback already has a dispatcher.
-/

namespace InfinityLabs
namespace Framework

open Lib

/-! ## The state -/

/-- A `Broadcast`, or a `~Dispatcher`, that is not finished: the members of `callbacksCopy` that
it has still to visit, and whether the handler that it has called is running. -/
structure Frame where
  isDestructor : Bool
  dispatcher : Nat
  callbacksCopy : Finset Nat
  isCalling : Bool
  deriving DecidableEq

/-- The objects of the program at their addresses, a callback as its `m_dispatcher` and a
dispatcher as its `m_callbacks`, and the calls that are not finished, the innermost first. -/
structure DispatcherSystem where
  callback? : Nat → Option (Option Nat)
  dispatcher? : Nat → Option (Finset Nat)
  stack : List Frame

namespace DispatcherSystem

/-- Before the first object is made. -/
def initial : DispatcherSystem :=
  { callback? := fun _ => none, dispatcher? := fun _ => none, stack := [] }

/-- The program is not inside a call, or the handler is running that the innermost has made. -/
def mayCall (s : DispatcherSystem) : Bool :=
  match s.stack with
  | [] => true
  | frame :: _ => frame.isCalling

/-- The destructor of the dispatcher is not finished. -/
def IsDying (s : DispatcherSystem) (dispatcher : Nat) : Prop :=
  ∃ frame ∈ s.stack, frame.isDestructor = true ∧ frame.dispatcher = dispatcher

instance (s : DispatcherSystem) (dispatcher : Nat) : Decidable (s.IsDying dispatcher) :=
  inferInstanceAs (Decidable (∃ frame ∈ s.stack, _))

/-! ## The steps -/

/-- `BaseCallback::SetDispatcher`. -/
def setDispatcher (s : DispatcherSystem) (callback : Nat) (dispatcher : Option Nat) :
    DispatcherSystem :=
  { s with
    callback? := Function.update s.callback? callback
      ((s.callback? callback).map fun _ => dispatcher) }

/-- `m_callbacks` of the dispatcher after a change. -/
def setCallbacks (s : DispatcherSystem) (dispatcher : Nat) (f : Finset Nat → Finset Nat) :
    DispatcherSystem :=
  { s with
    dispatcher? := Function.update s.dispatcher? dispatcher ((s.dispatcher? dispatcher).map f) }

/-- `Dispatcher::Subscribe`. -/
def subscribe (s : DispatcherSystem) (dispatcher callback : Nat) : DispatcherSystem :=
  (s.setCallbacks dispatcher (insert callback)).setDispatcher callback (some dispatcher)

/-- `Dispatcher::UnSubscribe`. -/
def unSubscribe (s : DispatcherSystem) (dispatcher callback : Nat) : DispatcherSystem :=
  (s.setCallbacks dispatcher fun callbacks => callbacks.erase callback).setDispatcher
    callback none

/-- The memory of the callback is given back. -/
def freeCallback (s : DispatcherSystem) (callback : Nat) : DispatcherSystem :=
  { s with callback? := Function.update s.callback? callback none }

/-- `BaseCallback::~BaseCallback`; the `m_dispatcher` of a destroyed dispatcher cannot be
followed. -/
def deleteCallback (s : DispatcherSystem) (callback : Nat) : Option DispatcherSystem :=
  match s.callback? callback with
  | none => none
  | some none => some (s.freeCallback callback)
  | some (some dispatcher) =>
      if (s.dispatcher? dispatcher).isSome then
        some ((s.unSubscribe dispatcher callback).freeCallback callback)
      else none

/-- A `Broadcast` or a `~Dispatcher` copies `m_callbacks`. -/
def copy (s : DispatcherSystem) (isDestructor : Bool) (dispatcher : Nat) :
    Option DispatcherSystem :=
  (s.dispatcher? dispatcher).map fun callbacks =>
    { s with
      stack := { isDestructor, dispatcher, callbacksCopy := callbacks, isCalling := false } ::
        s.stack }

/-- `BaseCallback::Notify` in a broadcast, `BaseCallback::NotifyDeath` in a destructor. -/
def notify (s : DispatcherSystem) (frame : Frame) (below : List Frame) (callback : Nat) :
    DispatcherSystem :=
  { (if frame.isDestructor then s.setDispatcher callback none else s) with
    stack := { frame with
      callbacksCopy := frame.callbacksCopy.erase callback, isCalling := true } :: below }

/-- The loop has ended; a destructor gives the memory of the dispatcher back. -/
def finish (s : DispatcherSystem) (frame : Frame) (below : List Frame) : DispatcherSystem :=
  { s with
    dispatcher? :=
      if frame.isDestructor then Function.update s.dispatcher? frame.dispatcher none
      else s.dispatcher?
    stack := below }

end DispatcherSystem

/-- What the program, or the handler that is running, calls; the next callback of the innermost
loop, in any order; the end of its handler and its own end. -/
inductive DispatcherAction where
  | newCallback (callback : Nat)
  | newDispatcher (dispatcher : Nat)
  | subscribe (dispatcher callback : Nat)
  | unSubscribe (dispatcher callback : Nat)
  | broadcast (dispatcher : Nat)
  | deleteCallback (callback : Nat)
  | deleteDispatcher (dispatcher : Nat)
  | notify (callback : Nat)
  | returns
  | finish
  deriving DecidableEq, Repr

namespace DispatcherSystem

/-- A call of the program or of the handler that is running.  Both are at objects that exist. -/
def call (s : DispatcherSystem) : DispatcherAction → Option DispatcherSystem
  | .newCallback callback =>
      if (s.callback? callback).isSome then none
      else some { s with callback? := Function.update s.callback? callback (some none) }
  | .newDispatcher dispatcher =>
      if (s.dispatcher? dispatcher).isSome then none
      else some { s with dispatcher? := Function.update s.dispatcher? dispatcher (some ∅) }
  | .subscribe dispatcher callback =>
      if (s.dispatcher? dispatcher).isSome ∧ (s.callback? callback).isSome then
        some (s.subscribe dispatcher callback)
      else none
  | .unSubscribe dispatcher callback =>
      if (s.dispatcher? dispatcher).isSome ∧ (s.callback? callback).isSome then
        some (s.unSubscribe dispatcher callback)
      else none
  | .broadcast dispatcher => s.copy false dispatcher
  | .deleteCallback callback => s.deleteCallback callback
  | .deleteDispatcher dispatcher =>
      if s.IsDying dispatcher then none else s.copy true dispatcher
  | _ => none

/-- The innermost loop goes on. -/
def goOn (s : DispatcherSystem) : DispatcherAction → Option DispatcherSystem
  | .notify callback =>
      match s.stack with
      | [] => none
      | frame :: below =>
          if frame.isCalling = false ∧ callback ∈ frame.callbacksCopy then
            some (s.notify frame below callback)
          else none
  | .returns =>
      match s.stack with
      | [] => none
      | frame :: below =>
          if frame.isCalling then
            some { s with stack := { frame with isCalling := false } :: below }
          else none
  | .finish =>
      match s.stack with
      | [] => none
      | frame :: below =>
          if frame.isCalling = false ∧ frame.callbacksCopy = ∅ then
            some (s.finish frame below)
          else none
  | _ => none

/-- A step. -/
def step (s : DispatcherSystem) (a : DispatcherAction) : Option DispatcherSystem :=
  match a with
  | .notify _ | .returns | .finish => s.goOn a
  | _ => if s.mayCall then s.call a else none

end DispatcherSystem

/-- The runs that start before the first object is made. -/
def dispatcherMachine : Machine DispatcherSystem DispatcherAction where
  start s := s = DispatcherSystem.initial
  step s a := s.step a

namespace DispatcherSystem

/-! ## The property -/

/-- The callback is in `m_callbacks` of the dispatcher. -/
def Lists (s : DispatcherSystem) (dispatcher callback : Nat) : Prop :=
  ∃ callbacks, s.dispatcher? dispatcher = some callbacks ∧ callback ∈ callbacks

/-- `m_dispatcher` of the callback, which is alive, names the dispatcher. -/
def Names (s : DispatcherSystem) (callback dispatcher : Nat) : Prop :=
  s.callback? callback = some (some dispatcher)

/-- Only callbacks that are alive and subscribed are notified, and outside of its destructor a
dispatcher has those in its set that name it. -/
structure IsConsistent (s : DispatcherSystem) : Prop where
  notified : ∀ frame below callback s', s.stack = frame :: below →
    s.step (.notify callback) = some s' →
    s.Names callback frame.dispatcher ∧ s.Lists frame.dispatcher callback
  linked : ∀ dispatcher callback, ¬ s.IsDying dispatcher →
    (s.Lists dispatcher callback ↔ s.Names callback dispatcher)

/-- The callback is still to be visited by a loop that is not finished. -/
def IsAwaited (s : DispatcherSystem) (callback : Nat) : Prop :=
  ∃ frame ∈ s.stack, callback ∈ frame.callbacksCopy

instance (s : DispatcherSystem) (callback : Nat) : Decidable (s.IsAwaited callback) :=
  inferInstanceAs (Decidable (∃ frame ∈ s.stack, _))

/-- A callback is subscribed to one dispatcher at a time, which is not being destroyed, and
unsubscribed from its own; no callback leaves a dispatcher that is still to visit it, and no
dispatcher is destroyed that has still to visit a callback; a dispatcher that is being
destroyed broadcasts only to callbacks that have not been told. -/
def KeepsCopies (s : DispatcherSystem) : DispatcherAction → Prop
  | .subscribe dispatcher callback =>
      s.callback? callback = some none ∧ ¬ s.IsDying dispatcher ∨
        s.callback? callback = some (some dispatcher)
  | .unSubscribe dispatcher callback =>
      (s.callback? callback = some none ∨ s.callback? callback = some (some dispatcher)) ∧
        ¬ s.IsAwaited callback
  | .broadcast dispatcher =>
      ∀ frame ∈ s.stack, frame.isDestructor = true → frame.dispatcher = dispatcher →
        ∀ callbacks ∈ s.dispatcher? dispatcher, callbacks ⊆ frame.callbacksCopy
  | .deleteCallback callback => ¬ s.IsAwaited callback
  | .deleteDispatcher dispatcher =>
      ∀ frame ∈ s.stack, frame.dispatcher = dispatcher → frame.callbacksCopy = ∅
  | _ => True

instance (s : DispatcherSystem) (a : DispatcherAction) : Decidable (s.KeepsCopies a) := by
  unfold KeepsCopies
  split <;> infer_instance

/-! ## The links -/

/-- A loop has still to visit callbacks of its dispatcher only, and a destructor all of them. -/
structure Tracks (s : DispatcherSystem) (frame : Frame) : Prop where
  named : ∀ callback ∈ frame.callbacksCopy, s.Names callback frame.dispatcher
  untold : frame.isDestructor = true → ∀ callback, s.Names callback frame.dispatcher →
    callback ∈ frame.callbacksCopy

/-- What a frame demands of those below it: a destructor leaves nothing to visit. -/
def Above (upper lower : Frame) : Prop :=
  upper.isDestructor = true → lower.dispatcher = upper.dispatcher →
    lower.callbacksCopy = ∅ ∧ lower.isDestructor = false

/-- The links between dispatchers, callbacks and the loops that are not finished. -/
structure Coherent (s : DispatcherSystem) : Prop where
  lists : ∀ callback dispatcher, s.Names callback dispatcher → s.Lists dispatcher callback
  names : ∀ dispatcher callback, ¬ s.IsDying dispatcher → s.Lists dispatcher callback →
    s.Names callback dispatcher
  tracks : ∀ frame ∈ s.stack, s.Tracks frame
  above : s.stack.Pairwise Above

theorem coherent_initial : Coherent initial where
  lists := fun _ _ h => by cases h
  names := fun _ _ _ h => by obtain ⟨_, h, -⟩ := h; cases h
  tracks := fun _ h => absurd h List.not_mem_nil
  above := .nil

/-- The links give the property. -/
theorem Coherent.isConsistent {s : DispatcherSystem} (h : s.Coherent) : s.IsConsistent where
  notified := by
    intro frame below callback s' hstack hstep
    simp only [DispatcherSystem.step, goOn, hstack, Option.ite_none_right_eq_some] at hstep
    have hnames : s.Names callback frame.dispatcher :=
      (h.tracks frame (hstack ▸ List.mem_cons_self)).named callback hstep.1.2
    exact ⟨hnames, h.lists _ _ hnames⟩
  linked := fun dispatcher callback hdying => ⟨h.names _ _ hdying, h.lists _ _⟩

/-! ## The calls that change one link -/

/-- The links survive a change of one callback, and of the sets it is in, that keeps those of
the callback. -/
theorem Coherent.relink {s s' : DispatcherSystem} (h : s.Coherent) (callback : Nat)
    (hstack : s'.stack = s.stack)
    (hothers : ∀ other, other ≠ callback → s'.callback? other = s.callback? other)
    (hsets : ∀ dispatcher other, other ≠ callback →
      (s'.Lists dispatcher other ↔ s.Lists dispatcher other))
    (hlists : ∀ dispatcher, s'.Names callback dispatcher → s'.Lists dispatcher callback)
    (hnames : ∀ dispatcher, ¬ s.IsDying dispatcher → s'.Lists dispatcher callback →
      s'.Names callback dispatcher)
    (htracks : ∀ frame ∈ s.stack, (callback ∈ frame.callbacksCopy →
      s'.Names callback frame.dispatcher) ∧ (frame.isDestructor = true →
        s'.Names callback frame.dispatcher → callback ∈ frame.callbacksCopy)) :
    s'.Coherent := by
  have hsame : ∀ other dispatcher, other ≠ callback →
      (s'.Names other dispatcher ↔ s.Names other dispatcher) := by
    intro other dispatcher hne
    rw [Names, Names, hothers other hne]
  have hdying : ∀ dispatcher, s'.IsDying dispatcher ↔ s.IsDying dispatcher := by
    intro dispatcher
    rw [IsDying, IsDying, hstack]
  constructor
  case lists =>
    intro other dispatcher hother
    by_cases heq : other = callback
    · subst heq
      exact hlists dispatcher hother
    · rw [hsets _ _ heq]
      exact h.lists _ _ ((hsame _ _ heq).mp hother)
  case names =>
    intro dispatcher other hnotDying hother
    rw [hdying] at hnotDying
    by_cases heq : other = callback
    · subst heq
      exact hnames dispatcher hnotDying hother
    · rw [hsame _ _ heq]
      exact h.names _ _ hnotDying ((hsets _ _ heq).mp hother)
  case tracks =>
    intro frame hframe
    rw [hstack] at hframe
    obtain ⟨hnamed, huntold⟩ := h.tracks frame hframe
    refine ⟨fun other hother => ?_, fun hdestructor other hother => ?_⟩
    · by_cases heq : other = callback
      · subst heq
        exact (htracks frame hframe).1 hother
      · rw [hsame _ _ heq]
        exact hnamed other hother
    · by_cases heq : other = callback
      · subst heq
        exact (htracks frame hframe).2 hdestructor hother
      · exact huntold hdestructor other ((hsame _ _ heq).mp hother)
  case above =>
    rw [hstack]
    exact h.above

/-- The sets of the others after a change of one set. -/
theorem lists_setCallbacks (s : DispatcherSystem) (dispatcher other callback : Nat)
    (f : Finset Nat → Finset Nat) :
    (s.setCallbacks dispatcher f).Lists other callback ↔
      if other = dispatcher then
        ∃ callbacks, s.dispatcher? dispatcher = some callbacks ∧ callback ∈ f callbacks
      else s.Lists other callback := by
  simp only [Lists, setCallbacks, Function.update_apply]
  split
  case isTrue heq => simp only [Option.map_eq_some_iff, exists_exists_and_eq_and]
  case isFalse => rfl

/-- The callback is in its set after `Subscribe`, and the sets are else the same. -/
theorem lists_subscribe {s : DispatcherSystem} {dispatcher callback : Nat}
    (halive : (s.dispatcher? dispatcher).isSome) (other member : Nat) :
    (s.subscribe dispatcher callback).Lists other member ↔
      s.Lists other member ∨ other = dispatcher ∧ member = callback := by
  obtain ⟨callbacks, hcallbacks⟩ := Option.isSome_iff_exists.mp halive
  show (s.setCallbacks dispatcher (insert callback)).Lists other member ↔ _
  rw [lists_setCallbacks]
  split
  case isTrue heq =>
    subst heq
    simp only [Lists, hcallbacks, Option.some.injEq, exists_eq_left', Finset.mem_insert,
      true_and, or_comm]
  case isFalse hne => simp only [hne, false_and, or_false]

/-- The callback has left its set after `UnSubscribe`, and the sets are else the same. -/
theorem lists_unSubscribe {s : DispatcherSystem} (dispatcher callback other member : Nat) :
    (s.unSubscribe dispatcher callback).Lists other member ↔
      s.Lists other member ∧ ¬ (other = dispatcher ∧ member = callback) := by
  show (s.setCallbacks dispatcher fun callbacks => callbacks.erase callback).Lists other
    member ↔ _
  rw [lists_setCallbacks]
  split
  case isTrue heq =>
    subst heq
    simp only [Lists, Finset.mem_erase, true_and]
    constructor
    · rintro ⟨callbacks, hcallbacks, hne, hmem⟩
      exact ⟨⟨callbacks, hcallbacks, hmem⟩, hne⟩
    · rintro ⟨⟨callbacks, hcallbacks, hmem⟩, hne⟩
      exact ⟨callbacks, hcallbacks, hne, hmem⟩
  case isFalse hne => simp only [hne, false_and, not_false_iff, and_true]

/-- Only the callback has another dispatcher after `SetDispatcher`. -/
theorem names_setDispatcher (s : DispatcherSystem) (callback other dispatcher : Nat)
    (value : Option Nat) :
    (s.setDispatcher callback value).Names other dispatcher ↔
      if other = callback then (s.callback? callback).isSome ∧ value = some dispatcher
      else s.Names other dispatcher := by
  simp only [Names, setDispatcher, Function.update_apply]
  split
  case isTrue heq =>
    cases s.callback? callback with
    | none => simp only [Option.map_none, Option.isSome_none, reduceCtorEq, false_and]
    | some => simp only [Option.map_some, Option.some.injEq, Option.isSome_some, true_and]
  case isFalse => rfl

theorem names_subscribe {s : DispatcherSystem} (dispatcher callback : Nat)
    (halive : (s.callback? callback).isSome) (other named : Nat) :
    (s.subscribe dispatcher callback).Names other named ↔
      if other = callback then named = dispatcher else s.Names other named := by
  rw [subscribe, names_setDispatcher]
  split
  case isTrue =>
    show (s.callback? callback).isSome ∧ some dispatcher = some named ↔ _
    simp only [halive, true_and, Option.some.injEq, eq_comm]
  case isFalse => rfl

theorem names_unSubscribe {s : DispatcherSystem} (dispatcher callback other named : Nat) :
    (s.unSubscribe dispatcher callback).Names other named ↔
      other ≠ callback ∧ s.Names other named := by
  rw [unSubscribe, names_setDispatcher]
  split
  case isTrue heq => simp only [reduceCtorEq, and_false, heq, ne_eq, not_true, false_and]
  case isFalse hne => exact (and_iff_right hne).symm

/-- A callback that is not alive, or has no dispatcher, names none. -/
theorem not_names {s : DispatcherSystem} {callback : Nat}
    (h : s.callback? callback = none ∨ s.callback? callback = some none) (dispatcher : Nat) :
    ¬ s.Names callback dispatcher := by
  rw [Names]
  rcases h with h | h <;> rw [h] <;> exact fun heq => by cases heq

/-- The callback names one dispatcher at most. -/
theorem Names.unique {s : DispatcherSystem} {callback dispatcher other : Nat}
    (h : s.Names callback dispatcher) (h' : s.Names callback other) : dispatcher = other := by
  rw [Names] at h h'
  exact Option.some.inj (Option.some.inj (h.symm.trans h'))

/-- A callback that is awaited names the dispatcher that awaits it. -/
theorem Coherent.names_of_awaited {s : DispatcherSystem} (h : s.Coherent) {frame : Frame}
    (hframe : frame ∈ s.stack) {callback : Nat} (hmem : callback ∈ frame.callbacksCopy) :
    s.Names callback frame.dispatcher :=
  (h.tracks frame hframe).named callback hmem

/-- The destructor of a frame is not finished. -/
theorem isDying_of_mem {s : DispatcherSystem} {frame : Frame} (hframe : frame ∈ s.stack)
    (hdestructor : frame.isDestructor = true) : s.IsDying frame.dispatcher :=
  ⟨frame, hframe, hdestructor, rfl⟩

/-- `Subscribe` keeps the links, where the callback has no other dispatcher. -/
theorem Coherent.subscribe {s : DispatcherSystem} (h : s.Coherent) {dispatcher callback : Nat}
    (hdispatcher : (s.dispatcher? dispatcher).isSome) (hcallback : (s.callback? callback).isSome)
    (hkeeps : s.KeepsCopies (.subscribe dispatcher callback)) :
    (s.subscribe dispatcher callback).Coherent := by
  -- the callback had this dispatcher or none
  have hnone : ∀ other, s.Names callback other → other = dispatcher := by
    intro other hother
    rcases hkeeps with ⟨hnone, -⟩ | hnamed
    · exact absurd hother (not_names (Or.inr hnone) other)
    · exact hother.unique hnamed
  have hnow : ∀ other, (s.subscribe dispatcher callback).Names callback other ↔
      other = dispatcher := by
    intro other
    rw [names_subscribe dispatcher callback hcallback, if_pos rfl]
  refine h.relink callback rfl ?_ ?_ ?_ ?_ ?_
  · intro other hne
    exact Function.update_of_ne hne _ _
  · intro set other hne
    rw [lists_subscribe hdispatcher]
    exact or_iff_left fun heq => hne heq.2
  · intro other hother
    rw [lists_subscribe hdispatcher]
    exact Or.inr ⟨(hnow other).mp hother, rfl⟩
  · intro other hdying hother
    rw [hnow]
    rcases (lists_subscribe hdispatcher other callback).mp hother with hold | heq
    · exact hnone other (h.names other callback hdying hold)
    · exact heq.1
  · intro frame hframe
    refine ⟨fun hmem => ?_, fun hdestructor hnamed => ?_⟩
    · rw [hnow]
      exact hnone _ (h.names_of_awaited hframe hmem)
    · rw [hnow] at hnamed
      rcases hkeeps with ⟨-, hdying⟩ | hold
      · exact absurd (hnamed ▸ isDying_of_mem hframe hdestructor) hdying
      · exact (h.tracks frame hframe).untold hdestructor callback (hnamed ▸ hold)

/-- `UnSubscribe` keeps the links, where no loop awaits the callback. -/
theorem Coherent.unSubscribe {s : DispatcherSystem} (h : s.Coherent)
    {dispatcher callback : Nat}
    (hown : ∀ other, s.Names callback other → other = dispatcher)
    (hawaited : ¬ s.IsAwaited callback) : (s.unSubscribe dispatcher callback).Coherent := by
  have hnow : ∀ other, ¬ (s.unSubscribe dispatcher callback).Names callback other := by
    intro other hother
    exact ((names_unSubscribe dispatcher callback callback other).mp hother).1 rfl
  refine h.relink callback rfl ?_ ?_ ?_ ?_ ?_
  · intro other hne
    exact Function.update_of_ne hne _ _
  · intro set other hne
    rw [lists_unSubscribe]
    exact and_iff_left fun heq => hne heq.2
  · intro other hother
    exact absurd hother (hnow other)
  · intro other hdying hother
    obtain ⟨hold, hne⟩ := (lists_unSubscribe dispatcher callback other callback).mp hother
    exact absurd ⟨hown other (h.names other callback hdying hold), rfl⟩ hne
  · intro frame hframe
    exact ⟨fun hmem => absurd ⟨frame, hframe, hmem⟩ hawaited,
      fun _ hnamed => absurd hnamed (hnow _)⟩

/-- The memory of a callback that names no dispatcher is given back, or taken. -/
theorem Coherent.setCallback {s : DispatcherSystem} (h : s.Coherent) {callback : Nat}
    (hnone : ∀ other, ¬ s.Names callback other) {value : Option (Option Nat)}
    (hvalue : ∀ other, value ≠ some (some other)) :
    Coherent { s with callback? := Function.update s.callback? callback value } := by
  have hnow : ∀ other, ¬ Names
      { s with callback? := Function.update s.callback? callback value } callback other := by
    intro other hother
    simp only [Names, Function.update_self] at hother
    exact hvalue other hother
  refine h.relink callback rfl ?_ ?_ ?_ ?_ ?_
  · intro other hne
    exact Function.update_of_ne hne _ _
  · intro set other hne
    exact Iff.rfl
  · intro other hother
    exact absurd hother (hnow other)
  · intro other hdying hother
    exact absurd (h.names other callback hdying hother) (hnone other)
  · intro frame hframe
    exact ⟨fun hmem => absurd (h.names_of_awaited hframe hmem) (hnone _),
      fun _ hnamed => absurd hnamed (hnow _)⟩

/-- A new dispatcher lists nothing, as no dispatcher does at its address before. -/
theorem Coherent.newDispatcher {s : DispatcherSystem} (h : s.Coherent) {dispatcher : Nat}
    (hfree : s.dispatcher? dispatcher = none) :
    Coherent { s with dispatcher? := Function.update s.dispatcher? dispatcher (some ∅) } := by
  have hsame : ∀ other callback, Lists
      { s with dispatcher? := Function.update s.dispatcher? dispatcher (some ∅) }
      other callback ↔ s.Lists other callback := by
    intro other callback
    simp only [Lists, Function.update_apply]
    split
    case isTrue heq =>
      subst heq
      simp only [hfree, Option.some.injEq, exists_eq_left', Finset.notMem_empty, reduceCtorEq,
        false_and, exists_false]
    case isFalse => rfl
  exact {
    lists := fun callback other hnamed => (hsame other callback).mpr (h.lists _ _ hnamed)
    names := fun other callback hdying hlisted =>
      h.names other callback hdying ((hsame other callback).mp hlisted)
    tracks := fun frame hframe => ⟨(h.tracks frame hframe).named, (h.tracks frame hframe).untold⟩
    above := h.above }

/-- A callback that no loop awaits is destroyed. -/
theorem Coherent.deleteCallback {s s' : DispatcherSystem} (h : s.Coherent) {callback : Nat}
    (hawaited : ¬ s.IsAwaited callback) (hstep : s.deleteCallback callback = some s') :
    s'.Coherent := by
  rw [DispatcherSystem.deleteCallback] at hstep
  split at hstep
  case h_1 => cases hstep
  case h_2 hnone =>
    obtain rfl := Option.some.inj hstep
    exact h.setCallback (not_names (Or.inr hnone)) fun other heq => by cases heq
  case h_3 dispatcher hnamed =>
    obtain ⟨-, hstep⟩ := Option.ite_none_right_eq_some.mp hstep
    obtain rfl := Option.some.inj hstep
    have hleft : (s.unSubscribe dispatcher callback).Coherent :=
      h.unSubscribe (fun other hother => hother.unique hnamed) hawaited
    refine hleft.setCallback (fun other hother => ?_) fun other heq => by cases heq
    exact ((names_unSubscribe dispatcher callback callback other).mp hother).1 rfl

/-! ## The loops -/

/-- The frames of the new stack make the same dispatchers die. -/
theorem isDying_iff {s s' : DispatcherSystem} {frame frame' : Frame} {below : List Frame}
    (hstack : s.stack = frame :: below) (hstack' : s'.stack = frame' :: below)
    (hdestructor : frame'.isDestructor = frame.isDestructor)
    (hdispatcher : frame'.dispatcher = frame.dispatcher) (dispatcher : Nat) :
    s'.IsDying dispatcher ↔ s.IsDying dispatcher := by
  rw [IsDying, IsDying, hstack, hstack', List.exists_mem_cons_iff, List.exists_mem_cons_iff,
    hdestructor, hdispatcher]

/-- The links survive a step of the innermost loop that keeps the sets, and makes only callbacks
of a dying dispatcher name none. -/
theorem Coherent.retop {s s' : DispatcherSystem} (h : s.Coherent) {frame frame' : Frame}
    {below : List Frame} (hstack : s.stack = frame :: below) (hstack' : s'.stack = frame' :: below)
    (hdestructor : frame'.isDestructor = frame.isDestructor)
    (hdispatcher : frame'.dispatcher = frame.dispatcher)
    (hsets : s'.dispatcher? = s.dispatcher?)
    (hold : ∀ callback dispatcher, s'.Names callback dispatcher → s.Names callback dispatcher)
    (hnew : ∀ callback dispatcher, ¬ s.IsDying dispatcher → s.Names callback dispatcher →
      s'.Names callback dispatcher)
    (htop : s'.Tracks frame') (hbelow : ∀ lower ∈ below, s'.Tracks lower) : s'.Coherent := by
  have hlists : ∀ dispatcher callback,
      s'.Lists dispatcher callback ↔ s.Lists dispatcher callback := by
    intro dispatcher callback
    rw [Lists, Lists, hsets]
  constructor
  case lists =>
    intro callback dispatcher hnamed
    rw [hlists]
    exact h.lists _ _ (hold _ _ hnamed)
  case names =>
    intro dispatcher callback hdying hlisted
    rw [isDying_iff hstack hstack' hdestructor hdispatcher] at hdying
    exact hnew _ _ hdying (h.names _ _ hdying ((hlists _ _).mp hlisted))
  case tracks =>
    rw [hstack']
    exact List.forall_mem_cons.mpr ⟨htop, hbelow⟩
  case above =>
    have habove := h.above
    rw [hstack, List.pairwise_cons] at habove
    rw [hstack', List.pairwise_cons]
    refine ⟨fun lower hlower => ?_, habove.2⟩
    rw [Above, hdestructor, hdispatcher]
    exact habove.1 lower hlower

/-- A callback is visited by a broadcast. -/
theorem Coherent.notify_broadcast {s : DispatcherSystem} (h : s.Coherent) {frame : Frame}
    {below : List Frame} {callback : Nat} (hstack : s.stack = frame :: below)
    (hbroadcast : frame.isDestructor = false) : (s.notify frame below callback).Coherent := by
  have hsame : ∀ other dispatcher,
      (s.notify frame below callback).Names other dispatcher ↔ s.Names other dispatcher := by
    intro other dispatcher
    simp only [Names, DispatcherSystem.notify, hbroadcast, Bool.false_eq_true, if_false]
  refine h.retop hstack rfl rfl rfl ?_ (fun other dispatcher => (hsame other dispatcher).mp)
    (fun other dispatcher _ => (hsame other dispatcher).mpr) ⟨fun other hother => ?_, ?_⟩ ?_
  · simp only [DispatcherSystem.notify, hbroadcast, Bool.false_eq_true, if_false]
  · rw [hsame]
    have hframe : frame ∈ s.stack := hstack ▸ List.mem_cons_self
    exact h.names_of_awaited hframe (Finset.mem_erase.mp hother).2
  · intro hdestructor
    rw [hbroadcast] at hdestructor
    cases hdestructor
  · intro lower hlower
    obtain ⟨hnamed, huntold⟩ := h.tracks lower (hstack ▸ List.mem_cons_of_mem _ hlower)
    refine ⟨fun other hother => ?_, fun hdestructor other hother => ?_⟩
    · rw [hsame]
      exact hnamed other hother
    · exact huntold hdestructor other ((hsame _ _).mp hother)

/-- A callback is told of the destruction of its dispatcher, and names it no longer. -/
theorem Coherent.notify_destructor {s : DispatcherSystem} (h : s.Coherent) {frame : Frame}
    {below : List Frame} {callback : Nat} (hstack : s.stack = frame :: below)
    (hdestructor : frame.isDestructor = true) (hmem : callback ∈ frame.callbacksCopy) :
    (s.notify frame below callback).Coherent := by
  have hframe : frame ∈ s.stack := hstack ▸ List.mem_cons_self
  have hnamed : s.Names callback frame.dispatcher := h.names_of_awaited hframe hmem
  have hsame : ∀ other dispatcher, (s.notify frame below callback).Names other dispatcher ↔
      other ≠ callback ∧ s.Names other dispatcher := by
    intro other dispatcher
    have heq := names_setDispatcher s callback other dispatcher none
    simp only [reduceCtorEq, and_false] at heq
    simp only [Names, DispatcherSystem.notify, hdestructor, if_true] at heq ⊢
    rw [heq]
    split
    case isTrue heq => simp only [heq, ne_eq, not_true, false_and]
    case isFalse hne => exact (and_iff_right hne).symm
  refine h.retop hstack rfl rfl rfl ?_ (fun other dispatcher hother =>
    ((hsame other dispatcher).mp hother).2) (fun other dispatcher hdying hother => ?_)
    ⟨fun other hother => ?_, fun _ other hother => ?_⟩ fun lower hlower => ?_
  · simp only [DispatcherSystem.notify, hdestructor, if_true]
    rfl
  · rw [hsame]
    refine ⟨fun heq => hdying ?_, hother⟩
    subst heq
    exact hother.unique hnamed ▸ isDying_of_mem hframe hdestructor
  · rw [hsame]
    obtain ⟨hne, hother⟩ := Finset.mem_erase.mp hother
    exact ⟨hne, h.names_of_awaited hframe hother⟩
  · obtain ⟨hne, hother⟩ := (hsame _ _).mp hother
    exact Finset.mem_erase.mpr ⟨hne, (h.tracks frame hframe).untold hdestructor other hother⟩
  · -- the loops below that are of the dispatcher visit no more callbacks
    have habove := h.above
    rw [hstack, List.pairwise_cons] at habove
    obtain ⟨hlowerNamed, huntold⟩ := h.tracks lower (hstack ▸ List.mem_cons_of_mem _ hlower)
    refine ⟨fun other hother => ?_, fun hdestructor other hother => ?_⟩
    · rw [hsame]
      refine ⟨fun heq => ?_, hlowerNamed other hother⟩
      subst heq
      have hsameDispatcher := (hlowerNamed other hother).unique hnamed
      have hempty := (habove.1 lower hlower hdestructor hsameDispatcher).1
      rw [hempty] at hother
      exact Finset.notMem_empty other hother
    · exact huntold hdestructor other ((hsame _ _).mp hother).2

/-- The handler returns. -/
theorem Coherent.returns {s : DispatcherSystem} (h : s.Coherent) {frame : Frame}
    {below : List Frame} (hstack : s.stack = frame :: below) :
    Coherent { s with stack := { frame with isCalling := false } :: below } := by
  have htracks : ∀ other ∈ s.stack, s.Tracks other := h.tracks
  rw [hstack] at htracks
  obtain ⟨htop, hbelow⟩ := List.forall_mem_cons.mp htracks
  exact h.retop hstack rfl rfl rfl rfl (fun _ _ hother => hother) (fun _ _ _ hother => hother)
    ⟨htop.named, htop.untold⟩ fun lower hlower =>
      ⟨(hbelow lower hlower).named, (hbelow lower hlower).untold⟩

/-- A loop that has ended leaves the links of the others. -/
theorem Coherent.finish {s : DispatcherSystem} (h : s.Coherent) {frame : Frame}
    {below : List Frame} (hstack : s.stack = frame :: below)
    (hempty : frame.callbacksCopy = ∅) : (s.finish frame below).Coherent := by
  have hframe : frame ∈ s.stack := hstack ▸ List.mem_cons_self
  have hbelow : ∀ lower ∈ below, lower ∈ s.stack := fun lower hlower =>
    hstack ▸ List.mem_cons_of_mem _ hlower
  have hlists : ∀ dispatcher callback, (s.finish frame below).Lists dispatcher callback ↔
      s.Lists dispatcher callback ∧ ¬ (frame.isDestructor = true ∧ dispatcher = frame.dispatcher)
      := by
    intro dispatcher callback
    simp only [Lists, DispatcherSystem.finish]
    by_cases hdestructor : frame.isDestructor = true
    · simp only [hdestructor, if_true, Function.update_apply, true_and]
      split
      case isTrue heq => simp only [reduceCtorEq, false_and, exists_false, heq, not_true, and_false]
      case isFalse hne => simp only [hne, not_false_iff, and_true]
    · simp only [hdestructor, if_false, false_and, not_false_iff, and_true, Bool.false_eq_true]
  constructor
  case lists =>
    intro callback dispatcher hnamed
    rw [hlists]
    refine ⟨h.lists _ _ hnamed, fun hdies => ?_⟩
    have hmem := (h.tracks frame hframe).untold hdies.1 callback (hdies.2 ▸ hnamed)
    rw [hempty] at hmem
    exact Finset.notMem_empty callback hmem
  case names =>
    intro dispatcher callback hdying hlisted
    obtain ⟨hlisted, hlives⟩ := (hlists _ _).mp hlisted
    refine h.names _ _ (fun hwas => ?_) hlisted
    obtain ⟨other, hother, hdestructor, heq⟩ := hwas
    rw [hstack] at hother
    rcases List.mem_cons.mp hother with rfl | hother
    · exact hlives ⟨hdestructor, heq.symm⟩
    · exact hdying ⟨other, hother, hdestructor, heq⟩
  case tracks =>
    intro lower hlower
    obtain ⟨hnamed, huntold⟩ := h.tracks lower (hbelow lower hlower)
    exact ⟨hnamed, huntold⟩
  case above =>
    have habove := h.above
    rw [hstack, List.pairwise_cons] at habove
    exact habove.2

/-- A loop begins with a copy of the callbacks that name the dispatcher. -/
theorem Coherent.copy {s s' : DispatcherSystem} (h : s.Coherent) {isDestructor : Bool}
    {dispatcher : Nat} (hstep : s.copy isDestructor dispatcher = some s')
    (hnamed : ∀ callback, s.Lists dispatcher callback → s.Names callback dispatcher)
    (habove : isDestructor = true → ∀ frame ∈ s.stack, frame.dispatcher = dispatcher →
      frame.callbacksCopy = ∅ ∧ frame.isDestructor = false) : s'.Coherent := by
  obtain ⟨callbacks, hcallbacks, rfl⟩ := Option.map_eq_some_iff.mp hstep
  constructor
  case lists => exact h.lists
  case names =>
    intro other callback hdying hlisted
    refine h.names other callback (fun hwas => hdying ?_) hlisted
    obtain ⟨frame, hframe, hdies⟩ := hwas
    exact ⟨frame, List.mem_cons_of_mem _ hframe, hdies⟩
  case tracks =>
    refine List.forall_mem_cons.mpr ⟨⟨fun callback hmem => ?_, fun _ callback hother => ?_⟩, ?_⟩
    · exact hnamed callback ⟨callbacks, hcallbacks, hmem⟩
    · obtain ⟨members, hmembers, hmem⟩ := h.lists _ _ hother
      obtain rfl := Option.some.inj (hcallbacks.symm.trans hmembers)
      exact hmem
    · exact fun frame hframe => ⟨(h.tracks frame hframe).named, (h.tracks frame hframe).untold⟩
  case above =>
    refine List.pairwise_cons.mpr ⟨fun lower hlower hdestructor heq => ?_, h.above⟩
    exact habove hdestructor lower hlower heq

/-! ## The runs -/

/-- Every call keeps the links, where it keeps the copies. -/
theorem Coherent.call {s s' : DispatcherSystem} {a : DispatcherAction} (h : s.Coherent)
    (hkeeps : s.KeepsCopies a) (hstep : s.call a = some s') : s'.Coherent := by
  cases a with
  | newCallback callback =>
      obtain ⟨hfree, hstep⟩ := Option.ite_none_left_eq_some.mp hstep
      obtain rfl := Option.some.inj hstep
      rw [Option.not_isSome_iff_eq_none] at hfree
      exact h.setCallback (not_names (Or.inl hfree)) fun other heq => by cases heq
  | newDispatcher dispatcher =>
      obtain ⟨hfree, hstep⟩ := Option.ite_none_left_eq_some.mp hstep
      obtain rfl := Option.some.inj hstep
      exact h.newDispatcher (Option.not_isSome_iff_eq_none.mp hfree)
  | subscribe dispatcher callback =>
      obtain ⟨⟨hdispatcher, hcallback⟩, hstep⟩ := Option.ite_none_right_eq_some.mp hstep
      obtain rfl := Option.some.inj hstep
      exact h.subscribe hdispatcher hcallback hkeeps
  | unSubscribe dispatcher callback =>
      obtain ⟨-, hstep⟩ := Option.ite_none_right_eq_some.mp hstep
      obtain rfl := Option.some.inj hstep
      refine h.unSubscribe (fun other hother => ?_) hkeeps.2
      rcases hkeeps.1 with hnone | hown
      · exact absurd hother (not_names (Or.inr hnone) other)
      · exact hother.unique hown
  | broadcast dispatcher =>
      refine h.copy hstep (fun callback hlisted => ?_) fun hdestructor => by cases hdestructor
      by_cases hdying : s.IsDying dispatcher
      · obtain ⟨frame, hframe, hdestructor, rfl⟩ := hdying
        obtain ⟨callbacks, hcallbacks, hmem⟩ := hlisted
        exact h.names_of_awaited hframe (hkeeps frame hframe hdestructor rfl _ hcallbacks hmem)
      · exact h.names _ _ hdying hlisted
  | deleteCallback callback => exact h.deleteCallback hkeeps hstep
  | deleteDispatcher dispatcher =>
      obtain ⟨hdying, hstep⟩ := Option.ite_none_left_eq_some.mp hstep
      refine h.copy hstep (fun callback => h.names _ _ hdying) fun _ frame hframe heq => ?_
      refine ⟨hkeeps frame hframe heq, Bool.eq_false_iff.mpr fun hdestructor => ?_⟩
      exact hdying ⟨frame, hframe, hdestructor, heq⟩
  | notify => cases hstep
  | returns => cases hstep
  | finish => cases hstep

/-- Every step of the innermost loop keeps the links. -/
theorem Coherent.goOn {s s' : DispatcherSystem} {a : DispatcherAction} (h : s.Coherent)
    (hstep : s.goOn a = some s') : s'.Coherent := by
  unfold DispatcherSystem.goOn at hstep
  split at hstep
  case h_1 callback =>
    split at hstep
    case h_1 => cases hstep
    case h_2 frame below hstack =>
      obtain ⟨⟨-, hmem⟩, hstep⟩ := Option.ite_none_right_eq_some.mp hstep
      obtain rfl := Option.some.inj hstep
      cases hdestructor : frame.isDestructor with
      | false => exact h.notify_broadcast hstack hdestructor
      | true => exact h.notify_destructor hstack hdestructor hmem
  case h_2 =>
    split at hstep
    case h_1 => cases hstep
    case h_2 frame below hstack =>
      obtain ⟨-, hstep⟩ := Option.ite_none_right_eq_some.mp hstep
      obtain rfl := Option.some.inj hstep
      exact h.returns hstack
  case h_3 =>
    split at hstep
    case h_1 => cases hstep
    case h_2 frame below hstack =>
      obtain ⟨⟨-, hempty⟩, hstep⟩ := Option.ite_none_right_eq_some.mp hstep
      obtain rfl := Option.some.inj hstep
      exact h.finish hstack hempty
  case h_4 => cases hstep

/-- Every step keeps the links, where it keeps the copies. -/
theorem Coherent.step {s s' : DispatcherSystem} {a : DispatcherAction} (h : s.Coherent)
    (hkeeps : s.KeepsCopies a) (hstep : s.step a = some s') : s'.Coherent := by
  unfold DispatcherSystem.step at hstep
  split at hstep
  case h_4 =>
    obtain ⟨-, hstep⟩ := Option.ite_none_right_eq_some.mp hstep
    exact h.call hkeeps hstep
  all_goals exact h.goOn hstep

/-- In every run that keeps the copies, only subscribed callbacks are notified and the pointers
of both sides agree. -/
theorem dispatcher_isConsistent {s : DispatcherSystem}
    (h : dispatcherMachine.ReachedBy KeepsCopies s) : s.IsConsistent := by
  refine Coherent.isConsistent (Machine.ReachedBy.invariant (I := Coherent) ?_ ?_ h)
  · rintro s rfl
    exact coherent_initial
  · exact fun s a s' hs hkeeps hstep => hs.step hkeeps hstep

/-- Two callbacks of a broadcast whose handlers destroy the one, subscribe a third callback and
broadcast again, and the destruction of the dispatcher. -/
def keptLabels : List DispatcherAction :=
  [.newDispatcher 5, .newCallback 1, .newCallback 2, .newCallback 3, .subscribe 5 1,
    .subscribe 5 2, .subscribe 5 1, .broadcast 5, .notify 1, .deleteCallback 1, .subscribe 5 3,
    .returns, .notify 2, .broadcast 5, .notify 3, .returns, .notify 2, .returns, .finish,
    .returns, .finish, .unSubscribe 5 2, .deleteDispatcher 5, .notify 3]

/-- The destructor has told the third callback, which is the only one that is left. -/
theorem dispatcher_isConsistent_keptLabels :
    ∃ s, dispatcherMachine.run .initial keptLabels = some s ∧ s.callback? 3 = some none ∧
      s.IsConsistent := by
  have hrun : dispatcherMachine.run .initial keptLabels = some _ := rfl
  have hadmits : dispatcherMachine.Admits KeepsCopies .initial keptLabels := by decide
  exact ⟨_, hrun, rfl, dispatcher_isConsistent (Machine.ReachedBy.run (.start rfl) hadmits hrun)⟩

/-- A handler unsubscribes a callback and destroys it, and the broadcast notifies it; a callback
that is subscribed twice is left in the set of a dispatcher that it does not name. -/
theorem dispatcher_isConsistent_fails :
    (∃ s frame s', dispatcherMachine.Reached s ∧ s.stack = [frame] ∧
      s.callback? 2 = none ∧ s.step (.notify 2) = some s' ∧ ¬ s.IsConsistent) ∧
    ∃ s, dispatcherMachine.Reached s ∧ s.stack = [] ∧ ¬ s.IsConsistent := by
  have hdestroyed : dispatcherMachine.run .initial
      [.newDispatcher 5, .newCallback 1, .newCallback 2, .subscribe 5 1, .subscribe 5 2,
        .broadcast 5, .notify 1, .deleteCallback 2, .returns] = some _ := rfl
  have htwice : dispatcherMachine.run .initial
      [.newDispatcher 5, .newDispatcher 6, .newCallback 1, .subscribe 5 1, .subscribe 6 1] =
      some _ := rfl
  refine ⟨⟨_, _, _, Machine.Reached.run (.start rfl) hdestroyed, rfl, rfl, rfl, fun h => ?_⟩,
    ⟨_, Machine.Reached.run (.start rfl) htwice, rfl, fun h => ?_⟩⟩
  · obtain ⟨hnames, -⟩ := h.notified _ _ 2 _ rfl rfl
    cases hnames
  · have hnames := (h.linked 5 1 (by decide)).mp ⟨_, rfl, by decide⟩
    cases hnames

end DispatcherSystem

end Framework
end InfinityLabs
