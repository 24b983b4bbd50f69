import InfinityLabs.Framework.PoolAccounting

/-!
# The handleton of the framework

`projects/final_project/framework/inc/handleton.hpp`.  Any number of threads call `GetInstance`,
and once an object has been constructed the program may exit and call `Destroy`; each load,
store, lock, unlock and construction is one step, and all steps are taken in any order.
`std::abort` ends the program.

`GetInstance` looks at the pointer, at the flag and, under the lock, at the pointer again, but
not at the flag, and `Destroy` does not lock.  A thread that is delayed between its look at the
flag and its second look at the pointer finds the pointer that `Destroy` has reset.
-/

namespace InfinityLabs
namespace Framework

open Lib

/-! ## The state -/

/-- Where a call of `GetInstance` is, with its `tmp` where it is not null. -/
inductive GetInstance where
  | loadInstance
  | loadIsDestroyed
  | lock
  | loadLocked
  | construct
  | store (tmp : Nat)
  | atexit (tmp : Nat)
  | unlock (tmp : Nat)
  | returned (tmp : Nat)
  deriving DecidableEq, Repr

/-- Where `Destroy` is, with its `tmp`; a program that is not exiting is not in it. -/
inductive Destroy where
  | idle
  | storeIsDestroyed (tmp : Option Nat)
  | storeNull (tmp : Option Nat)
  | delete (tmp : Option Nat)
  deriving DecidableEq, Repr

/-- A handleton.  `registered` counts the handlers that `atexit` has still to call.  Objects are
numbered in the order of their construction, and `constructed` counts them; `hasBegun` says
that `Destroy` has begun, and `isLate` that an object was constructed after that. -/
structure Handleton where
  instance? : Option Nat
  isDestroyed : Bool
  isLocked : Bool
  calls : List GetInstance
  destroy : Destroy
  registered : Nat
  constructed : Nat
  deleted : List Nat
  hasBegun : Bool
  isLate : Bool
  isAborted : Bool
  deriving DecidableEq, Repr

namespace Handleton

/-- Before the first call. -/
def initial : Handleton :=
  { instance? := none, isDestroyed := false, isLocked := false, calls := [], destroy := .idle,
    registered := 0, constructed := 0, deleted := [], hasBegun := false, isLate := false,
    isAborted := false }

end Handleton

/-! ## The steps -/

/-- A thread calls `GetInstance`, a call goes on, or `Destroy` begins or goes on. -/
inductive HandletonAction where
  | call
  | goOn (call : Nat)
  | destroy
  deriving DecidableEq, Repr

namespace Handleton

/-- The call goes on to another place. -/
def goTo (s : Handleton) (call : Nat) (place : GetInstance) : Handleton :=
  { s with calls := s.calls.set call place }

/-- The next step of a call of `GetInstance`. -/
def getInstance (s : Handleton) (call : Nat) : GetInstance → Option Handleton
  | .loadInstance =>
      match s.instance? with
      | none => some (s.goTo call .loadIsDestroyed)
      | some tmp => some (s.goTo call (.returned tmp))
  | .loadIsDestroyed =>
      if s.isDestroyed then some { s with isAborted := true }
      else some (s.goTo call .lock)
  | .lock => if s.isLocked then none else some { s.goTo call .loadLocked with isLocked := true }
  | .loadLocked =>
      match s.instance? with
      | none => some (s.goTo call .construct)
      | some tmp => some (s.goTo call (.unlock tmp))
  | .construct =>
      some { s.goTo call (.store s.constructed) with
        constructed := s.constructed + 1, isLate := s.isLate || s.hasBegun }
  | .store tmp => some { s.goTo call (.atexit tmp) with instance? := some tmp }
  | .atexit tmp => some { s.goTo call (.unlock tmp) with registered := s.registered + 1 }
  | .unlock tmp => some { s.goTo call (.returned tmp) with isLocked := false }
  | .returned _ => none

/-- The next step of `Destroy`. -/
def destroyStep (s : Handleton) : Option Handleton :=
  match s.destroy with
  | .idle =>
      if s.registered = 0 then none
      else some { s with
        registered := s.registered - 1, hasBegun := true,
        destroy := .storeIsDestroyed s.instance? }
  | .storeIsDestroyed tmp => some { s with isDestroyed := true, destroy := .storeNull tmp }
  | .storeNull tmp => some { s with instance? := none, destroy := .delete tmp }
  | .delete tmp => some { s with deleted := tmp.toList ++ s.deleted, destroy := .idle }

/-- A step. -/
def step (s : Handleton) (a : HandletonAction) : Option Handleton :=
  if s.isAborted then none
  else match a with
    | .call => some { s with calls := s.calls ++ [.loadInstance] }
    | .goOn call => s.calls[call]?.bind (s.getInstance call)
    | .destroy => s.destroyStep

end Handleton

/-- The runs that start before the first call. -/
def handletonMachine : Machine Handleton HandletonAction where
  start s := s = Handleton.initial
  step s a := s.step a

/-! ## The property -/

/-- At most one object is constructed and every call that returns gives it, and none is
constructed after `Destroy` has begun. -/
def Handleton.IsSingleton (s : Handleton) : Prop :=
  s.constructed ≤ 1 ∧ (∀ tmp, .returned tmp ∈ s.calls → tmp = 0 ∧ s.constructed = 1) ∧
    s.isLate = false

/-- The call has found the flag unset, and has still to load the pointer under the lock. -/
def GetInstance.isDelayed : GetInstance → Bool
  | .lock | .loadLocked => true
  | _ => false

/-- `Destroy` resets the pointer while no call is between its two looks at it. -/
def DestroysUndelayed (s : Handleton) : HandletonAction → Prop
  | .destroy =>
      match s.destroy with
      | .storeNull _ => ∀ call ∈ s.calls, call.isDelayed = false
      | _ => True
  | _ => True

instance (s : Handleton) (a : HandletonAction) : Decidable (DestroysUndelayed s a) := by
  unfold DestroysUndelayed
  split
  · split <;> infer_instance
  · infer_instance

/-! ## The stages of the object -/

/-- The life of the object, as the members of the handleton show it. -/
inductive Stage where
  | absent
  | constructed
  | stored
  | registered
  | exiting
  | flagged
  | reset
  | gone
  deriving DecidableEq, Repr

/-- `s_instance` at a stage. -/
def Stage.instance? : Stage → Option Nat
  | .absent | .constructed | .reset | .gone => none
  | .stored | .registered | .exiting | .flagged => some 0

/-- Where `Destroy` is at a stage. -/
def Stage.destroy : Stage → Destroy
  | .exiting => .storeIsDestroyed (some 0)
  | .flagged => .storeNull (some 0)
  | .reset => .delete (some 0)
  | _ => .idle

/-- `s_isDestroyed` at a stage. -/
def Stage.isDestroyed : Stage → Bool
  | .flagged | .reset | .gone => true
  | _ => false

/-- `Destroy` has begun at a stage. -/
def Stage.hasBegun : Stage → Bool
  | .exiting | .flagged | .reset | .gone => true
  | _ => false

/-- The handlers that are registered at a stage. -/
def Stage.handlers : Stage → Nat
  | .registered => 1
  | _ => 0

/-- The objects that are constructed at a stage. -/
def Stage.objects : Stage → Nat
  | .absent => 0
  | _ => 1

/-- The places at which a call may be at a stage. -/
def Stage.allows : Stage → GetInstance → Bool
  | _, .loadInstance | _, .loadIsDestroyed => true
  | stage, .lock => stage != .reset && stage != .gone
  | .absent, .loadLocked | .absent, .construct => true
  | .constructed, .store tmp => tmp == 0
  | .stored, .atexit tmp => tmp == 0
  | .registered, .loadLocked | .exiting, .loadLocked | .flagged, .loadLocked => true
  | .registered, .unlock tmp | .exiting, .unlock tmp | .flagged, .unlock tmp
  | .reset, .unlock tmp | .gone, .unlock tmp => tmp == 0
  | stage, .returned tmp => tmp == 0 && stage != .absent && stage != .constructed
  | _, _ => false

/-- The call is in the part that the mutex protects. -/
def GetInstance.isInside : GetInstance → Bool
  | .loadLocked | .construct | .store _ | .atexit _ | .unlock _ => true
  | _ => false

namespace Handleton

/-- The handleton is at the stage. -/
structure At (stage : Stage) (s : Handleton) : Prop where
  instance_eq : s.instance? = stage.instance?
  destroy_eq : s.destroy = stage.destroy
  isDestroyed_eq : s.isDestroyed = stage.isDestroyed
  hasBegun_eq : s.hasBegun = stage.hasBegun
  registered_eq : s.registered = stage.handlers
  constructed_eq : s.constructed = stage.objects
  notLate : s.isLate = false
  allows : ∀ call ∈ s.calls, stage.allows call = true
  inside_eq : s.calls.countP GetInstance.isInside = if s.isLocked then 1 else 0
  /-- The call that is making the object known holds the mutex. -/
  locked : stage = .constructed ∨ stage = .stored → s.isLocked = true

/-- A call that is inside is the only one. -/
theorem At.others_outside {stage : Stage} {s : Handleton} (h : At stage s)
    {c₁ c₂ : List GetInstance} {call : GetInstance} (hcalls : s.calls = c₁ ++ call :: c₂)
    (hinside : call.isInside = true) :
    s.isLocked = true ∧ ∀ other ∈ c₁ ++ c₂, other.isInside = false := by
  have hcount := h.inside_eq
  rw [hcalls, countP_take_out, if_pos hinside] at hcount
  split at hcount
  case isTrue hlocked =>
    refine ⟨hlocked, fun other hother => Bool.eq_false_iff.mpr fun heq => ?_⟩
    have hzero : (c₁ ++ c₂).countP GetInstance.isInside = 0 := by omega
    exact List.countP_eq_zero.mp hzero other hother heq
  case isFalse => omega

/-- A call is allowed at its place. -/
theorem At.allows_of_split {stage : Stage} {s : Handleton} (h : At stage s)
    {c₁ c₂ : List GetInstance} {call : GetInstance} (hcalls : s.calls = c₁ ++ call :: c₂) :
    stage.allows call = true ∧ ∀ other ∈ c₁ ++ c₂, stage.allows other = true := by
  have hallows := h.allows
  rw [hcalls] at hallows
  refine ⟨hallows call (List.mem_append_right _ List.mem_cons_self), fun other hother => ?_⟩
  exact hallows other (List.Sublist.append_left (List.sublist_cons_self call c₂) c₁ |>.subset
    hother)

/-- Where all others stay allowed, the calls are. -/
theorem allows_of_others {stage : Stage} {c₁ c₂ : List GetInstance} {call : GetInstance}
    (hcall : stage.allows call = true)
    (hothers : ∀ other ∈ c₁ ++ c₂, stage.allows other = true) :
    ∀ other ∈ c₁ ++ call :: c₂, stage.allows other = true := by
  intro other hother
  rcases List.mem_append.mp hother with hmem | hmem
  · exact hothers other (List.mem_append_left _ hmem)
  · rcases List.mem_cons.mp hmem with rfl | hmem
    · exact hcall
    · exact hothers other (List.mem_append_right _ hmem)

/-- A call goes on at the same stage, and stays inside or outside. -/
theorem At.setCall {stage : Stage} {s : Handleton} (h : At stage s) {c₁ c₂ : List GetInstance}
    {call call' : GetInstance} (hcalls : s.calls = c₁ ++ call :: c₂)
    (hallows : stage.allows call' = true) (hinside : call'.isInside = call.isInside) :
    At stage { s with calls := c₁ ++ call' :: c₂ } := by
  refine { h with allows := ?_, inside_eq := ?_ }
  · exact allows_of_others hallows (h.allows_of_split hcalls).2
  · have hcount := h.inside_eq
    rw [hcalls, countP_take_out] at hcount
    show (c₁ ++ call' :: c₂).countP GetInstance.isInside = _
    rw [countP_take_out, hinside]
    exact hcount

/-- What the calls allow at the next stage, when the one that is inside goes on. -/
theorem At.advance {stage : Stage} {s : Handleton} (h : At stage s)
    {c₁ c₂ : List GetInstance} {call : GetInstance} (hcalls : s.calls = c₁ ++ call :: c₂)
    (hinside : call.isInside = true) (stage' : Stage) (call' : GetInstance)
    (hinside' : call'.isInside = true)
    (hallows : stage'.allows call' = true)
    (houtside : ∀ other : GetInstance, other.isInside = false → stage.allows other = true →
      stage'.allows other = true) :
    (∀ other ∈ c₁ ++ call' :: c₂, stage'.allows other = true) ∧
      (c₁ ++ call' :: c₂).countP GetInstance.isInside = (if s.isLocked then 1 else 0) ∧
      s.isLocked = true := by
  obtain ⟨hlocked, hothers⟩ := h.others_outside hcalls hinside
  refine ⟨?_, ?_, hlocked⟩
  · refine allows_of_others hallows fun other hother => ?_
    exact houtside other (hothers other hother) ((h.allows_of_split hcalls).2 other hother)
  · have hcount := h.inside_eq
    rw [hcalls, countP_take_out, if_pos hinside] at hcount
    rw [countP_take_out, if_pos hinside']
    exact hcount

/-- The next step of a call keeps the handleton at a stage. -/
theorem At.getInstance {stage : Stage} {s s' : Handleton} (h : At stage s)
    {place : Nat} {call : GetInstance} (hplace : s.calls[place]? = some call)
    (hstep : s.getInstance place call = some s') : ∃ stage', At stage' s' := by
  obtain ⟨c₁, c₂, hcalls, hset, -⟩ := exists_split_of_getElem? hplace
  obtain ⟨hallowed, hothers⟩ := h.allows_of_split hcalls
  cases call with
  | loadInstance =>
      rw [Handleton.getInstance] at hstep
      split at hstep
      case h_1 hnone =>
        obtain rfl := Option.some.inj hstep
        rw [goTo, hset]
        exact ⟨stage, h.setCall hcalls rfl rfl⟩
      case h_2 tmp hsome =>
        obtain rfl := Option.some.inj hstep
        rw [goTo, hset]
        refine ⟨stage, h.setCall hcalls ?_ rfl⟩
        rw [h.instance_eq] at hsome
        cases stage <;> cases hsome <;> rfl
  | loadIsDestroyed =>
      rw [Handleton.getInstance] at hstep
      split at hstep
      case isTrue =>
        obtain rfl := Option.some.inj hstep
        exact ⟨stage, { h with }⟩
      case isFalse hdestroyed =>
        obtain rfl := Option.some.inj hstep
        rw [goTo, hset]
        rw [h.isDestroyed_eq] at hdestroyed
        refine ⟨stage, h.setCall hcalls ?_ rfl⟩
        cases stage <;> first | rfl | exact absurd rfl hdestroyed
  | lock =>
      rw [Handleton.getInstance] at hstep
      split at hstep
      case isTrue => cases hstep
      case isFalse hunlocked =>
        obtain rfl := Option.some.inj hstep
        rw [goTo, hset]
        have hcount := h.inside_eq
        rw [hcalls, countP_take_out, if_neg hunlocked] at hcount
        refine ⟨stage, { h with allows := ?_, inside_eq := ?_, locked := fun _ => rfl }⟩
        · refine allows_of_others ?_ hothers
          cases stage with
          | constructed => exact absurd (h.locked (Or.inl rfl)) hunlocked
          | stored => exact absurd (h.locked (Or.inr rfl)) hunlocked
          | reset => cases hallowed
          | gone => cases hallowed
          | absent => rfl
          | registered => rfl
          | exiting => rfl
          | flagged => rfl
        · show (c₁ ++ .loadLocked :: c₂).countP GetInstance.isInside = 1
          rw [countP_take_out]
          simp only [GetInstance.isInside, if_true, Bool.false_eq_true, if_false] at hcount ⊢
          omega
  | loadLocked =>
      rw [Handleton.getInstance] at hstep
      split at hstep
      case h_1 hnone =>
        obtain rfl := Option.some.inj hstep
        rw [goTo, hset]
        rw [h.instance_eq] at hnone
        refine ⟨stage, h.setCall hcalls ?_ rfl⟩
        cases stage <;> first | rfl | (cases hnone; done) | cases hallowed
      case h_2 tmp hsome =>
        obtain rfl := Option.some.inj hstep
        rw [goTo, hset]
        rw [h.instance_eq] at hsome
        refine ⟨stage, h.setCall hcalls ?_ rfl⟩
        cases stage <;> cases hsome <;> first | rfl | cases hallowed
  | construct =>
      obtain rfl : stage = .absent := by cases stage <;> first | rfl | cases hallowed
      obtain rfl := Option.some.inj hstep
      obtain ⟨hallows, hinside, hlocked⟩ := h.advance hcalls rfl .constructed
        (.store 0) rfl rfl fun other hout hother => by
          cases other <;>
            first | rfl | (cases hout; done) | simp [Stage.allows] at hother
      rw [goTo, hset, h.constructed_eq]
      exact ⟨.constructed, h.instance_eq, h.destroy_eq, h.isDestroyed_eq, h.hasBegun_eq,
        h.registered_eq, rfl, by rw [h.notLate, h.hasBegun_eq]; rfl, hallows, hinside,
        fun _ => hlocked⟩
  | store tmp =>
      obtain ⟨rfl, rfl⟩ : stage = .constructed ∧ tmp = 0 := by
        cases stage <;> first | exact ⟨rfl, beq_iff_eq.mp hallowed⟩ | cases hallowed
      obtain rfl := Option.some.inj hstep
      obtain ⟨hallows, hinside, hlocked⟩ := h.advance hcalls rfl .stored
        (.atexit 0) rfl rfl fun other hout hother => by
          cases other <;>
            first | rfl | (cases hout; done) | simp [Stage.allows] at hother
      rw [goTo, hset]
      exact ⟨.stored, rfl, h.destroy_eq, h.isDestroyed_eq, h.hasBegun_eq,
        h.registered_eq, h.constructed_eq, h.notLate, hallows, hinside, fun _ => hlocked⟩
  | atexit tmp =>
      obtain ⟨rfl, rfl⟩ : stage = .stored ∧ tmp = 0 := by
        cases stage <;> first | exact ⟨rfl, beq_iff_eq.mp hallowed⟩ | cases hallowed
      obtain rfl := Option.some.inj hstep
      obtain ⟨hallows, hinside, -⟩ := h.advance hcalls rfl .registered
        (.unlock 0) rfl rfl fun other hout hother => by
          cases other <;> first | exact hother | cases hout
      rw [goTo, hset, h.registered_eq]
      exact ⟨.registered, h.instance_eq, h.destroy_eq, h.isDestroyed_eq, h.hasBegun_eq,
        rfl, h.constructed_eq, h.notLate, hallows, hinside, fun hmaking => by
          rcases hmaking with heq | heq <;> cases heq⟩
  | unlock tmp =>
      obtain rfl := Option.some.inj hstep
      obtain ⟨-, houtside⟩ := h.others_outside hcalls rfl
      rw [goTo, hset]
      refine ⟨stage, { h with allows := ?_, inside_eq := ?_, locked := ?_ }⟩
      · refine allows_of_others ?_ hothers
        cases stage <;> first | cases hallowed | simpa [Stage.allows] using hallowed
      · show (c₁ ++ .returned tmp :: c₂).countP GetInstance.isInside = 0
        rw [countP_take_out, List.countP_eq_zero.mpr fun other hother => by
          rw [houtside other hother]; exact Bool.false_ne_true]
        rfl
      · rintro (rfl | rfl) <;> cases hallowed
  | returned tmp => cases hstep

/-- The next step of `Destroy` keeps the handleton at a stage, where no call is delayed. -/
theorem At.destroyStep {stage : Stage} {s s' : Handleton} (h : At stage s)
    (hundelayed : DestroysUndelayed s .destroy) (hstep : s.destroyStep = some s') :
    ∃ stage', At stage' s' := by
  have hdestroy := h.destroy_eq
  rw [Handleton.destroyStep] at hstep
  rw [DestroysUndelayed] at hundelayed
  cases stage with
  | absent =>
      rw [hdestroy] at hstep
      simp only [Stage.destroy, h.registered_eq, Stage.handlers, if_true] at hstep
      cases hstep
  | constructed =>
      rw [hdestroy] at hstep
      simp only [Stage.destroy, h.registered_eq, Stage.handlers, if_true] at hstep
      cases hstep
  | stored =>
      rw [hdestroy] at hstep
      simp only [Stage.destroy, h.registered_eq, Stage.handlers, if_true] at hstep
      cases hstep
  | gone =>
      rw [hdestroy] at hstep
      simp only [Stage.destroy, h.registered_eq, Stage.handlers, if_true] at hstep
      cases hstep
  | registered =>
      rw [hdestroy] at hstep
      simp only [Stage.destroy, h.registered_eq, Stage.handlers, Nat.one_ne_zero, if_false]
        at hstep
      obtain rfl := Option.some.inj hstep
      refine ⟨.exiting, h.instance_eq, congrArg _ h.instance_eq, h.isDestroyed_eq, rfl, rfl,
        h.constructed_eq, h.notLate, fun call hcall => ?_, h.inside_eq, fun hmaking => by
          rcases hmaking with heq | heq <;> cases heq⟩
      have hallowed := h.allows call hcall
      cases call <;> exact hallowed
  | exiting =>
      rw [hdestroy] at hstep
      obtain rfl := Option.some.inj hstep
      refine ⟨.flagged, h.instance_eq, rfl, rfl, h.hasBegun_eq, h.registered_eq,
        h.constructed_eq, h.notLate, fun call hcall => ?_, h.inside_eq, fun hmaking => by
          rcases hmaking with heq | heq <;> cases heq⟩
      have hallowed := h.allows call hcall
      cases call <;> exact hallowed
  | flagged =>
      rw [hdestroy] at hstep hundelayed
      obtain rfl := Option.some.inj hstep
      refine ⟨.reset, rfl, rfl, h.isDestroyed_eq, h.hasBegun_eq, h.registered_eq,
        h.constructed_eq, h.notLate, fun call hcall => ?_, h.inside_eq, fun hmaking => by
          rcases hmaking with heq | heq <;> cases heq⟩
      have hallowed := h.allows call hcall
      have hdelayed := hundelayed call hcall
      cases call <;> first | exact hallowed | (cases hallowed; done) | cases hdelayed
  | reset =>
      rw [hdestroy] at hstep
      obtain rfl := Option.some.inj hstep
      refine ⟨.gone, h.instance_eq, rfl, h.isDestroyed_eq, h.hasBegun_eq, h.registered_eq,
        h.constructed_eq, h.notLate, fun call hcall => ?_, h.inside_eq, fun hmaking => by
          rcases hmaking with heq | heq <;> cases heq⟩
      have hallowed := h.allows call hcall
      cases call <;> exact hallowed

/-- A new call is allowed at every stage. -/
theorem At.call {stage : Stage} {s : Handleton} (h : At stage s) :
    At stage { s with calls := s.calls ++ [.loadInstance] } := by
  refine { h with allows := forall_mem_concat h.allows ?_, inside_eq := ?_ }
  · cases stage <;> rfl
  · show (s.calls ++ [GetInstance.loadInstance]).countP GetInstance.isInside = _
    rw [List.countP_append]
    exact h.inside_eq

/-- Every step keeps the handleton at a stage, where `Destroy` meets no delayed call. -/
theorem At.step {stage : Stage} {s s' : Handleton} {a : HandletonAction} (h : At stage s)
    (hundelayed : DestroysUndelayed s a) (hstep : s.step a = some s') :
    ∃ stage', At stage' s' := by
  unfold Handleton.step at hstep
  rw [Option.ite_none_left_eq_some] at hstep
  obtain ⟨-, hstep⟩ := hstep
  cases a with
  | call =>
      obtain rfl := Option.some.inj hstep
      exact ⟨stage, h.call⟩
  | goOn place =>
      obtain ⟨call, hplace, hcall⟩ := Option.bind_eq_some_iff.mp hstep
      exact h.getInstance hplace hcall
  | destroy => exact h.destroyStep hundelayed hstep

theorem at_initial : At .absent initial :=
  ⟨rfl, rfl, rfl, rfl, rfl, rfl, rfl, fun call hcall => absurd hcall List.not_mem_nil, rfl,
    fun hmaking => by rcases hmaking with heq | heq <;> cases heq⟩

/-- At every stage there is one object at most, and the calls that return give it. -/
theorem At.isSingleton {stage : Stage} {s : Handleton} (h : At stage s) : s.IsSingleton := by
  refine ⟨?_, fun tmp hcall => ?_, h.notLate⟩
  · rw [h.constructed_eq]
    cases stage <;> decide
  · have hallowed := h.allows _ hcall
    rw [h.constructed_eq]
    cases stage <;>
      first
      | exact ⟨by simp [Stage.allows] at hallowed; exact hallowed, rfl⟩
      | simp [Stage.allows] at hallowed

/-! ## The delayed calls -/

/-- An object may still be constructed after `Destroy` has begun. -/
def MayBeLate (s : Handleton) : Prop :=
  ∃ labels s', handletonMachine.run s labels = some s' ∧ s'.isLate = true

/-- What may happen after a step may happen. -/
theorem MayBeLate.of_step {s t : Handleton} {a : HandletonAction} (h : t.MayBeLate)
    (hstep : s.step a = some t) : s.MayBeLate := by
  obtain ⟨labels, s', hrun, hlate⟩ := h
  refine ⟨a :: labels, s', ?_, hlate⟩
  have hfirst : handletonMachine.step s a = some t := hstep
  rw [Machine.run, hfirst]
  exact hrun

/-- A program that is not aborted goes on with any of its calls. -/
theorem step_goOn {s : Handleton} (hgoes : s.isAborted = false) {place : Nat}
    {call : GetInstance} (hplace : s.calls[place]? = some call) :
    s.step (.goOn place) = s.getInstance place call := by
  unfold Handleton.step
  rw [hgoes, if_neg Bool.false_ne_true]
  simp only [hplace, Option.bind_some]

/-- Only the null pointer is left of the object. -/
structure IsReset (s : Handleton) : Prop where
  goes : s.isAborted = false
  instance_eq : s.instance? = none
  hasBegun : s.hasBegun = true

/-- A call that is about to construct an object constructs it late. -/
theorem IsReset.mayBeLate_of_construct {s : Handleton} (h : s.IsReset) {place : Nat}
    (hplace : s.calls[place]? = some .construct) : s.MayBeLate := by
  have hlate : MayBeLate { s.goTo place (.store s.constructed) with
      constructed := s.constructed + 1, isLate := s.isLate || s.hasBegun } :=
    ⟨[], _, rfl, by rw [h.hasBegun, Bool.or_true]⟩
  exact hlate.of_step (step_goOn h.goes hplace)

/-- A call that has still to look at the pointer under the lock finds it null. -/
theorem IsReset.mayBeLate_of_loadLocked {s : Handleton} (h : s.IsReset) {place : Nat}
    (hplace : s.calls[place]? = some .loadLocked) : s.MayBeLate := by
  have hlt : place < s.calls.length := (List.getElem?_eq_some_iff.mp hplace).1
  have hnext : IsReset (s.goTo place .construct) := ⟨h.goes, h.instance_eq, h.hasBegun⟩
  have hlate := hnext.mayBeLate_of_construct (List.getElem?_set_self hlt)
  refine hlate.of_step ((step_goOn h.goes hplace).trans ?_)
  rw [Handleton.getInstance, h.instance_eq]

/-- A call that has still to lock the mutex locks it where nobody holds it. -/
theorem IsReset.mayBeLate_of_lock {s : Handleton} (h : s.IsReset)
    (hunlocked : s.isLocked = false) {place : Nat} (hplace : s.calls[place]? = some .lock) :
    s.MayBeLate := by
  have hlt : place < s.calls.length := (List.getElem?_eq_some_iff.mp hplace).1
  have hnext : IsReset { s.goTo place .loadLocked with isLocked := true } :=
    ⟨h.goes, h.instance_eq, h.hasBegun⟩
  have hlate := hnext.mayBeLate_of_loadLocked (List.getElem?_set_self hlt)
  refine hlate.of_step ((step_goOn h.goes hplace).trans ?_)
  rw [Handleton.getInstance, hunlocked, if_neg Bool.false_ne_true]

/-- It waits for a call that is about to unlock it. -/
theorem IsReset.mayBeLate_of_unlock {s : Handleton} (h : s.IsReset) {place other tmp : Nat}
    (hplace : s.calls[place]? = some .lock) (hother : s.calls[other]? = some (.unlock tmp)) :
    s.MayBeLate := by
  have hne : other ≠ place := by
    rintro rfl
    rw [hplace] at hother
    cases hother
  have hnext : IsReset { s.goTo other (.returned tmp) with isLocked := false } :=
    ⟨h.goes, h.instance_eq, h.hasBegun⟩
  have hwaits : (s.calls.set other (.returned tmp))[place]? = some .lock :=
    (List.getElem?_set_ne hne).trans hplace
  have hlate := hnext.mayBeLate_of_lock rfl hwaits
  exact hlate.of_step (step_goOn h.goes hother)

/-- Where a call is still delayed when `Destroy` resets the pointer, an object may be
constructed after it. -/
theorem At.mayBeLate {stage : Stage} {s s' : Handleton} (h : At stage s)
    (hdelayed : ¬ DestroysUndelayed s .destroy) (hstep : s.step .destroy = some s') :
    s'.MayBeLate := by
  unfold Handleton.step at hstep
  obtain ⟨hgoes, hstep⟩ := Option.ite_none_left_eq_some.mp hstep
  rw [Bool.not_eq_true] at hgoes
  simp only [DestroysUndelayed] at hdelayed
  simp only [Handleton.destroyStep] at hstep
  have hdestroy := h.destroy_eq
  cases stage with
  | flagged =>
      rw [hdestroy] at hstep hdelayed
      obtain rfl := Option.some.inj hstep
      simp only [Stage.destroy, not_forall, Bool.not_eq_false] at hdelayed
      obtain ⟨call, hmem, hcall⟩ := hdelayed
      obtain ⟨place, hplace⟩ := List.mem_iff_getElem?.mp hmem
      have hreset : IsReset { s with instance? := none, destroy := .delete (some 0) } :=
        ⟨hgoes, rfl, h.hasBegun_eq⟩
      cases call with
      | loadLocked => exact hreset.mayBeLate_of_loadLocked hplace
      | lock =>
          by_cases hlocked : s.isLocked = true
          case neg =>
            exact hreset.mayBeLate_of_lock (Bool.eq_false_iff.mpr hlocked) hplace
          case pos =>
            -- the call that holds the mutex is about to look at the pointer, or to unlock
            have hcount := h.inside_eq
            rw [hlocked, if_pos rfl] at hcount
            obtain ⟨other, hother, hinside⟩ :=
              List.countP_pos_iff.mp (Nat.lt_of_lt_of_eq Nat.zero_lt_one hcount.symm)
            obtain ⟨place', hplace'⟩ := List.mem_iff_getElem?.mp hother
            have hallowed := h.allows other hother
            cases other with
            | loadLocked => exact hreset.mayBeLate_of_loadLocked hplace'
            | unlock tmp => exact hreset.mayBeLate_of_unlock hplace hplace'
            | construct => cases hallowed
            | store => cases hallowed
            | atexit => cases hallowed
            | _ => cases hinside
      | _ => cases hcall
  | _ =>
      rw [hdestroy] at hdelayed
      exact absurd trivial hdelayed

/-! ## The runs -/

/-- In every run in which `Destroy` resets the pointer while no call is between its two looks
at it, the handleton is a singleton. -/
theorem handleton_isSingleton {s : Handleton}
    (h : handletonMachine.ReachedBy DestroysUndelayed s) : s.IsSingleton := by
  have hat : ∃ stage, At stage s := by
    refine Machine.ReachedBy.invariant (I := fun s => ∃ stage, At stage s) ?_ ?_ h
    · rintro s rfl
      exact ⟨.absent, at_initial⟩
    · rintro s a s' ⟨stage, hs⟩ hundelayed hstep
      exact hs.step hundelayed hstep
  obtain ⟨stage, hat⟩ := hat
  exact hat.isSingleton

/-- Two calls of which the second waits for the first, the program exits, and a third call
aborts it. -/
def undelayedLabels : List HandletonAction :=
  [.call, .call, .goOn 0, .goOn 1, .goOn 0, .goOn 1, .goOn 0, .goOn 0, .goOn 0, .goOn 0, .goOn 0,
    .goOn 0, .goOn 1, .goOn 1, .goOn 1, .destroy, .destroy, .destroy, .destroy, .call, .goOn 2,
    .goOn 2]

/-- Both calls have returned the same object. -/
theorem handleton_isSingleton_undelayedLabels :
    ∃ s, handletonMachine.run .initial undelayedLabels = some s ∧
      s.calls = [.returned 0, .returned 0, .loadIsDestroyed] ∧ s.IsSingleton := by
  have hrun : handletonMachine.run .initial undelayedLabels = some _ := rfl
  have hadmits : handletonMachine.Admits DestroysUndelayed .initial undelayedLabels := by decide
  exact ⟨_, hrun, rfl, handleton_isSingleton (Machine.ReachedBy.run (.start rfl) hadmits hrun)⟩

/-- A call that is delayed before the lock constructs a second object, after `Destroy`. -/
theorem handleton_isSingleton_fails :
    ∃ s, handletonMachine.Reached s ∧ s.constructed = 2 ∧ s.isLate = true ∧
      ¬ s.IsSingleton := by
  have hrun : handletonMachine.run .initial
      [.call, .call, .goOn 0, .goOn 0, .goOn 1, .goOn 1, .goOn 1, .goOn 1, .goOn 1, .goOn 1,
        .goOn 1, .goOn 1, .destroy, .destroy, .destroy, .destroy, .goOn 0, .goOn 0, .goOn 0] =
      some _ := rfl
  refine ⟨_, Machine.Reached.run (.start rfl) hrun, rfl, rfl, ?_⟩
  rintro ⟨hle, -, -⟩
  exact absurd hle (by decide)

end Handleton

end Framework
end InfinityLabs
