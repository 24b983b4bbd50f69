import InfinityLabs.Lib.Ranks
import InfinityLabs.Lib.Runs
import Mathlib.Algebra.GroupWithZero.Nat

/-!
# The shared pointer

`cpp/inc/sharedptr.hpp`, over objects whose fields are shared pointers themselves: a program has
handles of its own, and every object has some.  To delete an object is to destroy its fields, the
last one first, and then to free it with its counter.  A handle is destroyed from the start of
its destructor on; to read a destroyed handle or a freed counter is undefined.
-/

namespace InfinityLabs
namespace Cpp

open Lib

/-! ## Objects -/

/-- What `m_ptr` and `m_refcount` of a `SharedPtr` are of: an object, or null. -/
abbrev SharedPtr := Option Nat

/-- An object with its counter, its fields, of which none are left when they are destroyed, and
how often it was deleted. -/
structure Object where
  refcount : Nat
  fields : List (Option SharedPtr)
  deletions : Nat
  deriving DecidableEq, Repr

/-- The destructors of the lowest `n` fields of an object, the last one first. -/
def destroyFields (release : List Object → Nat → Option (List Object)) (object : Nat) :
    Nat → List Object → Option (List Object)
  | 0, objects => some objects
  | n + 1, objects => do
      let obj ← objects[object]?
      let ptr ← (obj.fields[n]?).join
      let objects := objects.set object { obj with fields := obj.fields.set n none }
      let objects ← (match ptr with
        | none => some objects
        | some target => release objects target)
      destroyFields release object n objects

/-- What the destructor and `operator=` do with a pointer that is not null; `fuel` bounds the
destructors in progress. -/
def release : Nat → List Object → Nat → Option (List Object)
  | 0, _, _ => none
  | fuel + 1, objects, object => do
      let obj ← objects[object]?
      if obj.deletions ≠ 0 then none
      else
        let refcount := (obj.refcount + 2 ^ 64 - 1) % 2 ^ 64
        let objects := objects.set object { obj with refcount }
        if refcount = 0 then
          let objects ← destroyFields (release fuel) object obj.fields.length objects
          let obj ← objects[object]?
          some (objects.set object { obj with deletions := obj.deletions + 1 })
        else some objects

/-- What the copy constructor and `operator=` do with a pointer that is not null. -/
def acquire (objects : List Object) (object : Nat) : Option (List Object) := do
  let obj ← objects[object]?
  if obj.deletions ≠ 0 then none
  else some (objects.set object { obj with refcount := (obj.refcount + 1) % 2 ^ 64 })

/-! ## Handles -/

/-- Where a handle is: one of the program's own, or a field of an object. -/
inductive Place where
  | root (index : Nat)
  | field (object index : Nat)
  deriving DecidableEq, Repr

/-- The objects that were made, and the program's handles. -/
structure SharedState where
  objects : List Object
  roots : List (Option SharedPtr)

namespace SharedState

variable (s : SharedState)

/-- What a live handle holds. -/
def read : Place → Option SharedPtr
  | .root index => (s.roots[index]?).join
  | .field object index => (s.objects[object]?).bind fun obj => (obj.fields[index]?).join

/-- A live handle with another pointer. -/
def write (ptr : SharedPtr) : Place → Option SharedState
  | .root index =>
      ((s.roots[index]?).join).map fun _ => { s with roots := s.roots.set index (some ptr) }
  | .field object index =>
      (s.objects[object]?).bind fun obj => ((obj.fields[index]?).join).map fun _ =>
        { s with
          objects := s.objects.set object
            { obj with fields := obj.fields.set index (some ptr) } }

/-- `release` of a pointer that may be null; no more objects than there are can be in
destruction. -/
def releasePtr : SharedPtr → Option SharedState
  | none => some s
  | some object =>
      (release s.objects.length s.objects object).map fun objects => { s with objects }

/-- `acquire` of a pointer that may be null. -/
def acquirePtr : SharedPtr → Option SharedState
  | none => some s
  | some object => (acquire s.objects object).map fun objects => { s with objects }

/-- `sizeof(SharedPtr<T>)`. -/
def sizeofSharedPtr : Nat := 16

/-- The number of live handles. -/
def liveHandles : Nat :=
  s.roots.countP Option.isSome + (s.objects.map fun obj => obj.fields.countP Option.isSome).sum

/-- There are addresses for more handles. -/
def HasRoom (n : Nat) : Prop := sizeofSharedPtr * (s.liveHandles + n) ≤ 2 ^ 64

instance (n : Nat) : Decidable (s.HasRoom n) := inferInstanceAs (Decidable (_ ≤ _))

end SharedState

/-! ## Programs -/

/-- What a program does; a handle of its own that is constructed is the next in the list. -/
inductive SharedAction where
  | constructNull
  | construct (fields : Nat)
  | copy (other : Place)
  | destroy (index : Nat)
  | assign (place other : Place)
  deriving DecidableEq, Repr

namespace SharedState

variable (s : SharedState)

/-- The constructor, without a pointer. -/
def constructNull : Option SharedState :=
  if s.HasRoom 1 then some { s with roots := s.roots ++ [some none] } else none

/-- The constructor, with a new object whose fields hold null. -/
def construct (fields : Nat) : Option SharedState :=
  if s.HasRoom (fields + 1) then
    some
      { objects := s.objects ++
          [{ refcount := 1, fields := List.replicate fields (some none), deletions := 0 }]
        roots := s.roots ++ [some (some s.objects.length)] }
  else none

/-- The copy constructor. -/
def copy (other : Place) : Option SharedState := do
  let ptr ← s.read other
  if s.HasRoom 1 then
    ({ s with roots := s.roots ++ [some ptr] } : SharedState).acquirePtr ptr
  else none

/-- The destructor of one of the program's handles. -/
def destroy (index : Nat) : Option SharedState := do
  let ptr ← s.read (.root index)
  ({ s with roots := s.roots.set index none } : SharedState).releasePtr ptr

/-- `operator=`. -/
def assign (place other : Place) : Option SharedState :=
  if place = other then some s
  else do
    let old ← s.read place
    let s ← s.releasePtr old
    let ptr ← s.read other
    let s ← s.write ptr place
    s.acquirePtr ptr

/-- A step of the program. -/
def step : SharedAction → Option SharedState
  | .constructNull => s.constructNull
  | .construct fields => s.construct fields
  | .copy other => s.copy other
  | .destroy index => s.destroy index
  | .assign place other => s.assign place other

end SharedState

/-- The runs of a program. -/
def sharedMachine : Machine SharedState SharedAction where
  start s := s = ⟨[], []⟩
  step := SharedState.step

/-! ## The graph -/

/-- A field of an object holds another one. -/
def PointsTo (objects : List Object) (o target : Nat) : Prop :=
  ∃ obj, objects[o]? = some obj ∧ some (some target) ∈ obj.fields

/-- The step leaves the objects an acyclic graph. -/
def SharedState.KeepsAcyclic (s : SharedState) (a : SharedAction) : Prop :=
  ∀ s', s.step a = some s' → Acyclic (PointsTo s'.objects)

/-- An object that the program reaches without the handle at `place`. -/
inductive SharedState.Anchored (s : SharedState) (place : Place) : Nat → Prop
  | root {index object : Nat} (hne : .root index ≠ place)
      (hread : s.read (.root index) = some (some object)) : Anchored s place object
  | field {holder index object : Nat} (hholder : Anchored s place holder)
      (hne : .field holder index ≠ place)
      (hread : s.read (.field holder index) = some (some object)) : Anchored s place object

/-- The handle that is assigned from does not depend on the one that is assigned to. -/
def SharedState.Survives (s : SharedState) (place other : Place) : Prop :=
  place = other ∨ ∀ holder index, other = .field holder index → s.Anchored place holder

end Cpp
end InfinityLabs
