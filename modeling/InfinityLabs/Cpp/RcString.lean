import InfinityLabs.Lib.Runs
import Mathlib.Algebra.Group.Nat.Defs

/-!
# The reference-counted string

`cpp/src/rc_string.cpp`: strings share a representation until one of them is indexed for
writing.  A representation is known by its place in the list of all that were made; an access to
one that was deleted, or beyond its characters, is undefined.
-/

namespace InfinityLabs
namespace Cpp

open Lib

/-! ## Representations -/

/-- An `RCImp`: its counter, a `std::size_t`, its characters up to and with the terminating zero,
and how often it was deleted. -/
structure RCImp where
  count : Nat
  str : List Nat
  deletions : Nat
  deriving DecidableEq, Repr

/-- The representations that were made. -/
abbrev RcMemory := List RCImp

namespace RcMemory

variable (m : RcMemory)

/-- The representation behind a pointer. -/
def deref (rc : Nat) : Option RCImp := (m[rc]?).filter fun imp => imp.deletions == 0

/-- `IsShared`. -/
def isShared (rc : Nat) : Option Bool := (m.deref rc).map fun imp => decide (1 < imp.count)

/-- `IncNShare`. -/
def incNShare (rc : Nat) : Option RcMemory :=
  (m.deref rc).map fun imp => m.set rc { imp with count := (imp.count + 1) % 2 ^ 64 }

/-- `DecOrDel`. -/
def decOrDel (rc : Nat) : Option RcMemory :=
  (m.deref rc).map fun imp =>
    if 1 < imp.count then m.set rc { imp with count := imp.count - 1 }
    else m.set rc { imp with deletions := imp.deletions + 1 }

/-- `CreateMRC`, with whether there is memory; `strlen` needs a terminating zero. -/
def createMRC (src : List Nat) (allocated : Bool) : Option (Option (RcMemory × Nat)) :=
  (src.idxOf? 0).map fun length =>
    if allocated then
      some (m ++ [{ count := 1, str := src.take length ++ [0], deletions := 0 }], m.length)
    else none

end RcMemory

/-! ## Strings -/

/-- A `char&` that `operator[]` returned: the string, and what it refers to. -/
structure RcRef where
  string : Nat
  rc : Nat
  idx : Nat
  deriving DecidableEq, Repr

/-- The representations, the strings that were constructed with what they point to while they
live, and the references. -/
structure RcState where
  memory : RcMemory
  strings : List (Option Nat)
  refs : List RcRef

/-- What a program does with strings.  A string that is constructed is the next in the list. -/
inductive RcAction where
  | construct (str : List Nat) (allocated : Bool)
  | copy (other : Nat)
  | assign (string other : Nat)
  | destroy (string : Nat)
  | index (string idx : Nat) (allocated : Bool)
  | get (string idx : Nat)
  | load (ref : Nat)
  | write (ref c : Nat)
  deriving DecidableEq, Repr

namespace RcState

variable (s : RcState)

/-- `sizeof(RCString)`. -/
def sizeofRCString : Nat := 8

/-- There is an address for one more string. -/
def HasRoom : Prop := sizeofRCString * (s.strings.countP Option.isSome + 1) ≤ 2 ^ 64

instance : Decidable s.HasRoom := inferInstanceAs (Decidable (_ ≤ _))

/-- What a live string points to. -/
def rc? (string : Nat) : Option Nat := (s.strings[string]?).join

/-- The reference that the non-constant `operator[]` returns, within the characters. -/
def refer (string rc idx : Nat) : Option RcState :=
  (s.memory.deref rc).bind fun imp =>
    if idx < imp.str.length then some { s with refs := s.refs ++ [⟨string, rc, idx⟩] } else none

/-- The non-constant `operator[]`; a throwing `operator new` leaves everything as it is. -/
def index (string idx : Nat) (allocated : Bool) : Option RcState := do
  let rc ← s.rc? string
  let shared ← s.memory.isShared rc
  if shared then
    let imp ← s.memory.deref rc
    match ← s.memory.createMRC imp.str allocated with
    | none => some s
    | some (memory, rc') =>
        let memory ← memory.decOrDel rc
        refer { s with memory, strings := s.strings.set string (some rc') } string rc' idx
  else s.refer string rc idx

/-- The constructor. -/
def construct (str : List Nat) (allocated : Bool) : Option RcState := do
  match ← s.memory.createMRC str allocated with
  | none => some s
  | some (memory, rc) =>
      if s.HasRoom then some { s with memory, strings := s.strings ++ [some rc] } else none

/-- The copy constructor. -/
def copy (other : Nat) : Option RcState := do
  let rc ← s.rc? other
  if s.HasRoom then
    let memory ← s.memory.incNShare rc
    some { s with memory, strings := s.strings ++ [some rc] }
  else none

/-- `operator=`. -/
def assign (string other : Nat) : Option RcState := do
  let rc ← s.rc? other
  let memory ← s.memory.incNShare rc
  let old ← s.rc? string
  let memory ← memory.decOrDel old
  some { s with memory, strings := s.strings.set string (some rc) }

/-- The destructor. -/
def destroy (string : Nat) : Option RcState := do
  let rc ← s.rc? string
  let memory ← s.memory.decOrDel rc
  some { s with memory, strings := s.strings.set string none }

/-- The constant `operator[]`. -/
def get (string idx : Nat) : Option Nat := do
  let rc ← s.rc? string
  let imp ← s.memory.deref rc
  imp.str[idx]?

/-- A read through a reference. -/
def load (ref : Nat) : Option Nat := do
  let r ← s.refs[ref]?
  let imp ← s.memory.deref r.rc
  imp.str[r.idx]?

/-- A write through a reference. -/
def write (ref c : Nat) : Option RcState := do
  let r ← s.refs[ref]?
  let imp ← s.memory.deref r.rc
  if r.idx < imp.str.length then
    some { s with memory := s.memory.set r.rc { imp with str := imp.str.set r.idx c } }
  else none

/-- A step of the program. -/
def step : RcAction → Option RcState
  | .construct str allocated => s.construct str allocated
  | .copy other => s.copy other
  | .assign string other => s.assign string other
  | .destroy string => s.destroy string
  | .index string idx allocated => s.index string idx allocated
  | .get string idx => (s.get string idx).map fun _ => s
  | .load ref => (s.load ref).map fun _ => s
  | .write ref c => s.write ref c

end RcState

/-- The runs of a program on strings. -/
def rcMachine : Machine RcState RcAction where
  start s := s = ⟨[], [], []⟩
  step := RcState.step

end Cpp
end InfinityLabs
