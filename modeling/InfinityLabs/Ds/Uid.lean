import Mathlib.Algebra.Group.Nat.Defs
import Mathlib.Tactic.Common

/-!
# Unique identifiers

`ds/src/uid.c`.  What the system tells `UIDCreate` (the time, the process, the address of
the first interface that is not the loopback) is a parameter; the counter is static.
-/

namespace InfinityLabs
namespace Ds

/-- `IP_LEN`, the length of an address in text. -/
def IP_LEN : Nat := 16

/-- An `ilrd_uid_t`. -/
structure Uid where
  counter : Nat
  timestamp : Int
  pid : Int
  ip : List UInt8
  deriving DecidableEq, Repr

/-- `UIDbadUID`. -/
def UIDbadUID : Uid := ⟨0, 0, 0, List.replicate IP_LEN 0⟩

/-- The characters that `strncmp` compares: up to a zero byte, and at most `n` of them. -/
def cString (n : Nat) (bytes : List UInt8) : List UInt8 :=
  (bytes.take n).takeWhile (· ≠ 0)

/-- `UIDIsSame`. -/
def uidIsSame (uid1 uid2 : Uid) : Int :=
  if uid1.counter = uid2.counter ∧ uid1.timestamp = uid2.timestamp ∧ uid1.pid = uid2.pid ∧
      cString IP_LEN uid1.ip = cString IP_LEN uid2.ip then 1
  else 0

/-- The text that `strncpy` leaves in a cleared `ip`. -/
def ipField (address : List UInt8) : List UInt8 :=
  let text := address.take (IP_LEN - 1)
  text ++ List.replicate (IP_LEN - text.length) 0

/-- `UIDCreate`, with the counter that it leaves.  `GetIPAddress` finds no address in
`none`. -/
def uidCreate (timestamp pid : Int) (address : Option (List UInt8)) (counter : Nat) :
    Uid × Nat :=
  let counter := (counter + 1) % 2 ^ 64
  match address with
  | none => (UIDbadUID, counter)
  | some address => (⟨counter, timestamp, pid, ipField address⟩, counter)

/-- The comparison answers 1 or 0. -/
theorem uidIsSame_eq (uid1 uid2 : Uid) : uidIsSame uid1 uid2 = 1 ∨ uidIsSame uid1 uid2 = 0 := by
  rw [uidIsSame]
  split
  · exact Or.inl rfl
  · exact Or.inr rfl

end Ds
end InfinityLabs
