import Mathlib.Tactic.Common

/-!
# Cells

An array in memory is a list of cells.  A computation on it reads and writes one cell at a
time: outside the array it has no result.
-/

namespace InfinityLabs
namespace Lib

/-- Why a computation has no result. -/
inductive Fault where
  | outOfBounds
  | outOfFuel
  deriving DecidableEq, Repr

variable {α β : Type}

/-- The content of a cell. -/
def readCell (cells : List α) (i : Nat) : Except Fault α :=
  match cells[i]? with
  | none => .error .outOfBounds
  | some a => .ok a

/-- The cells after one has been written. -/
def writeCell (cells : List α) (i : Nat) (a : α) : Except Fault (List α) :=
  if i < cells.length then .ok (cells.set i a) else .error .outOfBounds

@[simp] theorem ok_bind (a : α) (f : α → Except Fault β) : (Except.ok a >>= f) = f a :=
  rfl

/-- A cell of the array is read. -/
theorem readCell_of_getElem? {cells : List α} {i : Nat} {a : α} (h : cells[i]? = some a) :
    readCell cells i = .ok a := by
  unfold readCell
  rw [h]

/-- A cell of the array is written. -/
theorem writeCell_of_lt {cells : List α} {i : Nat} (h : i < cells.length) (a : α) :
    writeCell cells i a = .ok (cells.set i a) :=
  if_pos h

/-- The cell between two parts of the array is read. -/
theorem readCell_split {l r : List α} {i : Nat} (a : α) (hi : i = l.length) :
    readCell (l ++ a :: r) i = .ok a := by
  apply readCell_of_getElem?
  simp [hi]

/-- The cell between two parts of the array is written. -/
theorem writeCell_split {l r : List α} {i : Nat} (a b : α) (hi : i = l.length) :
    writeCell (l ++ a :: r) i b = .ok (l ++ b :: r) := by
  rw [writeCell_of_lt (by simp [hi])]
  simp [hi]

/-! ## Sections -/

/-- The cells from `i` on begin with `c`. -/
def Holds (cells : List α) (i : Nat) (c : List α) : Prop :=
  c <+: cells.drop i

/-- The cells after a first part. -/
theorem holds_append {l c r : List α} {i : Nat} (hi : i = l.length) :
    Holds (l ++ (c ++ r)) i c := by
  unfold Holds
  rw [hi, List.drop_left]
  exact List.prefix_append c r

namespace Holds

variable {cells c : List α} {a : α} {i : Nat}

/-- The first cell of a section is read. -/
theorem readCell (h : Holds cells i (a :: c)) : readCell cells i = .ok a := by
  obtain ⟨r, hr⟩ := h
  apply readCell_of_getElem?
  have hfirst : (cells.drop i)[0]? = some a := by rw [← hr]; rfl
  simpa using hfirst

/-- The section without its first cell. -/
theorem tail (h : Holds cells i (a :: c)) : Holds cells (i + 1) c := by
  obtain ⟨r, hr⟩ := h
  refine ⟨r, ?_⟩
  rw [← List.drop_drop, ← hr]
  rfl

end Holds

end Lib
end InfinityLabs
