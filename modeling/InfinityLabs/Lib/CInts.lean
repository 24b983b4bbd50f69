import Mathlib.Algebra.Group.Int.Defs
import Mathlib.Algebra.Group.Nat.Defs
import Mathlib.Data.List.Basic
import Mathlib.Logic.Function.Basic
import Mathlib.Tactic.Common

/-!
# Computations with `int`

Arithmetic with `int` has a result where it fits, and division where the divisor is not zero.
Reads and writes have one inside the array.
-/

namespace InfinityLabs
namespace Lib

/-- Why a computation has no result. -/
inductive Trap where
  | outOfBounds
  | uninitialized
  | overflow
  | divisionByZero
  | outOfFuel
  deriving DecidableEq, Repr

variable {α β : Type}

/-- A value of `int`. -/
def IsInt (x : Int) : Prop := -2 ^ 31 ≤ x ∧ x < 2 ^ 31

instance decidableIsInt (x : Int) : Decidable (IsInt x) := inferInstanceAs (Decidable (_ ∧ _))

/-- The result of an operation on `int`. -/
def toInt (x : Int) : Except Trap Int := if IsInt x then .ok x else .error .overflow

/-- A number as `size_t`. -/
def toSize (x : Int) : Nat := (x % 2 ^ 64).toNat

/-- A number as `int`. -/
def castInt (x : Int) : Int := Int.bmod x (2 ^ 32)

/-- `x / y`. -/
def divInt (x y : Int) : Except Trap Int :=
  if y = 0 then .error .divisionByZero else toInt (x.tdiv y)

/-- `x % y`. -/
def modInt (x y : Int) : Except Trap Int :=
  if y = 0 then .error .divisionByZero else toInt (x.tmod y)

/-- `cells[i]`. -/
def readAt (cells : List α) (i : Int) : Except Trap α :=
  if i < 0 then .error .outOfBounds
  else
    match cells[i.toNat]? with
    | none => .error .outOfBounds
    | some a => .ok a

/-- `cells[i] = a`. -/
def writeAt (cells : List α) (i : Int) (a : α) : Except Trap (List α) :=
  if 0 ≤ i ∧ i.toNat < cells.length then .ok (cells.set i.toNat a) else .error .outOfBounds

@[simp] theorem trap_ok_bind (a : α) (f : α → Except Trap β) : (Except.ok a >>= f) = f a := by
  simp only [bind, Except.bind]

@[simp] theorem trap_error_bind (t : Trap) (f : α → Except Trap β) :
    (Except.error t >>= f) = Except.error t := by
  simp only [bind, Except.bind]

/-- A computation that has a result had one at every step. -/
theorem exists_ok_of_trap_bind {x : Except Trap α} {f : α → Except Trap β} {b : β}
    (h : (x >>= f) = .ok b) : ∃ a, x = .ok a ∧ f a = .ok b := by
  cases x with
  | error t => cases h
  | ok a => exact ⟨a, rfl, h⟩

theorem isInt_of_toInt {x y : Int} (h : toInt x = .ok y) : IsInt x ∧ y = x := by
  unfold toInt at h
  split at h
  next hint => exact ⟨hint, (Except.ok.inj h).symm⟩
  next => cases h

theorem toInt_of_isInt {x : Int} (h : IsInt x) : toInt x = .ok x :=
  if_pos h

theorem toInt_of_not_isInt {x : Int} (h : ¬ IsInt x) : toInt x = .error .overflow :=
  if_neg h

theorem isInt_natCast {n : Nat} : IsInt n ↔ n < 2 ^ 31 := by
  unfold IsInt
  omega

theorem toSize_natCast {n : Nat} (h : n < 2 ^ 64) : toSize n = n := by
  unfold toSize
  omega

theorem castInt_natCast {n : Nat} (h : n < 2 ^ 31) : castInt n = n :=
  Int.bmod_eq_of_le (n := (n : Int)) (m := 2 ^ 32) (by omega) (by omega)

theorem castInt_le (n : Nat) : castInt n ≤ n := by
  unfold castInt
  rw [Int.bmod_def]
  split <;> omega

theorem castInt_lt (x : Int) : castInt x < 2 ^ 31 := by
  have hlt := @Int.bmod_lt x (2 ^ 32) (by decide)
  unfold castInt
  omega

/-- The quotient of a number that is not negative. -/
theorem divInt_natCast {n d : Nat} (hn : n < 2 ^ 31) (hd : 0 < d) :
    divInt n d = .ok ((n / d : Nat) : Int) := by
  have hle := Nat.div_le_self n d
  rw [divInt, if_neg (by omega), ← Int.ofNat_tdiv,
    toInt_of_isInt (isInt_natCast.mpr (by omega))]

/-- The rest of a number that is not negative. -/
theorem modInt_natCast {n d : Nat} (hn : n < 2 ^ 31) (hd : 0 < d) :
    modInt n d = .ok ((n % d : Nat) : Int) := by
  have hle := Nat.mod_le n d
  rw [modInt, if_neg (by omega), ← Int.ofNat_tmod,
    toInt_of_isInt (isInt_natCast.mpr (by omega))]

theorem readAt_of_lt {cells : List α} {i : Nat} (h : i < cells.length) :
    readAt cells i = .ok cells[i] := by
  rw [readAt, if_neg (by omega), Int.toNat_natCast, List.getElem?_eq_getElem h]

theorem writeAt_of_lt {cells : List α} {i : Nat} (h : i < cells.length) (a : α) :
    writeAt cells i a = .ok (cells.set i a) :=
  if_pos ⟨Int.natCast_nonneg i, h⟩

/-- The element between two parts of an array is read. -/
theorem readAt_split {l r : List α} {i : Nat} (a : α) (hi : i = l.length) :
    readAt (l ++ a :: r) i = .ok a := by
  have hget : (l ++ a :: r)[i]? = some a := by simp [hi]
  rw [readAt, if_neg (by omega), Int.toNat_natCast, hget]

theorem writeAt_split {l r : List α} {i : Nat} (a b : α) (hi : i = l.length) :
    writeAt (l ++ a :: r) i b = .ok (l ++ b :: r) := by
  rw [writeAt_of_lt (by simp [hi])]
  simp [hi]

/-! ## Buffers -/

/-- A buffer of `int`s in memory. -/
structure IntBuffer where
  elements : List Int
  isInt : ∀ x ∈ elements, IsInt x
  inMemory : 4 * elements.length < 2 ^ 64

/-- The elements of an array in their order. -/
structure IsSortOf (sorted arr : List Int) : Prop where
  perm : sorted.Perm arr
  ordered : sorted.Pairwise (· ≤ ·)

/-- The order of the array does not matter. -/
theorem IsSortOf.of_perm {sorted arr arr' : List Int} (h : IsSortOf sorted arr)
    (hperm : arr.Perm arr') : IsSortOf sorted arr' :=
  ⟨h.perm.trans hperm, h.ordered⟩

/-- An array is sorted in one way. -/
theorem IsSortOf.unique {sorted sorted' arr : List Int} (h : IsSortOf sorted arr)
    (h' : IsSortOf sorted' arr) : sorted = sorted' :=
  List.Perm.eq_of_pairwise (fun _ _ _ _ => Int.le_antisymm) h.ordered h'.ordered
    (h.perm.trans h'.perm.symm)

/-! ## Tables -/

/-- The array of the values of a function. -/
def table (r : Nat) (f : Nat → α) : List α := (List.range r).map f

variable {r k : Nat} {f g : Nat → α}

theorem table_congr (h : ∀ k < r, f k = g k) : table r f = table r g :=
  List.map_congr_left fun k hk => h k (List.mem_range.mp hk)

theorem readAt_table (hk : k < r) : readAt (table r f) k = .ok (f k) := by
  have hget : (table r f)[k]? = some (f k) := by
    rw [table, List.getElem?_map, List.getElem?_range hk, Option.map_some]
  rw [readAt, if_neg (by omega), Int.toNat_natCast, hget]

theorem writeAt_table (hk : k < r) (a : α) :
    writeAt (table r f) k a = .ok (table r (Function.update f k a)) := by
  rw [writeAt_of_lt (by rw [table, List.length_map, List.length_range]; exact hk)]
  refine congrArg _ (List.ext_getElem? fun i => ?_)
  rw [List.getElem?_set, table, table, List.getElem?_map, List.getElem?_map, List.length_map,
    List.length_range]
  by_cases hik : k = i
  case pos =>
    subst hik
    rw [if_pos rfl, if_pos hk, List.getElem?_range hk, Option.map_some, Function.update_self]
  case neg =>
    rw [if_neg hik]
    by_cases hi : i < r
    case pos =>
      rw [List.getElem?_range hi, Option.map_some, Option.map_some,
        Function.update_of_ne (Ne.symm hik)]
    case neg => rw [List.getElem?_eq_none (by rw [List.length_range]; omega)]; rfl

end Lib
end InfinityLabs
