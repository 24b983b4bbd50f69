import Mathlib.Algebra.Group.Nat.Defs
import Mathlib.Data.List.Rotate

/-!
# Every second one in a circle

The one in front takes out the next one and hands on to the one behind, until one is left.  With a
power of two in the circle that is the one who began; else the circle comes down to a power of two
first, and then it is the one in front.
-/

namespace InfinityLabs
namespace Lib

variable {α : Type}

/-- The one who is left, where the first of the circle begins. -/
def survivor : List α → Option α
  | [] => none
  | [x] => some x
  | x :: _ :: rest => survivor (rest ++ [x])
termination_by circle => circle.length
decreasing_by simp

theorem survivor_cons (x y : α) (rest : List α) :
    survivor (x :: y :: rest) = survivor (rest ++ [x]) := by
  rw [survivor]

/-- The elements of some pairs one after the other. -/
def unpair (ps : List (α × α)) : List α := ps.flatMap fun p => [p.1, p.2]

/-- Some rounds take out the second of every pair. -/
theorem survivor_unpair (ps : List (α × α)) (rest : List α) :
    survivor (unpair ps ++ rest) = survivor (rest ++ ps.map Prod.fst) := by
  induction ps generalizing rest with
  | nil => simp [unpair]
  | cons p ps ih =>
      have hcons : unpair (p :: ps) ++ rest = p.1 :: p.2 :: (unpair ps ++ rest) := by simp [unpair]
      rw [hcons, survivor_cons, List.append_assoc, ih]
      simp

theorem exists_unpair {j : Nat} {circle : List α} (h : 2 * j ≤ circle.length) :
    ∃ ps : List (α × α), ps.length = j ∧ circle = unpair ps ++ circle.drop (2 * j) := by
  induction j generalizing circle with
  | zero => exact ⟨[], rfl, rfl⟩
  | succ j ih =>
      match circle with
      | [] => rw [List.length_nil] at h; omega
      | [_] => rw [List.length_singleton] at h; omega
      | x :: y :: rest =>
          rw [List.length_cons, List.length_cons] at h
          obtain ⟨ps, hlength, hrest⟩ := @ih rest (by omega)
          refine ⟨(x, y) :: ps, by rw [List.length_cons, hlength], ?_⟩
          have hcons : unpair ((x, y) :: ps) = x :: y :: unpair ps := by simp [unpair]
          rw [hcons, Nat.mul_succ]
          simpa using hrest

/-- **A power of two**: the one who begins is left. -/
theorem survivor_of_two_pow {k : Nat} {circle : List α} (h : circle.length = 2 ^ k) :
    survivor circle = circle.head? := by
  induction k generalizing circle with
  | zero =>
      obtain ⟨x, rfl⟩ := List.length_eq_one_iff.mp h
      rw [survivor]
      rfl
  | succ k ih =>
      have hdouble : circle.length = 2 * 2 ^ k := by rw [h, Nat.pow_succ, Nat.mul_comm]
      obtain ⟨ps, hlength, hpairs⟩ := exists_unpair (Nat.le_of_eq hdouble.symm)
      rw [← hdouble, List.drop_length] at hpairs
      rw [hpairs, survivor_unpair, List.nil_append, ih (by rw [List.length_map, hlength])]
      cases ps with
      | nil => rfl
      | cons p ps => simp [unpair]

/-- **The one who is left**, at twice the distance of the number to the power of two below it. -/
theorem survivor_eq {k j : Nat} {circle : List α} (h : circle.length = 2 ^ k + j) (hj : j < 2 ^ k) :
    survivor circle = circle[2 * j]? := by
  obtain ⟨ps, hlength, hpairs⟩ := @exists_unpair _ j circle (by omega)
  have hrest : (circle.drop (2 * j) ++ ps.map Prod.fst).length = 2 ^ k := by
    rw [List.length_append, List.length_drop, List.length_map, hlength]
    omega
  rw [hpairs, survivor_unpair, survivor_of_two_pow hrest, ← hpairs, List.head?_append,
    List.head?_drop]
  have hin : 2 * j < circle.length := by omega
  rw [List.getElem?_eq_getElem hin]
  rfl

/-! ## The circle in an array -/

/-- One round where the next one is behind in the array. -/
theorem survivor_rotate_inside (A B : List α) (x y : α) :
    survivor (((A ++ x :: y :: B).eraseIdx (A.length + 1)).rotate (A.length + 1)) =
      survivor ((A ++ x :: y :: B).rotate A.length) := by
  have hshape : A ++ x :: y :: B = (A ++ [x]) ++ y :: B := by simp
  have hlength : A.length + 1 = (A ++ [x]).length := by simp
  have herase : (A ++ x :: y :: B).eraseIdx (A.length + 1) = (A ++ [x]) ++ B := by
    rw [hshape, List.eraseIdx_append_of_length_le (Nat.le_of_eq hlength.symm), hlength,
      Nat.sub_self]
    rfl
  rw [herase, hlength, List.rotate_append_length_eq, List.rotate_append_length_eq, List.cons_append,
    List.cons_append, survivor_cons, List.append_assoc]

/-- One round where the next one is the first of the array. -/
theorem survivor_rotate_last (C : List α) (x y : α) :
    survivor (((y :: C ++ [x]).eraseIdx 0).rotate 0) =
      survivor ((y :: C ++ [x]).rotate (y :: C).length) := by
  rw [List.rotate_append_length_eq, List.rotate_zero, List.singleton_append, survivor_cons]
  rfl

/-- **One round**: the place behind the one in front is taken out, and the circle goes on there. -/
theorem survivor_rotate {circle : List α} {i : Nat} (h : 2 ≤ circle.length) :
    survivor ((circle.eraseIdx ((i + 1) % circle.length)).rotate ((i + 1) % circle.length)) =
      survivor (circle.rotate i) := by
  have hlt : i % circle.length < circle.length := Nat.mod_lt i (by omega)
  rw [← List.rotate_mod circle i, ← Nat.mod_add_mod]
  generalize i % circle.length = front at *
  by_cases hlast : front + 1 < circle.length
  case pos =>
    have hsplit : circle = circle.take front ++ circle[front] :: circle[front + 1] ::
        circle.drop (front + 1 + 1) := by
      rw [← List.drop_eq_getElem_cons, ← List.drop_eq_getElem_cons, List.take_append_drop]
    have hfront : (circle.take front).length = front := by rw [List.length_take]; omega
    have hround := survivor_rotate_inside (circle.take front) (circle.drop (front + 1 + 1))
      circle[front] circle[front + 1]
    rw [← hsplit, hfront] at hround
    rwa [Nat.mod_eq_of_lt hlast]
  case neg =>
    obtain rfl : front = circle.length - 1 := by omega
    have hne : circle.dropLast ≠ [] := by
      intro hnil
      have hzero := congrArg List.length hnil
      rw [List.length_dropLast, List.length_nil] at hzero
      omega
    obtain ⟨y, C, hfirst⟩ := List.exists_cons_of_ne_nil hne
    have hnonempty : circle ≠ [] := List.ne_nil_of_length_pos (by omega)
    have hsplit : circle = y :: C ++ [circle.getLast hnonempty] := by
      rw [← hfirst, List.dropLast_append_getLast]
    have hlength : circle.length - 1 = (y :: C).length := by
      rw [← hfirst, List.length_dropLast]
    have hround := survivor_rotate_last C (circle.getLast hnonempty) y
    rw [← hsplit, ← hlength] at hround
    rwa [show circle.length - 1 + 1 = circle.length by omega, Nat.mod_self]

end Lib
end InfinityLabs
