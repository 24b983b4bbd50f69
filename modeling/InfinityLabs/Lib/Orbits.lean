import Mathlib.Logic.Function.Iterate
import Mathlib.Logic.Relation
import Mathlib.Tactic.Common

/-!
# Orbits

The values that come up when a function is applied again and again.  Once a value comes back the
orbit goes round, and then one walk on it meets a second one that goes twice as fast.
-/

namespace InfinityLabs
namespace Lib

variable {α : Type} {f : α → α} {r : α → α → Prop} {x a : α} {i j c m : Nat}

/-! ## Coming back -/

theorem iterate_add_eq (h : f^[i] x = f^[j] x) (k : Nat) : f^[i + k] x = f^[j + k] x := by
  rw [Nat.add_comm i, Nat.add_comm j, Function.iterate_add_apply, Function.iterate_add_apply, h]

/-- From a value on that comes back after `c` steps, so does every one, after any number of
rounds. -/
theorem iterate_add_mul_eq (h : f^[i] x = f^[i + c] x) (him : i ≤ m) (q : Nat) :
    f^[m] x = f^[m + c * q] x := by
  induction q with
  | zero => rfl
  | succ q ih =>
      obtain ⟨k, hk⟩ := Nat.exists_eq_add_of_le (Nat.le_trans him (Nat.le_add_right m (c * q)))
      have hround : f^[m + c * q] x = f^[m + c * (q + 1)] x := by
        have hstep := iterate_add_eq h k
        rw [hk, hstep, Nat.mul_succ]
        congr 1
        omega
      exact ih.trans hround

/-- **The two walks meet** at a multiple of the round that lies behind its begin. -/
theorem exists_meeting (h : f^[i] x = f^[i + c] x) (hc : 0 < c) :
    ∃ m, 0 < m ∧ f^[m] x = f^[2 * m] x := by
  have hbehind : i ≤ c * (i / c + 1) := by
    have hdiv := Nat.div_add_mod i c
    have hmod := Nat.mod_lt i hc
    rw [Nat.mul_succ]
    omega
  refine ⟨c * (i / c + 1), Nat.mul_pos hc (Nat.succ_pos _), ?_⟩
  rw [iterate_add_mul_eq h hbehind (i / c + 1), Nat.two_mul]

/-! ## Walks along a relation -/

theorem exists_iterate_of_reflTransGen (hr : ∀ a b, r a b → f a = b)
    (h : Relation.ReflTransGen r x a) : ∃ i, f^[i] x = a := by
  induction h with
  | refl => exact ⟨0, rfl⟩
  | tail _ hstep ih =>
      obtain ⟨i, rfl⟩ := ih
      exact ⟨i + 1, by rw [Function.iterate_succ_apply']; exact hr _ _ hstep⟩

theorem exists_iterate_of_transGen (hr : ∀ a b, r a b → f a = b)
    (h : Relation.TransGen r x a) : ∃ i, 0 < i ∧ f^[i] x = a := by
  induction h with
  | single hstep => exact ⟨1, Nat.one_pos, hr _ _ hstep⟩
  | tail _ hstep ih =>
      obtain ⟨i, -, rfl⟩ := ih
      exact ⟨i + 1, Nat.succ_pos i, by rw [Function.iterate_succ_apply']; exact hr _ _ hstep⟩

theorem reflTransGen_iterate (hr : ∀ k, k < i → r (f^[k] x) (f^[k + 1] x)) :
    Relation.ReflTransGen r x (f^[i] x) := by
  induction i with
  | zero => exact .refl
  | succ i ih =>
      exact .tail (ih fun k hk => hr k (Nat.lt_succ_of_lt hk)) (hr i (Nat.lt_succ_self i))

theorem transGen_iterate (hc : 0 < c) (hr : ∀ k, k < c → r (f^[k] x) (f^[k + 1] x)) :
    Relation.TransGen r x (f^[c] x) := by
  obtain ⟨k, rfl⟩ : ∃ k, c = k + 1 := Nat.exists_eq_succ_of_ne_zero (Nat.ne_of_gt hc)
  have hfront : Relation.ReflTransGen r x (f^[k] x) :=
    reflTransGen_iterate fun l hl => hr l (Nat.lt_succ_of_lt hl)
  exact .tail' hfront (hr k (Nat.lt_succ_self k))

end Lib
end InfinityLabs
