import InfinityLabs.Lib.Cells
import InfinityLabs.Lib.Orbits
import Mathlib.Order.Preorder.Finite

/-!
# Looking for a loop

`HasLoop` of `ds/test/ex_linkedlist.c`: two pointers go along a linked structure, one of them
twice as fast.  They meet behind the head exactly if the structure runs into a cycle; otherwise
the fast one comes to the end.

A pointer is an address, and 0 is `NULL`.  An access to an address without a node has no result.
-/

namespace InfinityLabs
namespace Ds

open Lib

/-- Finitely many nodes in memory with their links, and a pointer to one of them or `NULL`. -/
structure LinkedStructure where
  next? : Nat → Option Nat
  head : Nat
  noNull : next? 0 = none
  finite : {a | (next? a).isSome}.Finite
  closed : ∀ a b, next? a = some b → b = 0 ∨ (next? b).isSome
  head_closed : head = 0 ∨ (next? head).isSome

namespace LinkedStructure

variable (s : LinkedStructure)

/-- `node->next`. -/
def nextOf (node : Nat) : Except Fault Nat :=
  match s.next? node with
  | none => .error .outOfBounds
  | some next => .ok next

/-- The loop of `HasLoop`. -/
def hasLoopLoop : Nat → Nat → Nat → Except Fault Int
  | 0, _, _ => .error .outOfFuel
  | fuel + 1, slow, fast => do
      if slow = 0 ∨ fast = 0 then pure 0
      else if (← s.nextOf fast) = 0 then pure 0
      else
        let slow ← s.nextOf slow
        let fast ← s.nextOf (← s.nextOf fast)
        if slow = fast then pure 1 else hasLoopLoop fuel slow fast

/-- `HasLoop`. -/
def hasLoop (fuel : Nat) : Except Fault Int :=
  s.hasLoopLoop fuel s.head s.head

/-- A node is on a cycle if its links lead back to it. -/
def ReachesCycle : Prop :=
  ∃ a, Relation.ReflTransGen (fun a b => s.next? a = some b) s.head a ∧
    Relation.TransGen (fun a b => s.next? a = some b) a a

/-! ## The places on the way -/

/-- The link of a node, and `NULL` behind `NULL`. -/
def follow (a : Nat) : Nat :=
  (s.next? a).getD 0

/-- The pointer after a number of links. -/
def place (i : Nat) : Nat :=
  s.follow^[i] s.head

variable {s}

theorem place_succ (i : Nat) : s.place (i + 1) = s.follow (s.place i) :=
  Function.iterate_succ_apply' s.follow i s.head

theorem follow_of_next? {a b : Nat} (h : s.next? a = some b) : s.follow a = b := by
  rw [follow, h, Option.getD_some]

theorem next?_eq_some {a : Nat} (h : (s.next? a).isSome) : s.next? a = some (s.follow a) := by
  obtain ⟨b, hb⟩ := Option.isSome_iff_exists.mp h
  rw [follow_of_next? hb, hb]

/-- A pointer on the way is `NULL` or leads to a node. -/
theorem isSome_place (i : Nat) (hne : s.place i ≠ 0) : (s.next? (s.place i)).isSome := by
  induction i with
  | zero => exact s.head_closed.resolve_left hne
  | succ i ih =>
      rw [place_succ] at hne ⊢
      have hsome : (s.next? (s.place i)).isSome := by
        by_contra hnone
        rw [Bool.not_eq_true, Option.isSome_eq_false_iff, Option.isNone_iff_eq_none] at hnone
        exact hne (by rw [follow, hnone, Option.getD_none])
      exact (s.closed _ _ (next?_eq_some hsome)).resolve_left hne

theorem next?_place {i : Nat} (hne : s.place i ≠ 0) :
    s.next? (s.place i) = some (s.place (i + 1)) := by
  rw [place_succ]
  exact next?_eq_some (isSome_place i hne)

theorem nextOf_place {i : Nat} (hne : s.place i ≠ 0) :
    s.nextOf (s.place i) = .ok (s.place (i + 1)) := by
  rw [nextOf, next?_place hne]

/-- Behind `NULL` there is only `NULL`. -/
theorem place_eq_zero {i j : Nat} (h : s.place i = 0) (hij : i ≤ j) : s.place j = 0 := by
  induction j, hij using Nat.le_induction with
  | base => exact h
  | succ j _ ih => rw [place_succ, ih, follow, s.noNull, Option.getD_none]

/-- Two places with the same node have the same node at every distance behind them. -/
theorem place_add_eq {i j : Nat} (h : s.place i = s.place j) (k : Nat) :
    s.place (i + k) = s.place (j + k) :=
  iterate_add_eq h k

theorem place_add (i k : Nat) : s.place (i + k) = s.follow^[k] (s.place i) := by
  rw [place, Nat.add_comm, Function.iterate_add_apply, ← place]

/-! ## The two pointers -/

/-- One round of the loop away from the end. -/
theorem hasLoopLoop_succ {fuel i : Nat} (hend : s.place (2 * i + 1) ≠ 0) :
    s.hasLoopLoop (fuel + 1) (s.place i) (s.place (2 * i)) =
      if s.place (i + 1) = s.place (2 * (i + 1)) then .ok 1
      else s.hasLoopLoop fuel (s.place (i + 1)) (s.place (2 * (i + 1))) := by
  have hslow : s.place i ≠ 0 := fun h => hend (place_eq_zero h (by omega))
  have hfast : s.place (2 * i) ≠ 0 := fun h => hend (place_eq_zero h (by omega))
  rw [hasLoopLoop, if_neg (not_or.mpr ⟨hslow, hfast⟩), nextOf_place hfast, nextOf_place hslow]
  simp only [ok_bind, if_neg hend, nextOf_place hend]
  rfl

/-- The fast pointer comes to the end. -/
theorem hasLoopLoop_end {fuel i : Nat} (hend : s.place (2 * i + 1) = 0) :
    s.hasLoopLoop (fuel + 1) (s.place i) (s.place (2 * i)) = .ok 0 := by
  rw [hasLoopLoop]
  by_cases hnull : s.place i = 0 ∨ s.place (2 * i) = 0
  case pos => rw [if_pos hnull]; rfl
  case neg =>
    rw [if_neg hnull, nextOf_place (not_or.mp hnull).2]
    simp only [ok_bind, if_pos hend]
    rfl

/-- **No loop**: up to the end, at `last`, the two pointers never meet. -/
theorem hasLoopLoop_of_end {last : Nat} (hend : s.place last = 0)
    (hfirst : ∀ k < last, s.place k ≠ 0) {fuel i : Nat} (hi : 2 * i ≤ last)
    (hfuel : last < fuel + 2 * i) :
    s.hasLoopLoop fuel (s.place i) (s.place (2 * i)) = .ok 0 := by
  induction fuel generalizing i with
  | zero => omega
  | succ fuel ih =>
      by_cases hnext : s.place (2 * i + 1) = 0
      case pos => exact hasLoopLoop_end hnext
      case neg =>
        have hlast : 2 * i + 1 < last := by
          by_contra hge
          exact hnext (place_eq_zero hend (by omega))
        -- pointers that meet would bring the end nearer
        have hapart : s.place (i + 1) ≠ s.place (2 * (i + 1)) := by
          intro hmeet
          have hnear := place_add_eq hmeet (last - 2 * (i + 1))
          rw [show 2 * (i + 1) + (last - 2 * (i + 1)) = last by omega, hend] at hnear
          exact hfirst _ (by omega) hnear
        rw [hasLoopLoop_succ hnext, if_neg hapart]
        exact ih (by omega) (by omega)

/-- **A loop**: the pointers go on up to the first meeting, at `m`. -/
theorem hasLoopLoop_of_meeting (hnever : ∀ k, s.place k ≠ 0) {m : Nat}
    (hmeet : s.place m = s.place (2 * m))
    (hfirst : ∀ k, 0 < k → k < m → s.place k ≠ s.place (2 * k)) {fuel i : Nat} (hi : i < m)
    (hfuel : m ≤ fuel + i) :
    s.hasLoopLoop fuel (s.place i) (s.place (2 * i)) = .ok 1 := by
  induction fuel generalizing i with
  | zero => omega
  | succ fuel ih =>
      rw [hasLoopLoop_succ (hnever _)]
      by_cases hlast : i + 1 = m
      case pos => rw [hlast, if_pos hmeet]
      case neg =>
        rw [if_neg (hfirst (i + 1) (Nat.succ_pos i) (by omega))]
        exact ih (by omega) (by omega)

/-! ## Running into a cycle -/

/-- On a cycle the way does not end. -/
theorem place_ne_zero_of_reachesCycle (h : s.ReachesCycle) (k : Nat) : s.place k ≠ 0 := by
  obtain ⟨a, hreach, hcycle⟩ := h
  have hfollow : ∀ a b, s.next? a = some b → s.follow a = b := fun _ _ => follow_of_next?
  obtain ⟨i, hi⟩ := exists_iterate_of_reflTransGen hfollow hreach
  obtain ⟨c, hc, hround⟩ := exists_iterate_of_transGen hfollow hcycle
  have hback : s.follow^[i] s.head = s.follow^[i + c] s.head := by
    rw [Nat.add_comm i c, Function.iterate_add_apply, hi, hround]
  have hne : a ≠ 0 := by
    rintro rfl
    obtain ⟨b, hb, -⟩ := Relation.TransGen.head'_iff.mp hcycle
    rw [s.noNull] at hb
    cases hb
  intro hzero
  have hround : s.place i = s.place (i + c * k) :=
    iterate_add_mul_eq hback (Nat.le_refl i) k
  have hend : s.place (i + c * k) = 0 :=
    place_eq_zero hzero (Nat.le_trans (Nat.le_mul_of_pos_left k hc) (Nat.le_add_left _ _))
  exact hne (hi ▸ hround.trans hend)

/-- A way that does not end comes back, as there are finitely many nodes. -/
theorem exists_place_eq (h : ∀ k, s.place k ≠ 0) :
    ∃ i c, 0 < c ∧ s.place i = s.place (i + c) := by
  obtain ⟨i, j, hij, heq⟩ :=
    s.finite.exists_lt_map_eq_of_forall_mem (f := s.place) fun k => isSome_place k (h k)
  obtain ⟨c, rfl⟩ := Nat.exists_eq_add_of_lt hij
  exact ⟨i, c + 1, Nat.succ_pos c, heq⟩

theorem reachesCycle_of_place_ne_zero (h : ∀ k, s.place k ≠ 0) : s.ReachesCycle := by
  obtain ⟨i, c, hc, hback⟩ := exists_place_eq h
  have hlinks : ∀ k, s.next? (s.follow^[k] (s.place i)) = some (s.follow^[k + 1] (s.place i)) := by
    intro k
    rw [← place_add, ← place_add]
    exact next?_place (h (i + k))
  refine ⟨s.place i, reflTransGen_iterate fun k _ => next?_place (h k), ?_⟩
  have hround : Relation.TransGen (fun a b => s.next? a = some b) (s.place i)
      (s.follow^[c] (s.place i)) :=
    transGen_iterate hc fun k _ => hlinks k
  rwa [← place_add, ← hback] at hround

/-- **`HasLoop`** comes to a result on every structure, and says whether the head runs into a
cycle. -/
theorem hasLoop_eq_one_iff (s : LinkedStructure) :
    ∃ r bound, (∀ fuel ≥ bound, s.hasLoop fuel = .ok r) ∧ (r = 0 ∨ r = 1) ∧
      (r = 1 ↔ s.ReachesCycle) := by
  by_cases hends : ∃ last, s.place last = 0
  case pos =>
    classical
    have hend := Nat.find_spec hends
    have hfirst : ∀ k < Nat.find hends, s.place k ≠ 0 := fun k hk => Nat.find_min hends hk
    refine ⟨0, Nat.find hends + 1, fun fuel hfuel => ?_, Or.inl rfl, fun hone => ?_,
      fun hcycle => ?_⟩
    · exact hasLoopLoop_of_end (i := 0) hend hfirst (Nat.zero_le _) (by omega)
    · exact absurd hone Int.zero_ne_one
    · exact absurd hend (place_ne_zero_of_reachesCycle hcycle _)
  case neg =>
    classical
    have hnever : ∀ k, s.place k ≠ 0 := fun k hk => hends ⟨k, hk⟩
    obtain ⟨i, c, hc, hback⟩ := exists_place_eq hnever
    have hmeet : ∃ m, 0 < m ∧ s.place m = s.place (2 * m) := exists_meeting hback hc
    have hfound := Nat.find_spec hmeet
    have hfirst : ∀ k, 0 < k → k < Nat.find hmeet → s.place k ≠ s.place (2 * k) :=
      fun k hk hlt heq => Nat.find_min hmeet hlt ⟨hk, heq⟩
    refine ⟨1, Nat.find hmeet, fun fuel hfuel => ?_, Or.inr rfl,
      fun _ => reachesCycle_of_place_ne_zero hnever, fun _ => rfl⟩
    exact hasLoopLoop_of_meeting (i := 0) hnever hfound.2 hfirst hfound.1 (by omega)

end LinkedStructure

end Ds
end InfinityLabs
