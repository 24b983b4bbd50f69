import Mathlib.Data.List.Infix
import Mathlib.Tactic.Common

/-!
# Occurrences of one list in another

Where a list occurs in a text, and the first place where it does.  A text is searched from its
front: the list stands there, or its first place is one further than in the rest.
-/

namespace InfinityLabs
namespace Lib

variable {α : Type} {needle text : List α}

/-- `needle` stands in the text at place `p`. -/
def OccursAt (needle text : List α) (p : Nat) : Prop :=
  ∃ front behind, text = front ++ (needle ++ behind) ∧ front.length = p

/-- The first place, if there is one. -/
def FirstOccurrence (needle text : List α) : Option Nat → Prop
  | none => ∀ p, ¬ OccursAt needle text p
  | some p => OccursAt needle text p ∧ ∀ q, q < p → ¬ OccursAt needle text q

theorem occursAt_zero_iff : OccursAt needle text 0 ↔ needle <+: text := by
  constructor
  · rintro ⟨front, behind, rfl, hfront⟩
    rw [List.length_eq_zero_iff.mp hfront]
    exact ⟨behind, rfl⟩
  · rintro ⟨behind, rfl⟩
    exact ⟨[], behind, rfl, rfl⟩

theorem occursAt_succ_iff {a : α} {p : Nat} :
    OccursAt needle (a :: text) (p + 1) ↔ OccursAt needle text p := by
  constructor
  · rintro ⟨front, behind, heq, hfront⟩
    cases front with
    | nil => simp at hfront
    | cons b front =>
        simp at heq hfront
        exact ⟨front, behind, heq.2, hfront⟩
  · rintro ⟨front, behind, rfl, hfront⟩
    exact ⟨a :: front, behind, rfl, by simp [hfront]⟩

/-- A list that stands at the front. -/
theorem firstOccurrence_front (h : needle <+: text) : FirstOccurrence needle text (some 0) :=
  ⟨occursAt_zero_iff.mpr h, fun q hq => absurd hq (Nat.not_lt_zero q)⟩

/-- Nothing stands in an empty text but the empty list. -/
theorem firstOccurrence_nil (h : needle ≠ []) : FirstOccurrence needle [] none := by
  rintro p ⟨front, behind, heq, -⟩
  simp [h] at heq

/-- A list that does not stand at the front is found in the rest. -/
theorem firstOccurrence_cons {a : α} {r : Option Nat} (h : ¬ needle <+: a :: text)
    (hrest : FirstOccurrence needle text r) :
    FirstOccurrence needle (a :: text) (r.map (· + 1)) := by
  have hfront : ¬ OccursAt needle (a :: text) 0 := fun hzero => h (occursAt_zero_iff.mp hzero)
  cases r with
  | none =>
      intro p
      cases p with
      | zero => exact hfront
      | succ p => exact fun hp => hrest p (occursAt_succ_iff.mp hp)
  | some r =>
      refine ⟨occursAt_succ_iff.mpr hrest.1, fun q hq => ?_⟩
      cases q with
      | zero => exact hfront
      | succ q => exact fun hp => hrest.2 q (Nat.lt_of_succ_lt_succ hq) (occursAt_succ_iff.mp hp)

/-- There is one first place. -/
theorem FirstOccurrence.unique {r r' : Option Nat} (h : FirstOccurrence needle text r)
    (h' : FirstOccurrence needle text r') : r = r' := by
  cases r with
  | none =>
      cases r' with
      | none => rfl
      | some p' => exact absurd h'.1 (h p')
  | some p =>
      cases r' with
      | none => exact absurd h.1 (h' p)
      | some p' =>
          have hle : ¬ p' < p := fun hlt => h.2 p' hlt h'.1
          have hge : ¬ p < p' := fun hlt => h'.2 p hlt h.1
          rw [Nat.le_antisymm (Nat.le_of_not_lt hle) (Nat.le_of_not_lt hge)]

end Lib
end InfinityLabs
