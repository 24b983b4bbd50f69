import InfinityLabs.Lib.ListParts

/-!
# Sets in slots

A set that keeps the order of insertion has a slot for each value that was added.  A
deletion empties the slot and leaves it in its place, so that a walk over the slots is
not disturbed by it.
-/

namespace InfinityLabs
namespace Lib

/-- The slots, in the order of insertion. -/
abbrev SlotSet (α : Type) := List (Option α)

namespace SlotSet

variable {α : Type}

/-- No value is in two slots. -/
def Distinct (slots : SlotSet α) : Prop :=
  ∀ (i j : Nat) (a : α), slots[i]? = some (some a) → slots[j]? = some (some a) → i = j

/-- The number of values. -/
def size (slots : SlotSet α) : Nat :=
  slots.countP Option.isSome

/-- The values, in the order of insertion. -/
def values (slots : SlotSet α) : List α :=
  slots.filterMap id

theorem values_cons_some (a : α) (slots : SlotSet α) :
    values (some a :: slots) = a :: slots.values := rfl

theorem mem_values {slots : SlotSet α} {a : α} : a ∈ slots.values ↔ some a ∈ slots := by
  simp [values]

/-- A set is empty if no slot holds a value. -/
theorem size_eq_zero {slots : SlotSet α} : slots.size = 0 ↔ ∀ a, some a ∉ slots := by
  rw [size, List.countP_eq_zero]
  constructor
  · intro hnone a ha
    exact hnone (some a) ha rfl
  · intro hnone slot hslot hsome
    obtain ⟨a, rfl⟩ := Option.isSome_iff_exists.mp hsome
    exact hnone a hslot

theorem distinct_nil : Distinct ([] : SlotSet α) := by
  intro i j a hi
  simp at hi

/-- The values of distinct slots are distinct. -/
theorem Distinct.nodup {slots : SlotSet α} (h : slots.Distinct) : slots.values.Nodup := by
  induction slots with
  | nil => exact List.nodup_nil
  | cons slot slots ih =>
      have hrest : Distinct slots := by
        intro i j a hi hj
        exact Nat.succ.inj (h (i + 1) (j + 1) a (by simpa using hi) (by simpa using hj))
      cases slot with
      | none => exact ih hrest
      | some a =>
          refine List.nodup_cons.mpr ⟨fun hmem => ?_, ih hrest⟩
          obtain ⟨j, hj⟩ := List.mem_iff_getElem?.mp (mem_values.mp hmem)
          have hsame := h 0 (j + 1) a rfl (by simpa using hj)
          cases hsame

variable [DecidableEq α]

/-- `add`: a value that is new gets a slot at the end. -/
def add (a : α) (slots : SlotSet α) : SlotSet α :=
  if some a ∈ slots then slots else slots ++ [some a]

/-- `delete`: the slot of the value is emptied. -/
def delete (a : α) (slots : SlotSet α) : SlotSet α :=
  slots.map fun slot => if slot = some a then none else slot

theorem mem_add {slots : SlotSet α} {a b : α} :
    some b ∈ slots.add a ↔ b = a ∨ some b ∈ slots := by
  rw [add]
  split
  · rename_i hmem
    exact ⟨Or.inr, fun h => h.elim (fun hba => hba ▸ hmem) id⟩
  · rw [List.mem_append, List.mem_singleton, Option.some.injEq, or_comm]

theorem mem_delete {slots : SlotSet α} {a b : α} :
    some b ∈ slots.delete a ↔ b ≠ a ∧ some b ∈ slots := by
  rw [delete, List.mem_map]
  constructor
  · rintro ⟨slot, hslot, hb⟩
    split at hb
    · cases hb
    · rename_i hne
      subst hb
      exact ⟨fun hba => hne (congrArg some hba), hslot⟩
  · rintro ⟨hne, hmem⟩
    exact ⟨some b, hmem, if_neg fun hsome => hne (Option.some.inj hsome)⟩

/-- A slot with another value is untouched by a deletion. -/
theorem getElem?_delete_of_ne {slots : SlotSet α} {a : α} {i : Nat}
    (hne : slots[i]? ≠ some (some a)) : (slots.delete a)[i]? = slots[i]? := by
  rw [delete, List.getElem?_map]
  cases hslot : slots[i]? with
  | none => rfl
  | some slot =>
      rw [Option.map_some, if_neg]
      rintro rfl
      exact hne hslot

theorem Distinct.add {slots : SlotSet α} (h : slots.Distinct) (a : α) :
    (slots.add a).Distinct := by
  rw [SlotSet.add]
  split
  · exact h
  · rename_i hnew
    have hlast : ∀ (k : Nat) (b : α), (slots ++ [some a])[k]? = some (some b) →
        slots[k]? = some (some b) ∨ k = slots.length ∧ b = a := by
      intro k b hk
      rcases of_getElem?_append_singleton hk with ⟨-, hold⟩ | ⟨hend, hba⟩
      · exact Or.inl hold
      · exact Or.inr ⟨hend, Option.some.inj hba⟩
    intro i j b hi hj
    rcases hlast i b hi with hold | ⟨hiend, hba⟩
    · rcases hlast j b hj with hold' | ⟨-, hba⟩
      · exact h i j b hold hold'
      · exact absurd (hba ▸ List.mem_of_getElem? hold) hnew
    · rcases hlast j b hj with hold | ⟨hjend, -⟩
      · exact absurd (hba ▸ List.mem_of_getElem? hold) hnew
      · exact hiend.trans hjend.symm

theorem Distinct.delete {slots : SlotSet α} (h : slots.Distinct) (a : α) :
    (slots.delete a).Distinct := by
  have hkept : ∀ (k : Nat) (b : α), (slots.delete a)[k]? = some (some b) →
      slots[k]? = some (some b) := by
    intro k b hk
    rw [SlotSet.delete, List.getElem?_map] at hk
    obtain ⟨slot, hslot, hb⟩ := Option.map_eq_some_iff.mp hk
    split at hb
    · cases hb
    · rw [hslot, hb]
  exact fun i j b hi hj => h i j b (hkept i b hi) (hkept j b hj)

end SlotSet

end Lib
end InfinityLabs
