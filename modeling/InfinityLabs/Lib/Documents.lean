import Mathlib.Data.List.Nodup
import Mathlib.Tactic.Common

/-!
# A collection as a list of documents

`updateFirst p f` replaces the first document that satisfies `p`, as an update
with a filter does.  When the documents have distinct keys, an update by key
touches exactly the document with that key.
-/

namespace InfinityLabs
namespace Lib

universe u v

variable {α : Type u} {κ : Type v}

/-- Replace the first document that satisfies `p` by its image under `f`. -/
def updateFirst (p : α → Bool) (f : α → α) : List α → List α
  | [] => []
  | x :: rest => if p x then f x :: rest else x :: updateFirst p f rest

/-- An update that keeps a column of the documents keeps the whole column. -/
theorem map_updateFirst (p : α → Bool) {f : α → α} {key : α → κ}
    (hkey : ∀ x, key (f x) = key x) (docs : List α) :
    (updateFirst p f docs).map key = docs.map key := by
  induction docs with
  | nil => rfl
  | cons x rest ih =>
      by_cases hx : p x = true
      · simp [updateFirst, hx, hkey]
      · simp [updateFirst, hx, ih]

/-- Every document after an update was there before, or is the image of a
matching one. -/
theorem mem_updateFirst {p : α → Bool} {f : α → α} {docs : List α} {y : α}
    (h : y ∈ updateFirst p f docs) :
    y ∈ docs ∨ ∃ x ∈ docs, p x = true ∧ y = f x := by
  induction docs with
  | nil => cases h
  | cons x rest ih =>
      by_cases hx : p x = true
      · simp only [updateFirst, hx, if_true] at h
        rcases List.mem_cons.mp h with rfl | hrest
        · exact Or.inr ⟨x, List.mem_cons_self, hx, rfl⟩
        · exact Or.inl (List.mem_cons_of_mem _ hrest)
      · simp only [updateFirst, hx, if_false, Bool.false_eq_true] at h
        rcases List.mem_cons.mp h with rfl | hrest
        · exact Or.inl List.mem_cons_self
        · rcases ih hrest with hmem | ⟨z, hz, hpz, rfl⟩
          · exact Or.inl (List.mem_cons_of_mem _ hmem)
          · exact Or.inr ⟨z, List.mem_cons_of_mem _ hz, hpz, rfl⟩

/-- Without a matching document there is nothing to update. -/
theorem updateFirst_of_find?_eq_none {p : α → Bool} {f : α → α} {docs : List α}
    (h : docs.find? p = none) : updateFirst p f docs = docs := by
  induction docs with
  | nil => rfl
  | cons x rest ih =>
      rw [List.find?_cons] at h
      cases hx : p x with
      | true => simp [hx] at h
      | false =>
          simp only [hx] at h
          simp [updateFirst, hx, ih h]

/-- With distinct keys, an update by a filter changes the document that a search with the
filter finds, and no other. -/
theorem mem_updateFirst_find? {key : α → κ} {f : α → α} {p : α → Bool} {docs : List α}
    (hnodup : (docs.map key).Nodup) {x y : α} (hfind : docs.find? p = some x)
    (h : y ∈ updateFirst p f docs) : (y ∈ docs ∧ key y ≠ key x) ∨ y = f x := by
  induction docs with
  | nil => cases h
  | cons z rest ih =>
      rw [List.map_cons, List.nodup_cons] at hnodup
      obtain ⟨hfresh, hrestNodup⟩ := hnodup
      rw [List.find?_cons] at hfind
      cases hz : p z with
      | true =>
          obtain rfl : z = x := by simpa [hz] using hfind
          simp only [updateFirst, hz, if_true] at h
          rcases List.mem_cons.mp h with rfl | hrest
          · exact Or.inr rfl
          · refine Or.inl ⟨List.mem_cons_of_mem _ hrest, fun hkey => hfresh ?_⟩
            rw [← hkey]
            exact List.mem_map_of_mem hrest
      | false =>
          simp only [hz] at hfind
          simp only [updateFirst, hz, Bool.false_eq_true, if_false] at h
          rcases List.mem_cons.mp h with rfl | hrest
          · refine Or.inl ⟨List.mem_cons_self, fun hkey => hfresh ?_⟩
            rw [hkey]
            exact List.mem_map_of_mem (List.mem_of_find?_eq_some hfind)
          · rcases ih hrestNodup hfind hrest with ⟨hmem, hne⟩ | rfl
            · exact Or.inl ⟨List.mem_cons_of_mem _ hmem, hne⟩
            · exact Or.inr rfl

section Keyed

variable {key : α → κ} [BEq κ] [LawfulBEq κ]

/-- With distinct keys, an update by key changes the document with that key and
no other. -/
theorem mem_updateFirst_key {f : α → α} {docs : List α}
    (hnodup : (docs.map key).Nodup) {k : κ} {y : α}
    (h : y ∈ updateFirst (fun x => key x == k) f docs) :
    (y ∈ docs ∧ key y ≠ k) ∨ ∃ x ∈ docs, key x = k ∧ y = f x := by
  induction docs with
  | nil => cases h
  | cons x rest ih =>
      rw [List.map_cons, List.nodup_cons] at hnodup
      obtain ⟨hfresh, hrestNodup⟩ := hnodup
      by_cases hx : key x = k
      · simp only [updateFirst, hx, beq_self_eq_true, if_true] at h
        rcases List.mem_cons.mp h with rfl | hrest
        · exact Or.inr ⟨x, List.mem_cons_self, hx, rfl⟩
        · refine Or.inl ⟨List.mem_cons_of_mem _ hrest, fun hy => hfresh ?_⟩
          rw [hx, ← hy]
          exact List.mem_map_of_mem hrest
      · have hbeq : (key x == k) = false := by simp [hx]
        simp only [updateFirst, hbeq, Bool.false_eq_true, if_false] at h
        rcases List.mem_cons.mp h with rfl | hrest
        · exact Or.inl ⟨List.mem_cons_self, hx⟩
        · rcases ih hrestNodup hrest with ⟨hmem, hne⟩ | ⟨z, hz, hkz, rfl⟩
          · exact Or.inl ⟨List.mem_cons_of_mem _ hmem, hne⟩
          · exact Or.inr ⟨z, List.mem_cons_of_mem _ hz, hkz, rfl⟩

/-- With distinct keys, a search by key finds the document with that key. -/
theorem find?_key_eq_some_iff {docs : List α} (hnodup : (docs.map key).Nodup) {k : κ} {y : α} :
    docs.find? (fun x => key x == k) = some y ↔ y ∈ docs ∧ key y = k := by
  constructor
  · intro h
    exact ⟨List.mem_of_find?_eq_some h, by simpa using List.find?_some h⟩
  · rintro ⟨hy, rfl⟩
    induction docs with
    | nil => cases hy
    | cons x rest ih =>
        rw [List.map_cons, List.nodup_cons] at hnodup
        rw [List.find?_cons]
        rcases List.mem_cons.mp hy with rfl | hrest
        · simp
        · have hne : key x ≠ key y := fun hkey =>
            hnodup.1 (hkey ▸ List.mem_map_of_mem hrest)
          simp only [beq_eq_false_iff_ne.mpr hne]
          exact ih hnodup.2 hrest

end Keyed
end Lib
end InfinityLabs
