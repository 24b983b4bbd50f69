import InfinityLabs.Sorting.LinearSorting

/-!
# The counting sort

The key of an element is its distance from the smallest one.
-/

namespace InfinityLabs
namespace Sorting

open Lib

/-- The loop of `CountingSort` that finds the largest and the smallest element, from the first. -/
def findMaxMin (first : Int) (rest : List Int) : Int × Int :=
  rest.foldl (fun (max, min) x => (if x > max then x else max, if x < min then x else min))
    (first, first)

/-- `CountingSort`, with whether there is memory; its `long`s are of 64 bits. -/
def countingSort (arr : List Int) (allocated : Bool) : Except Trap (List Int × List Nat) :=
  match arr with
  | [] => .error .outOfBounds
  | first :: rest =>
      let (max, min) := findMaxMin first rest
      let range := ((max - min + 1) % 2 ^ 64).toNat
      if allocated then sortByKey (fun x => .ok (x - min)) range arr else .ok (arr, [])

/-! ## The keys -/

variable {first max min : Int} {rest : List Int}

/-- The loop keeps what it has found, or takes an element. -/
theorem foldl_maxMin (rest : List Int) (max min : Int) :
    ∃ max' min', rest.foldl (fun (max, min) x =>
        (if x > max then x else max, if x < min then x else min)) (max, min) = (max', min') ∧
      max ≤ max' ∧ min' ≤ min ∧ (∀ x ∈ rest, min' ≤ x ∧ x ≤ max') ∧
      (max' = max ∨ max' ∈ rest) ∧ (min' = min ∨ min' ∈ rest) := by
  induction rest generalizing max min with
  | nil => exact ⟨max, min, rfl, Int.le_refl _, Int.le_refl _, by simp, Or.inl rfl, Or.inl rfl⟩
  | cons x rest ih =>
      obtain ⟨max', min', hloop, hmax, hmin, hall, hmaxMem, hminMem⟩ :=
        ih (if x > max then x else max) (if x < min then x else min)
      refine ⟨max', min', hloop, ?_, ?_, List.forall_mem_cons.mpr ⟨?_, hall⟩, ?_, ?_⟩
      · split at hmax <;> omega
      · split at hmin <;> omega
      · split at hmax <;> split at hmin <;> omega
      · split at hmaxMem <;> grind
      · split at hminMem <;> grind

/-- All elements are between the two that the loop finds. -/
theorem findMaxMin_spec (h : findMaxMin first rest = (max, min)) :
    max ∈ first :: rest ∧ min ∈ first :: rest ∧ ∀ x ∈ first :: rest, min ≤ x ∧ x ≤ max := by
  obtain ⟨max', min', hloop, hmax, hmin, hall, hmaxMem, hminMem⟩ := foldl_maxMin rest first first
  obtain ⟨rfl, rfl⟩ := Prod.mk.inj (hloop.symm.trans h)
  exact ⟨List.mem_cons.mpr hmaxMem, List.mem_cons.mpr hminMem,
    List.forall_mem_cons.mpr ⟨⟨hmin, hmax⟩, hall⟩⟩

/-- The distance from the smallest element. -/
def distance (min x : Int) : Nat := (x - min).toNat

/-- The distances are keys. -/
theorem hasKeys_distance {arr : List Int} (h : ∀ x ∈ arr, min ≤ x ∧ x ≤ max) :
    HasKeys (fun x => .ok (x - min)) (distance min) (max - min + 1).toNat arr := by
  intro x hx
  obtain ⟨hmin, hmax⟩ := h x hx
  rw [distance, Int.toNat_of_nonneg (by omega)]
  exact ⟨rfl, by omega⟩

/-! ## The sort -/

/-- The elements are in order, each in a slot of its own; equal ones have kept their order. -/
structure IsStableSort (arr sorted : List Int) (slots : List Nat) : Prop where
  isSortOf : IsSortOf sorted arr
  slots_perm : slots.Perm (List.range arr.length)
  placed : ∀ i p : Nat, slots[i]? = some p → sorted[p]? = arr[i]?
  stable : ∀ i j p q : Nat, i < j → arr[i]? = arr[j]? → slots[i]? = some p → slots[j]? = some q → p < q

/-- The buckets by distance are a stable sort. -/
theorem isStableSort_buckets {arr : List Int} (h : ∀ x ∈ arr, min ≤ x ∧ x ≤ max) :
    IsStableSort arr (buckets (distance min) arr (max - min + 1).toNat)
      (slots (distance min) arr) := by
  have hkeys : ∀ x ∈ arr, distance min x < (max - min + 1).toNat := fun x hx =>
    (hasKeys_distance h x hx).2
  have hperm := buckets_perm hkeys
  have helement : ∀ i p : Nat, (slots (distance min) arr)[i]? = some p → ∃ x, arr[i]? = some x := by
    intro i p hp
    have hlt := (List.getElem?_eq_some_iff.mp hp).1
    rw [length_slots] at hlt
    exact ⟨_, List.getElem?_eq_getElem hlt⟩
  refine ⟨⟨hperm, ?_⟩, slots_perm arr, fun i p hp => ?_, fun i j p q hij heq hp hq => ?_⟩
  · have hall : arr.Pairwise fun _ _ => True := List.pairwise_of_forall fun _ _ => trivial
    refine (pairwise_buckets hall _).imp_of_mem fun ha hb hab => ?_
    have hmina := (h _ (hperm.subset ha)).1
    have hminb := (h _ (hperm.subset hb)).1
    unfold distance at hab
    omega
  · obtain ⟨x, hx⟩ := helement i p hp
    rw [slots_getElem? hx, Option.some.injEq] at hp
    obtain ⟨pre, suf, rfl, rfl⟩ := exists_append_cons_of_getElem? hx
    rw [List.take_left] at hp
    rw [← hp, hx]
    exact buckets_slot (hkeys x (List.mem_of_getElem? hx))
  · obtain ⟨x, hx⟩ := helement i p hp
    exact slots_lt hx (heq.symm.trans hx) hp hq (Or.inr ⟨rfl, hij⟩)

/-- `CountingSort` stays inside its arrays, writes every slot of the output once and sorts every
array of less than 2^31 elements, whatever their values; equal elements keep their order. -/
theorem countingSort_sorts (arr : IntBuffer) (hne : arr.elements ≠ [])
    (hlength : arr.elements.length < 2 ^ 31) :
    ∃ sorted slots, countingSort arr.elements true = .ok (sorted, slots) ∧
      IsStableSort arr.elements sorted slots := by
  obtain ⟨first, rest, helements⟩ := List.exists_cons_of_ne_nil hne
  have hint := arr.isInt
  rw [helements] at hint hlength ⊢
  obtain ⟨max, min, hfound⟩ : ∃ max min, findMaxMin first rest = (max, min) := ⟨_, _, rfl⟩
  obtain ⟨hmax, hmin, hall⟩ := findMaxMin_spec hfound
  have hrange : ((max - min + 1) % 2 ^ 64).toNat = (max - min + 1).toNat := by
    have hmaxInt := hint max hmax
    have hminInt := hint min hmin
    have hle := (hall max hmax).1
    rw [Int.emod_eq_of_lt (by omega) (by unfold IsInt at hmaxInt hminInt; omega)]
  have hpos : 0 < (max - min + 1).toNat := by
    have hle := (hall max hmax).1
    omega
  refine ⟨_, _, ?_, isStableSort_buckets hall⟩
  simp only [countingSort, hfound, hrange, if_true]
  exact sortByKey_eq (hasKeys_distance hall) hpos hlength

/-- Numbers of both signs. -/
def mixedSigns : IntBuffer where
  elements := [3, -2, 3, 0, -2]
  isInt := by decide
  inMemory := by decide

/-- The two -2 keep their order, and the two 3. -/
theorem countingSort_sorts_mixedSigns :
    ∃ sorted slots, countingSort [3, -2, 3, 0, -2] true = .ok (sorted, slots) ∧
      IsStableSort [3, -2, 3, 0, -2] sorted slots :=
  countingSort_sorts mixedSigns (by decide) (by decide)

example : countingSort [3, -2, 3, 0, -2] true =
    .ok ([-2, -2, 0, 3, 3], [3, 0, 4, 2, 1]) := by decide

end Sorting
end InfinityLabs
