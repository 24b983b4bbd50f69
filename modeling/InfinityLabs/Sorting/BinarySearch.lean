import Mathlib.Algebra.Group.Nat.Defs
import Mathlib.Tactic.Common

/-!
# Binary search

`projects/sorting/src/sorts.c`: the two binary searches.  Their bounds are of `size_t` and move
past the middle on either side.  Below the middle zero there is only the largest `size_t`.
-/

namespace InfinityLabs
namespace Sorting

/-- An array of `int` in memory. -/
structure IntArray where
  elements : List Int
  inMemory : 4 * elements.length < 2 ^ 64

/-- `(size_t)-1`. -/
def NOT_FOUND : Nat := 2 ^ 64 - 1

/-- How a search ends: it returns, or reads beyond the array, or goes on. -/
inductive SearchOutcome where
  | returned (index : Nat)
  | outOfBounds
  | outOfFuel
  deriving DecidableEq, Repr

namespace IntArray

variable (arr : IntArray) (target : Int)

/-- The loop of `IterBinarySearch`; `fuel` bounds its passes. -/
def iterBinarySearchLoop : Nat → Nat → Nat → SearchOutcome
  | 0, _, _ => .outOfFuel
  | fuel + 1, low, high =>
      if low ≤ high then
        let mid := (low + (high - low) / 2) % 2 ^ 64
        match arr.elements[mid]? with
        | none => .outOfBounds
        | some x =>
            if target = x then .returned mid
            else if target < x then
              iterBinarySearchLoop fuel low ((mid + 2 ^ 64 - 1) % 2 ^ 64)
            else iterBinarySearchLoop fuel ((mid + 1) % 2 ^ 64) high
      else .returned NOT_FOUND

/-- `IterBinarySearch`. -/
def iterBinarySearch (fuel : Nat) : SearchOutcome :=
  arr.iterBinarySearchLoop target fuel 0 ((arr.elements.length + 2 ^ 64 - 1) % 2 ^ 64)

/-- `RecBinarySearchHelper`; `fuel` bounds the depth of its calls. -/
def recBinarySearchHelper : Nat → Nat → Nat → SearchOutcome
  | 0, _, _ => .outOfFuel
  | fuel + 1, low, high =>
      if high < low then .returned NOT_FOUND
      else
        let mid := (low + (high - low) / 2) % 2 ^ 64
        match arr.elements[mid]? with
        | none => .outOfBounds
        | some x =>
            if target = x then .returned mid
            else if target < x then
              recBinarySearchHelper fuel low ((mid + 2 ^ 64 - 1) % 2 ^ 64)
            else recBinarySearchHelper fuel ((mid + 1) % 2 ^ 64) high

/-- `RecBinarySearch`. -/
def recBinarySearch (fuel : Nat) : SearchOutcome :=
  if arr.elements.length = 0 then .returned NOT_FOUND
  else arr.recBinarySearchHelper target fuel 0 ((arr.elements.length + 2 ^ 64 - 1) % 2 ^ 64)

/-! ## The interval -/

/-- The recursion takes the passes of the loop. -/
theorem recBinarySearchHelper_eq (fuel low high : Nat) :
    arr.recBinarySearchHelper target fuel low high =
      arr.iterBinarySearchLoop target fuel low high := by
  induction fuel generalizing low high with
  | zero => rfl
  | succ fuel ih =>
      rw [recBinarySearchHelper, iterBinarySearchLoop]
      by_cases hle : low ≤ high
      case pos =>
        rw [if_neg (Nat.not_lt.mpr hle), if_pos hle]
        simp only [ih]
      case neg => rw [if_pos (Nat.not_le.mp hle), if_neg hle]

/-- What has been left out on either side is below the target or above it. -/
structure Interval (low high : Nat) : Prop where
  low_le : low ≤ high + 1
  high_lt : high < arr.elements.length
  below : ∀ i x, i < low → arr.elements[i]? = some x → x < target
  above : ∀ i x, high < i → arr.elements[i]? = some x → target < x

/-- An index that the search may return. -/
def IsResult (index : Nat) : Prop :=
  (target ∈ arr.elements → arr.elements[index]? = some target) ∧
    (target ∉ arr.elements → index = NOT_FOUND)

variable {arr target}

/-- The elements of a sorted array stand in the order of their indices. -/
theorem le_of_sorted (hsorted : arr.elements.Pairwise (· ≤ ·)) {i j : Nat} {x y : Int}
    (hx : arr.elements[i]? = some x) (hy : arr.elements[j]? = some y) (hij : i ≤ j) : x ≤ y := by
  obtain ⟨hi, rfl⟩ := List.getElem?_eq_some_iff.mp hx
  obtain ⟨hj, rfl⟩ := List.getElem?_eq_some_iff.mp hy
  rcases Nat.eq_or_lt_of_le hij with rfl | hlt
  · exact Int.le_refl _
  · exact List.pairwise_iff_getElem.mp hsorted i j hi hj hlt

/-- An empty interval leaves out the target. -/
theorem Interval.notMem {low high : Nat} (h : arr.Interval target low high) (hlt : high < low) :
    target ∉ arr.elements := by
  intro hmem
  obtain ⟨i, hi⟩ := List.getElem?_of_mem hmem
  by_cases hlow : i < low
  case pos => exact Int.lt_irrefl _ (h.below i target hlow hi)
  case neg => exact Int.lt_irrefl _ (h.above i target (by omega) hi)

/-- The middle lies in the interval. -/
theorem Interval.mid {low high : Nat} (h : arr.Interval target low high) (hle : low ≤ high) :
    (low + (high - low) / 2) % 2 ^ 64 = low + (high - low) / 2 ∧
      low + (high - low) / 2 < arr.elements.length := by
  have hmemory := arr.inMemory
  have hhigh := h.high_lt
  omega

/-- The target is above the middle. -/
theorem Interval.upper (hsorted : arr.elements.Pairwise (· ≤ ·)) {low high mid : Nat} {x : Int}
    (h : arr.Interval target low high) (hmid : mid ≤ high) (hx : arr.elements[mid]? = some x)
    (hlt : x < target) : arr.Interval target (mid + 1) high where
  low_le := Nat.succ_le_succ hmid
  high_lt := h.high_lt
  below _ _ hi hy := Int.lt_of_le_of_lt (le_of_sorted hsorted hy hx (Nat.le_of_lt_succ hi)) hlt
  above := h.above

/-- The target is below the middle, which is not the first element then. -/
theorem Interval.lower (hsorted : arr.elements.Pairwise (· ≤ ·)) {low high mid : Nat} {x : Int}
    (h : arr.Interval target low high) (hlow : low ≤ mid) (hmid : mid ≤ high)
    (hx : arr.elements[mid]? = some x) (hlt : target < x) (hpos : 0 < mid) :
    arr.Interval target low (mid - 1) where
  low_le := by omega
  high_lt := by
    have hhigh := h.high_lt
    omega
  below := h.below
  above _ _ hi hy := Int.lt_of_lt_of_le hlt (le_of_sorted hsorted hx hy (by omega))

/-- A pass that goes on with another interval. -/
theorem exists_result_of_pass {passes low high low' high' : Nat}
    (hpass : ∀ fuel, arr.iterBinarySearchLoop target (fuel + 1) low high =
      arr.iterBinarySearchLoop target fuel low' high')
    (hrest : ∃ index, arr.IsResult target index ∧ ∀ fuel, passes < fuel →
      arr.iterBinarySearchLoop target fuel low' high' = .returned index) :
    ∃ index, arr.IsResult target index ∧ ∀ fuel, passes + 1 < fuel →
      arr.iterBinarySearchLoop target fuel low high = .returned index := by
  obtain ⟨index, hresult, hloop⟩ := hrest
  refine ⟨index, hresult, ?_⟩
  intro fuel hfuel
  obtain ⟨fuel, rfl⟩ := Nat.exists_eq_succ_of_ne_zero (Nat.ne_zero_of_lt hfuel)
  rw [hpass]
  exact hloop fuel (Nat.lt_of_succ_lt_succ hfuel)

/-- The loop finds the target, where the first element is not above it, in as many passes as the
interval has elements, and one. -/
theorem Interval.loop (hsorted : arr.elements.Pairwise (· ≤ ·))
    (hfirst : ∀ x, arr.elements[0]? = some x → x ≤ target) {passes low high : Nat}
    (h : arr.Interval target low high) (hpasses : high + 1 ≤ passes + low) :
    ∃ index, arr.IsResult target index ∧
      ∀ fuel, passes < fuel → arr.iterBinarySearchLoop target fuel low high = .returned index := by
  induction passes generalizing low high with
  | zero =>
      have hlt : high < low := by omega
      have hnotMem := h.notMem hlt
      refine ⟨NOT_FOUND, ⟨fun hmem => absurd hmem hnotMem, fun _ => rfl⟩, ?_⟩
      intro fuel hfuel
      obtain ⟨fuel, rfl⟩ := Nat.exists_eq_succ_of_ne_zero (Nat.ne_of_gt hfuel)
      rw [iterBinarySearchLoop, if_neg (Nat.not_le.mpr hlt)]
  | succ passes ih =>
      by_cases hle : low ≤ high
      case neg =>
        obtain ⟨index, hresult, hloop⟩ := ih h (by omega)
        exact ⟨index, hresult, fun fuel hfuel => hloop fuel (Nat.lt_of_succ_lt hfuel)⟩
      case pos =>
        obtain ⟨hmod, hmid⟩ := h.mid hle
        have hmemory := arr.inMemory
        have hx := List.getElem?_eq_getElem hmid
        have hlow : low ≤ low + (high - low) / 2 := Nat.le_add_right _ _
        have hhigh : low + (high - low) / 2 ≤ high := by omega
        have hpass : ∀ fuel, arr.iterBinarySearchLoop target (fuel + 1) low high = _ := fun fuel =>
          if_pos hle
        simp only [hmod, hx] at hpass
        generalize low + (high - low) / 2 = mid at *
        generalize arr.elements[mid] = x at *
        by_cases heq : target = x
        case pos =>
          subst heq
          refine ⟨mid, ⟨fun _ => hx, fun hnot => absurd (List.mem_of_getElem? hx) hnot⟩, ?_⟩
          intro fuel hfuel
          obtain ⟨fuel, rfl⟩ := Nat.exists_eq_succ_of_ne_zero (Nat.ne_zero_of_lt hfuel)
          rw [hpass, if_pos rfl]
        case neg =>
          by_cases hlt : target < x
          case pos =>
            -- the first element is not above the target, so the bound stays above zero
            have hpos : 0 < mid := by
              refine Nat.pos_of_ne_zero ?_
              rintro rfl
              exact absurd (hfirst x hx) (Int.not_le.mpr hlt)
            have hsub : (mid + 2 ^ 64 - 1) % 2 ^ 64 = mid - 1 := by omega
            refine exists_result_of_pass ?_ (ih (h.lower hsorted hlow hhigh hx hlt hpos) (by omega))
            intro fuel
            rw [hpass, if_neg heq, if_pos hlt, hsub]
          case neg =>
            have hadd : (mid + 1) % 2 ^ 64 = mid + 1 := by omega
            refine exists_result_of_pass ?_ (ih (h.upper hsorted hhigh hx (by omega)) (by omega))
            intro fuel
            rw [hpass, if_neg heq, if_neg hlt, hadd]

/-- From an upper bound that passed below zero the middle is beyond the array. -/
theorem loop_wrapped (fuel : Nat) :
    arr.iterBinarySearchLoop target (fuel + 1) 0 (2 ^ 64 - 1) = .outOfBounds := by
  have hmemory := arr.inMemory
  have hnone : arr.elements[(0 + (2 ^ 64 - 1 - 0) / 2) % 2 ^ 64]? = none :=
    List.getElem?_eq_none (by omega)
  rw [iterBinarySearchLoop, if_pos (Nat.zero_le _)]
  simp only [hnone]

/-- Where every element is above the target, the upper bound passes below zero. -/
theorem loop_outOfBounds (habove : ∀ x ∈ arr.elements, target < x) {fuel high : Nat}
    (hhigh : high < arr.elements.length) (hfuel : high + 1 < fuel) :
    arr.iterBinarySearchLoop target fuel 0 high = .outOfBounds := by
  induction fuel generalizing high with
  | zero => omega
  | succ fuel ih =>
      have hmemory := arr.inMemory
      have hmod : (0 + (high - 0) / 2) % 2 ^ 64 = high / 2 := by omega
      have hmid : high / 2 < arr.elements.length := by omega
      have hlt := habove _ (List.getElem_mem hmid)
      rw [iterBinarySearchLoop, if_pos (Nat.zero_le high)]
      simp only [hmod, List.getElem?_eq_getElem hmid, if_neg (Int.ne_of_lt hlt), if_pos hlt]
      by_cases hzero : high / 2 = 0
      case pos =>
        obtain ⟨fuel, rfl⟩ := Nat.exists_eq_add_of_lt (show 0 < fuel by omega)
        rw [hzero, Nat.zero_add fuel]
        exact loop_wrapped fuel
      case neg =>
        have hsub : (high / 2 + 2 ^ 64 - 1) % 2 ^ 64 = high / 2 - 1 := by omega
        rw [hsub]
        exact ih (by omega) (by omega)

end IntArray

/-! ## The two searches -/

/-- The search comes to an end within the array and returns an index of the target, or
`(size_t)-1` where it is absent. -/
def Searches (search : Nat → SearchOutcome) (arr : IntArray) (target : Int) (index : Nat) : Prop :=
  (∀ fuel, arr.elements.length < fuel → search fuel = .returned index) ∧
    arr.IsResult target index

/-- Both searches find the target, and they agree on whether there is one. -/
def BothSearch (arr : IntArray) (target : Int) : Prop :=
  ∃ i j, Searches (arr.iterBinarySearch target) arr target i ∧
    Searches (arr.recBinarySearch target) arr target j ∧ (i = NOT_FOUND ↔ j = NOT_FOUND)

variable {arr : IntArray} {target : Int}

/-- The whole array leaves out nothing. -/
theorem interval_whole (hpos : 0 < arr.elements.length) :
    arr.Interval target 0 (arr.elements.length - 1) where
  low_le := Nat.zero_le _
  high_lt := Nat.sub_lt hpos Nat.one_pos
  below i _ hi := absurd hi (Nat.not_lt_zero i)
  above i y hi hy := by
    have hlt := (List.getElem?_eq_some_iff.mp hy).1
    omega

/-- The first upper bound. -/
theorem length_sub_one (hpos : 0 < arr.elements.length) :
    (arr.elements.length + 2 ^ 64 - 1) % 2 ^ 64 = arr.elements.length - 1 := by
  have hmemory := arr.inMemory
  omega

/-- `IterBinarySearch` finds the target where the first element is not above it. -/
theorem iterBinarySearch_searches (hsorted : arr.elements.Pairwise (· ≤ ·)) {first : Int}
    (hfirst : arr.elements[0]? = some first) (hle : first ≤ target) :
    ∃ index, Searches (arr.iterBinarySearch target) arr target index := by
  have hpos := (List.getElem?_eq_some_iff.mp hfirst).1
  have hall : ∀ x, arr.elements[0]? = some x → x ≤ target := by
    intro x hx
    rw [hfirst, Option.some.injEq] at hx
    exact hx ▸ hle
  have hwhole : arr.Interval target 0 (arr.elements.length - 1) := interval_whole hpos
  have hpasses : arr.elements.length - 1 + 1 ≤ arr.elements.length + 0 := by omega
  obtain ⟨index, hresult, hloop⟩ := hwhole.loop hsorted hall hpasses
  refine ⟨index, ?_, hresult⟩
  intro fuel hfuel
  rw [IntArray.iterBinarySearch, length_sub_one hpos]
  exact hloop fuel hfuel

/-- On an array that is not empty the searches do the same. -/
theorem recBinarySearch_eq (hpos : 0 < arr.elements.length) :
    arr.recBinarySearch target = arr.iterBinarySearch target := by
  funext fuel
  rw [IntArray.recBinarySearch, if_neg (Nat.ne_of_gt hpos), IntArray.recBinarySearchHelper_eq,
    IntArray.iterBinarySearch]

/-- `IterBinarySearch` reads beyond an array that is empty or begins above the target. -/
theorem iterBinarySearch_outOfBounds (hsorted : arr.elements.Pairwise (· ≤ ·))
    (hfirst : ∀ first, arr.elements[0]? = some first → target < first) {fuel : Nat}
    (hfuel : arr.elements.length < fuel) : arr.iterBinarySearch target fuel = .outOfBounds := by
  rw [IntArray.iterBinarySearch]
  by_cases hpos : 0 < arr.elements.length
  case pos =>
    have habove : ∀ x ∈ arr.elements, target < x := by
      intro x hmem
      obtain ⟨i, hi⟩ := List.getElem?_of_mem hmem
      have hget := List.getElem?_eq_getElem hpos
      exact Int.lt_of_lt_of_le (hfirst _ hget)
        (IntArray.le_of_sorted hsorted hget hi (Nat.zero_le i))
    rw [length_sub_one hpos]
    exact IntArray.loop_outOfBounds habove (Nat.sub_lt hpos Nat.one_pos) (by omega)
  case neg =>
    have hzero : arr.elements.length = 0 := Nat.eq_zero_of_not_pos hpos
    obtain ⟨fuel, rfl⟩ := Nat.exists_eq_succ_of_ne_zero (Nat.ne_zero_of_lt hfuel)
    rw [hzero]
    exact IntArray.loop_wrapped fuel

/-- `RecBinarySearch` alone works on an empty array as well. -/
theorem recBinarySearch_searches_iff (hsorted : arr.elements.Pairwise (· ≤ ·)) :
    (∃ index, Searches (arr.recBinarySearch target) arr target index) ↔
      ∀ first, arr.elements[0]? = some first → first ≤ target := by
  by_cases hpos : 0 < arr.elements.length
  case pos =>
    have hget := List.getElem?_eq_getElem hpos
    rw [recBinarySearch_eq hpos]
    constructor
    · rintro ⟨index, hsearch, -⟩ first hfirst
      refine Int.not_lt.mp fun hlt => ?_
      have hbeyond := iterBinarySearch_outOfBounds hsorted
        (fun x hx => by rw [hfirst, Option.some.injEq] at hx; exact hx ▸ hlt) (Nat.lt_succ_self _)
      rw [hsearch _ (Nat.lt_succ_self _)] at hbeyond
      cases hbeyond
    · intro hfirst
      exact iterBinarySearch_searches hsorted hget (hfirst _ hget)
  case neg =>
    have hzero : arr.elements.length = 0 := Nat.eq_zero_of_not_pos hpos
    have hnil : arr.elements = [] := List.length_eq_zero_iff.mp hzero
    refine iff_of_true ⟨NOT_FOUND, ?_, ?_, fun _ => rfl⟩ ?_
    · intro fuel _
      rw [IntArray.recBinarySearch, if_pos hzero]
    · intro hmem
      rw [hnil] at hmem
      exact absurd hmem List.not_mem_nil
    · intro first hfirst
      rw [hnil] at hfirst
      cases hfirst

/-- On a sorted array both searches work exactly if there is a first element and the target is
not below it. -/
theorem bothSearch_iff (hsorted : arr.elements.Pairwise (· ≤ ·)) :
    BothSearch arr target ↔ ∃ first, arr.elements[0]? = some first ∧ first ≤ target := by
  constructor
  · rintro ⟨i, -, ⟨hsearch, -⟩, -⟩
    refine Classical.by_contradiction fun hnot => ?_
    have hfirst : ∀ first, arr.elements[0]? = some first → target < first := by
      intro first hget
      exact Int.not_le.mp fun hle => hnot ⟨first, hget, hle⟩
    have hbeyond := iterBinarySearch_outOfBounds hsorted hfirst (Nat.lt_succ_self _)
    rw [hsearch _ (Nat.lt_succ_self _)] at hbeyond
    cases hbeyond
  · rintro ⟨first, hfirst, hle⟩
    obtain ⟨index, hsearch⟩ := iterBinarySearch_searches hsorted hfirst hle
    have hrec : arr.recBinarySearch target = arr.iterBinarySearch target :=
      recBinarySearch_eq (List.getElem?_eq_some_iff.mp hfirst).1
    exact ⟨index, index, hsearch, hrec ▸ hsearch, Iff.rfl⟩

/-- An array of three. -/
def threeInts : IntArray := ⟨[10, 20, 30], by decide⟩

theorem bothSearch_iff_threeInts :
    BothSearch threeInts 20 ↔ ∃ first, threeInts.elements[0]? = some first ∧ first ≤ 20 :=
  bothSearch_iff (by decide)

/-- A target below the first element, which is absent: both searches read beyond the array. -/
theorem bothSearch_fails :
    threeInts.iterBinarySearch 5 4 = .outOfBounds ∧ threeInts.recBinarySearch 5 4 = .outOfBounds ∧
      ¬ BothSearch threeInts 5 := by
  have hiter : threeInts.iterBinarySearch 5 4 = .outOfBounds := by
    refine iterBinarySearch_outOfBounds (by decide) ?_ (by decide)
    rintro first ⟨⟩
    decide
  have hrec : threeInts.recBinarySearch 5 = threeInts.iterBinarySearch 5 :=
    recBinarySearch_eq (by decide)
  refine ⟨hiter, hrec ▸ hiter, ?_⟩
  rintro ⟨i, -, ⟨hsearch, -⟩, -⟩
  rw [hsearch 4 (by decide)] at hiter
  cases hiter

end Sorting
end InfinityLabs
