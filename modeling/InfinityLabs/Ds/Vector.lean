import InfinityLabs.Lib.Runs
import Mathlib.Algebra.Group.Nat.Defs
import Mathlib.Tactic.Common

/-!
# The dynamic vector

`ds/src/vector.c`.  The buffer is the places for elements that were allocated, of which those
below the size are written.  Whether a call of `realloc` succeeds is part of the input; where
it fails, `VectorReserve` destroys the vector.  A call whose assertion fails, or that goes
outside of the buffer or into memory that was freed, has no result.
-/

namespace InfinityLabs
namespace Ds

/-- A `vector_t`. -/
structure Vector (α : Type) where
  size : Nat
  capacity : Nat
  elementSize : Nat
  buffer : List (Option α)
  deriving DecidableEq, Repr

variable {α : Type}

/-- `DEFAULT_CAPACITY`, `GROWTH_FACTOR` and `SHRINK_THRESHOLD_DIVISOR`. -/
def defaultCapacity : Nat := 8

def growthFactor : Nat := 2

def shrinkThresholdDivisor : Nat := 4

/-- The places in a block of `realloc` for so many elements; the size of the request is a
`size_t`. -/
def places (capacity elementSize : Nat) : Nat :=
  capacity * elementSize % 2 ^ 64 / elementSize

/-- The buffer that `realloc` returns keeps the old places as far as it goes. -/
def reallocated (buffer : List (Option α)) (places : Nat) : List (Option α) :=
  buffer.take places ++ List.replicate (places - buffer.length) none

/-- `VectorCreate`; `allocated` says that both of its allocations succeed. -/
def vectorCreate (allocated : Bool) (initCapacity elementSize : Nat) : Option (Vector α) :=
  let initCapacity := if initCapacity < defaultCapacity then defaultCapacity else initCapacity
  if allocated then
    some { size := 0, capacity := initCapacity, elementSize := elementSize,
           buffer := List.replicate (places initCapacity elementSize) none }
  else none

/-- `VectorReserve`, with its status; no vector is left where it is destroyed. -/
def vectorReserve (vector : Vector α) (realloc : Bool) (newCapacity : Nat) :
    Option (Vector α) × Int :=
  let newCapacity := if newCapacity < defaultCapacity then defaultCapacity else newCapacity
  if realloc then
    (some { vector with
      buffer := reallocated vector.buffer (places newCapacity vector.elementSize),
      capacity := newCapacity }, 0)
  else (none, -1)

/-- The copy at the end of `VectorPushBack`. -/
def copyElement (vector : Vector α) (element : α) : Option (Vector α) :=
  if vector.size < vector.buffer.length then
    some { vector with
      buffer := vector.buffer.set vector.size (some element), size := (vector.size + 1) % 2 ^ 64 }
  else none

/-- `VectorPushBack`, with its status. -/
def vectorPushBack (vector : Vector α) (realloc : Bool) (element : α) :
    Option (Option (Vector α) × Int) :=
  if vector.size = vector.capacity then
    let capacity := vector.capacity * growthFactor % 2 ^ 64
    match vectorReserve { vector with capacity := capacity } realloc capacity with
    | (none, _) => some (none, -1)
    | (some vector, _) => (copyElement vector element).map fun vector => (some vector, 0)
  else (copyElement vector element).map fun vector => (some vector, 0)

/-- `VectorPopBack`, which goes on whether `VectorReserve` fails or not. -/
def vectorPopBack (vector : Vector α) (realloc : Bool) : Option (Vector α) :=
  if vector.size = 0 then none
  else if vector.capacity / shrinkThresholdDivisor = vector.size then
    let capacity := vector.capacity / growthFactor
    (vectorReserve { vector with capacity := capacity } realloc capacity).1.map fun vector =>
      { vector with size := vector.size - 1 }
  else some { vector with size := vector.size - 1 }

/-! ## The content -/

/-- The vector holds the elements, in a buffer of its capacity. -/
structure Vector.Holds (vector : Vector α) (elements : List α) : Prop where
  size_eq : vector.size = elements.length
  size_le : vector.size ≤ vector.capacity
  capacity_lt : vector.capacity < 2 ^ 64
  buffer_length : vector.buffer.length = vector.capacity
  written : vector.buffer.take vector.size = elements.map some

/-- A vector with elements has a size. -/
theorem Vector.Holds.size_ne_zero {vector : Vector α} {elements : List α}
    (h : vector.Holds elements) (hne : elements ≠ []) : vector.size ≠ 0 := by
  rw [h.size_eq]
  exact fun heq => hne (List.length_eq_zero_iff.mp heq)

/-- An element is copied to a place of the buffer. -/
theorem Vector.Holds.copyElement {vector : Vector α} {elements : List α}
    (h : vector.Holds elements) (hlt : vector.size < vector.capacity) (element : α) :
    ∃ vector', Ds.copyElement vector element = some vector' ∧
      vector'.Holds (elements ++ [element]) := by
  have hplace : vector.size < vector.buffer.length := by rwa [h.buffer_length]
  have hsize : (vector.size + 1) % 2 ^ 64 = vector.size + 1 :=
    Nat.mod_eq_of_lt (Nat.lt_of_le_of_lt hlt h.capacity_lt)
  refine ⟨_, if_pos hplace, ?_, ?_, h.capacity_lt, ?_, ?_⟩
  · rw [hsize, List.length_append, List.length_singleton, h.size_eq]
  · rw [hsize]
    exact hlt
  · rw [List.length_set, h.buffer_length]
  · simp only [hsize]
    rw [List.take_add_one, List.take_set_of_le (Nat.le_refl _), h.written,
      List.getElem?_set_self hplace, List.map_append]
    rfl

/-- Without its last element a vector is in the same buffer. -/
theorem Vector.Holds.dropLast {vector : Vector α} {elements : List α}
    (h : vector.Holds elements) :
    Vector.Holds { vector with size := vector.size - 1 } elements.dropLast where
  size_eq := by rw [List.length_dropLast, h.size_eq]
  size_le := Nat.le_trans (Nat.sub_le _ _) h.size_le
  capacity_lt := h.capacity_lt
  buffer_length := h.buffer_length
  written := by
    have hle : vector.size ≤ vector.buffer.length := h.buffer_length ▸ h.size_le
    rw [List.map_dropLast, ← h.written, List.dropLast_eq_take, List.length_take_of_le hle,
      List.take_take, Nat.min_eq_left (Nat.sub_le _ _)]

/-!
## The dynamic vector over its runs

`VectorReserve` takes any capacity, but leaves the size as it is, and the block that it asks for
is counted in a `size_t`.  So a vector keeps its elements as long as no capacity below the size is
asked for, and no request wraps.
-/

open Lib

variable {α : Type}

/-- `VectorShrink`. -/
def vectorShrink (vector : Vector α) (realloc : Bool) : Option (Vector α) :=
  (vectorReserve vector realloc vector.size).1

/-- What `VectorGetAccessToElement` gives access to: nothing outside of the buffer, and nothing
where no element was written. -/
def vectorGetAccessToElement (vector : Vector α) (index : Nat) : Option α :=
  vector.buffer[index]?.join

/-- The capacity that `VectorReserve` makes of the one that it is asked for. -/
def grantedCapacity (newCapacity : Nat) : Nat :=
  if newCapacity < defaultCapacity then defaultCapacity else newCapacity

/-- A request whose size in bytes is positive and does not wrap. -/
def RequestFits (elementSize newCapacity : Nat) : Prop :=
  0 < elementSize ∧ grantedCapacity newCapacity * elementSize < 2 ^ 64

instance (elementSize newCapacity : Nat) : Decidable (RequestFits elementSize newCapacity) :=
  inferInstanceAs (Decidable (_ ∧ _))

/-! ## The runs -/

/-- A vector, with the elements that were pushed and not popped. -/
structure VectorState (α : Type) where
  vector : Vector α
  elements : List α
  deriving DecidableEq, Repr

/-- The calls that change a vector. -/
inductive VectorAction (α : Type) where
  | pushBack (element : α)
  | popBack
  | reserve (newCapacity : Nat)
  | shrink

/-- A call whose allocation succeeds; a capacity is a `size_t`. -/
def VectorState.step (s : VectorState α) : VectorAction α → Option (VectorState α)
  | .pushBack element =>
      match vectorPushBack s.vector true element with
      | some (some vector, _) => some { vector, elements := s.elements ++ [element] }
      | _ => none
  | .popBack =>
      (vectorPopBack s.vector true).map fun vector =>
        { vector, elements := s.elements.dropLast }
  | .reserve newCapacity =>
      if newCapacity < 2 ^ 64 then
        (vectorReserve s.vector true newCapacity).1.map fun vector => { s with vector }
      else none
  | .shrink => (vectorShrink s.vector true).map fun vector => { s with vector }

/-- The runs of a vector from a `VectorCreate` on whose request does not wrap. -/
def vectorMachine (α : Type) (elementSize : Nat) : Machine (VectorState α) (VectorAction α) where
  start s := ∃ initCapacity, RequestFits elementSize initCapacity ∧
    vectorCreate true initCapacity elementSize = some s.vector ∧ s.elements = []
  step := VectorState.step

/-- `VectorReserve` is asked for no capacity below the size, and the size of the block that a push
or `VectorReserve` asks for does not wrap. -/
def VectorAction.Admissible (s : VectorState α) : VectorAction α → Prop
  | .pushBack _ => s.vector.size = s.vector.capacity →
      RequestFits s.vector.elementSize (s.vector.capacity * growthFactor)
  | .reserve newCapacity => s.vector.size ≤ grantedCapacity newCapacity ∧
      RequestFits s.vector.elementSize newCapacity
  | .popBack | .shrink => True

instance (s : VectorState α) : (a : VectorAction α) → Decidable (a.Admissible s)
  | .pushBack _ => inferInstanceAs (Decidable (_ → _))
  | .reserve _ => inferInstanceAs (Decidable (_ ∧ _))
  | .popBack => instDecidableTrue
  | .shrink => instDecidableTrue

/-- The size is at most the capacity, and the elements below it are those that were pushed and
not popped, in the buffer; an admissible call gets through, and `VectorPopBack` does unless the
vector is empty. -/
structure VectorState.IsSound (s : VectorState α) : Prop where
  size_le : s.vector.size ≤ s.vector.capacity
  size_eq : s.vector.size = s.elements.length
  inside : s.vector.size ≤ s.vector.buffer.length
  content : ∀ index, index < s.vector.size →
    vectorGetAccessToElement s.vector index = s.elements[index]?
  calls : ∀ a : VectorAction α, a.Admissible s →
    (∀ newCapacity, a = .reserve newCapacity → newCapacity < 2 ^ 64) →
    (a = .popBack → s.elements ≠ []) → (s.step a).isSome

/-! ## Blocks -/

variable {elementSize capacity : Nat}

/-- A request that does not wrap is answered with a block of that many places. -/
theorem places_eq_iff (helement : 0 < elementSize) :
    places capacity elementSize = capacity ↔ capacity * elementSize < 2 ^ 64 := by
  constructor
  · intro hplaces
    by_contra hwraps
    have hmod : capacity * elementSize % 2 ^ 64 < capacity * elementSize :=
      Nat.lt_of_lt_of_le (Nat.mod_lt _ (Nat.two_pow_pos 64)) (Nat.not_lt.mp hwraps)
    have hless : places capacity elementSize < capacity :=
      (Nat.div_lt_iff_lt_mul helement).mpr hmod
    omega
  · intro hfits
    rw [places, Nat.mod_eq_of_lt hfits, Nat.mul_div_cancel _ helement]

/-- The default capacity at least is granted. -/
theorem grantedCapacity_eq_max (newCapacity : Nat) :
    grantedCapacity newCapacity = max newCapacity defaultCapacity := by
  unfold grantedCapacity
  split <;> omega

theorem le_grantedCapacity (newCapacity : Nat) :
    newCapacity ≤ grantedCapacity newCapacity ∧ defaultCapacity ≤ grantedCapacity newCapacity := by
  rw [grantedCapacity_eq_max]
  exact ⟨Nat.le_max_left .., Nat.le_max_right ..⟩

/-- The new block has the places that were asked for. -/
theorem length_reallocated (buffer : List (Option α)) (n : Nat) :
    (reallocated buffer n).length = n := by
  rw [reallocated, List.length_append, List.length_take, List.length_replicate]
  omega

/-- It keeps what was in the places that it has. -/
theorem take_reallocated {buffer : List (Option α)} {n size : Nat} (hn : size ≤ n)
    (hbuffer : size ≤ buffer.length) : (reallocated buffer n).take size = buffer.take size := by
  rw [reallocated, List.take_append_of_le_length (by rw [List.length_take]; omega), List.take_take,
    Nat.min_eq_left hn]

/-- **`VectorReserve` keeps the vector** exactly where the capacity that it grants is not below the
size, and the size of its block does not wrap. -/
theorem Vector.Holds.reserve_iff {vector : Vector α} {elements : List α}
    (h : vector.Holds elements) (helement : 0 < vector.elementSize) (newCapacity : Nat) :
    (∃ vector', vectorReserve vector true newCapacity = (some vector', 0) ∧
        vector'.Holds elements) ↔
      vector.size ≤ grantedCapacity newCapacity ∧
        grantedCapacity newCapacity * vector.elementSize < 2 ^ 64 := by
  constructor
  · rintro ⟨vector', hreserve, hholds⟩
    obtain rfl := Option.some.inj (Prod.mk.inj hreserve).1
    have hlength := hholds.buffer_length
    rw [length_reallocated] at hlength
    exact ⟨hholds.size_le, (places_eq_iff helement).mp hlength⟩
  · rintro ⟨hle, hfits⟩
    refine ⟨_, rfl, h.size_eq, hle, ?_, ?_, ?_⟩
    · exact Nat.lt_of_le_of_lt (Nat.le_mul_of_pos_right _ helement) hfits
    · exact (length_reallocated ..).trans ((places_eq_iff helement).mpr hfits)
    · have hplaces := (places_eq_iff helement).mpr hfits
      refine (take_reallocated ?_ ?_).trans h.written
      · exact hplaces.symm ▸ hle
      · exact h.buffer_length ▸ h.size_le

/-! ## The calls -/

/-- The vector holds the elements, in a buffer whose size in bytes does not wrap. -/
structure VectorState.Invariant (s : VectorState α) : Prop where
  holds : s.vector.Holds s.elements
  element_pos : 0 < s.vector.elementSize
  capacity_ge : defaultCapacity ≤ s.vector.capacity
  fits : s.vector.capacity * s.vector.elementSize < 2 ^ 64

variable {s s' : VectorState α}

/-- A new vector. -/
theorem VectorState.invariant_start (h : (vectorMachine α elementSize).start s) :
    s.Invariant := by
  obtain ⟨initCapacity, ⟨helement, hfits⟩, hcreate, helements⟩ := h
  obtain ⟨vector, elements⟩ := s
  obtain rfl := Option.some.inj hcreate
  obtain rfl : elements = [] := helements
  have hplaces := (places_eq_iff helement).mpr hfits
  refine ⟨⟨rfl, Nat.zero_le _, ?_, ?_, rfl⟩, helement, (le_grantedCapacity initCapacity).2, hfits⟩
  · exact Nat.lt_of_le_of_lt (Nat.le_mul_of_pos_right _ helement) hfits
  · exact (List.length_replicate ..).trans hplaces

/-- A granted request. -/
theorem VectorState.Invariant.reserve (h : s.Invariant) {newCapacity : Nat}
    (hle : s.vector.size ≤ grantedCapacity newCapacity)
    (hfits : grantedCapacity newCapacity * s.vector.elementSize < 2 ^ 64) :
    ∃ vector, vectorReserve s.vector true newCapacity = (some vector, 0) ∧
      VectorState.Invariant { s with vector } ∧
      vector.capacity = grantedCapacity newCapacity ∧ vector.size = s.vector.size := by
  obtain ⟨vector, hreserve, hholds⟩ :=
    (h.holds.reserve_iff h.element_pos newCapacity).mpr ⟨hle, hfits⟩
  obtain rfl := Option.some.inj (Prod.mk.inj hreserve).1
  exact ⟨_, rfl, ⟨hholds, h.element_pos, (le_grantedCapacity newCapacity).2, hfits⟩, rfl, rfl⟩

/-- What the copy of an element does to a vector that is not full. -/
theorem VectorState.Invariant.copyElement (h : s.Invariant)
    (hroom : s.vector.size < s.vector.capacity) (element : α) :
    ∃ vector, Ds.copyElement s.vector element = some vector ∧
      VectorState.Invariant { vector, elements := s.elements ++ [element] } := by
  obtain ⟨vector, hcopy, hholds⟩ := h.holds.copyElement hroom element
  obtain ⟨-, hvector⟩ := Option.ite_none_right_eq_some.mp hcopy
  obtain rfl := Option.some.inj hvector
  exact ⟨_, hcopy, hholds, h.element_pos, h.capacity_ge, h.fits⟩

/-- The capacity is written by `VectorReserve` in any case. -/
theorem vectorReserve_with (vector : Vector α) (realloc : Bool) (capacity newCapacity : Nat) :
    vectorReserve { vector with capacity := capacity } realloc newCapacity =
      vectorReserve vector realloc newCapacity := rfl

/-- A push to a full vector goes to the grown one. -/
theorem vectorPushBack_of_grown {vector grown : Vector α} {element : α}
    (hfull : vector.size = vector.capacity)
    (hreserve : vectorReserve vector true (vector.capacity * growthFactor % 2 ^ 64) =
      (some grown, 0)) : vectorPushBack vector true element =
        (copyElement grown element).map fun vector => (some vector, 0) := by
  rw [vectorPushBack, if_pos hfull]
  simp only [vectorReserve_with, hreserve]

/-- A push gets through where the block that it may ask for does not wrap. -/
theorem VectorState.Invariant.pushBack (h : s.Invariant) {element : α}
    (hadmissible : (VectorAction.pushBack element).Admissible s) :
    ∃ s', s.step (.pushBack element) = some s' ∧ s'.Invariant := by
  by_cases hfull : s.vector.size = s.vector.capacity
  case pos =>
    obtain ⟨-, hfits⟩ := hadmissible hfull
    have hge := h.capacity_ge
    have hgrown := (le_grantedCapacity (s.vector.capacity * growthFactor)).1
    have hbytes := Nat.lt_of_le_of_lt (Nat.le_mul_of_pos_right _ h.element_pos) hfits
    have hmod : s.vector.capacity * growthFactor % 2 ^ 64 = s.vector.capacity * growthFactor :=
      Nat.mod_eq_of_lt (Nat.lt_of_le_of_lt hgrown hbytes)
    have hroom : s.vector.size < grantedCapacity (s.vector.capacity * growthFactor) := by
      simp only [growthFactor, defaultCapacity] at hgrown hge ⊢
      omega
    obtain ⟨vector, hreserve, hinvariant, hcapacity, hsize⟩ :=
      h.reserve (Nat.le_of_lt hroom) hfits
    obtain ⟨vector', hcopy, hinvariant'⟩ :=
      hinvariant.copyElement (by rw [hcapacity, hsize]; exact hroom) element
    refine ⟨_, ?_, hinvariant'⟩
    simp only [VectorState.step, vectorPushBack_of_grown hfull (hmod.symm ▸ hreserve), hcopy,
      Option.map_some]
  case neg =>
    obtain ⟨vector, hcopy, hinvariant⟩ :=
      h.copyElement (Nat.lt_of_le_of_ne h.holds.size_le hfull) element
    refine ⟨_, ?_, hinvariant⟩
    simp only [VectorState.step, vectorPushBack, hfull, if_false, hcopy, Option.map_some]

/-- The size after the last element was popped. -/
theorem VectorState.Invariant.dropLast (h : s.Invariant) :
    VectorState.Invariant { vector := { s.vector with size := s.vector.size - 1 },
                            elements := s.elements.dropLast } :=
  ⟨h.holds.dropLast, h.element_pos, h.capacity_ge, h.fits⟩

/-- A pop gets through unless the vector is empty; the block that it may ask for is not larger than
the one that there is. -/
theorem VectorState.Invariant.popBack (h : s.Invariant) (hne : s.elements ≠ []) :
    ∃ s', s.step .popBack = some s' ∧ s'.Invariant := by
  have hsize := h.holds.size_ne_zero hne
  by_cases hshrinks : s.vector.capacity / shrinkThresholdDivisor = s.vector.size
  case pos =>
    have hge := h.capacity_ge
    have hbounds : s.vector.size ≤ grantedCapacity (s.vector.capacity / growthFactor) ∧
        grantedCapacity (s.vector.capacity / growthFactor) ≤ s.vector.capacity := by
      simp only [grantedCapacity_eq_max, shrinkThresholdDivisor, growthFactor, defaultCapacity]
        at hshrinks hge ⊢
      omega
    have hfits := Nat.lt_of_le_of_lt (Nat.mul_le_mul_right s.vector.elementSize hbounds.2) h.fits
    obtain ⟨vector, hreserve, hinvariant, -, hkept⟩ := h.reserve hbounds.1 hfits
    refine ⟨_, ?_, hinvariant.dropLast⟩
    simp only [VectorState.step, vectorPopBack, if_neg hsize, if_pos hshrinks, vectorReserve_with,
      hreserve, Option.map_some, hkept]
  case neg =>
    refine ⟨_, ?_, h.dropLast⟩
    simp only [VectorState.step, vectorPopBack, hsize, if_false, hshrinks, Option.map_some]

/-- `VectorShrink` asks for what is there. -/
theorem VectorState.Invariant.shrink (h : s.Invariant) :
    ∃ s', s.step .shrink = some s' ∧ s'.Invariant := by
  have hle : grantedCapacity s.vector.size ≤ s.vector.capacity := by
    rw [grantedCapacity_eq_max]
    exact Nat.max_le.mpr ⟨h.holds.size_le, h.capacity_ge⟩
  have hfits := Nat.lt_of_le_of_lt (Nat.mul_le_mul_right s.vector.elementSize hle) h.fits
  obtain ⟨vector, hreserve, hinvariant, -⟩ := h.reserve (le_grantedCapacity _).1 hfits
  refine ⟨_, ?_, hinvariant⟩
  simp only [VectorState.step, vectorShrink, hreserve, Option.map_some]

/-- An admissible call gets through and keeps the elements. -/
theorem VectorState.Invariant.call (h : s.Invariant) {a : VectorAction α}
    (hadmissible : a.Admissible s)
    (hword : ∀ newCapacity, a = .reserve newCapacity → newCapacity < 2 ^ 64)
    (hne : a = .popBack → s.elements ≠ []) : ∃ s', s.step a = some s' ∧ s'.Invariant := by
  cases a with
  | pushBack element => exact h.pushBack hadmissible
  | popBack => exact h.popBack (hne rfl)
  | reserve newCapacity =>
      obtain ⟨hle, -, hfits⟩ := hadmissible
      obtain ⟨vector, hreserve, hinvariant, -⟩ := h.reserve hle hfits
      refine ⟨_, ?_, hinvariant⟩
      simp only [VectorState.step, hword newCapacity rfl, if_true, hreserve, Option.map_some]
  | shrink => exact h.shrink

/-- An admissible step keeps the elements. -/
theorem VectorState.Invariant.step {a : VectorAction α} (h : s.Invariant)
    (hadmissible : a.Admissible s) (hstep : s.step a = some s') : s'.Invariant := by
  have hword : ∀ newCapacity, a = .reserve newCapacity → newCapacity < 2 ^ 64 := by
    rintro newCapacity rfl
    exact (Option.ite_none_right_eq_some.mp hstep).1
  have hne : a = .popBack → s.elements ≠ [] := by
    rintro rfl hnil
    have hsize : s.vector.size = 0 := by rw [h.holds.size_eq, hnil, List.length_nil]
    simp only [VectorState.step, vectorPopBack, hsize, if_true, Option.map_none] at hstep
    cases hstep
  obtain ⟨t, ht, hinvariant⟩ := h.call hadmissible hword hne
  obtain rfl := Option.some.inj (ht.symm.trans hstep)
  exact hinvariant

/-- What the invariant says of the elements. -/
theorem VectorState.Invariant.isSound (h : s.Invariant) : s.IsSound where
  size_le := h.holds.size_le
  size_eq := h.holds.size_eq
  inside := h.holds.buffer_length ▸ h.holds.size_le
  content := by
    intro index hindex
    have hget : (s.vector.buffer.take s.vector.size)[index]? = s.vector.buffer[index]? :=
      List.getElem?_take_of_lt hindex
    rw [h.holds.written, List.getElem?_map] at hget
    rw [vectorGetAccessToElement, ← hget]
    cases s.elements[index]? with
    | none => rfl
    | some element => rfl
  calls := by
    intro a hadmissible hword hne
    obtain ⟨s', hstep, -⟩ := h.call hadmissible hword hne
    rw [hstep]
    rfl

/-- In every run in which no capacity below the size is asked for and no request wraps, the vector
holds the elements that were pushed and not popped. -/
theorem vector_isSound (h : (vectorMachine α elementSize).ReachedBy (fun s a => a.Admissible s) s) :
    s.IsSound :=
  (Machine.ReachedBy.invariant (I := VectorState.Invariant)
    (fun _ hstart => VectorState.invariant_start hstart)
    (fun _ _ _ hs hadmissible hstep => hs.step hadmissible hstep) h).isSound

/-- A new vector of bytes. -/
def newVector : VectorState Nat :=
  { vector := ⟨0, 8, 1, List.replicate 8 none⟩, elements := [] }

theorem newVector_start : (vectorMachine Nat 1).start newVector :=
  ⟨8, by decide, rfl, rfl⟩

/-- The vector grows, shrinks by itself, is reserved more and shrunk. -/
theorem vector_isSound_newVector :
    ∃ s, (vectorMachine Nat 1).run newVector
        [.pushBack 1, .pushBack 2, .pushBack 3, .reserve 12, .popBack, .shrink, .popBack] = some s ∧
      s.elements = [1] ∧ s.IsSound := by
  have hrun : (vectorMachine Nat 1).run newVector
      [.pushBack 1, .pushBack 2, .pushBack 3, .reserve 12, .popBack, .shrink, .popBack] =
        some _ := rfl
  exact ⟨_, hrun, rfl, vector_isSound (Machine.ReachedBy.run (.start newVector_start)
    (by decide) hrun)⟩

/-- Nine elements in a vector that `VectorReserve` has given eight places. -/
theorem vector_not_isSound :
    ¬ ∀ s, (vectorMachine Nat 1).Reached s → s.IsSound := by
  intro h
  have hrun : (vectorMachine Nat 1).run newVector
      (((List.range 9).map .pushBack) ++ [.reserve 8]) = some _ := rfl
  exact absurd (h _ (Machine.Reached.run (.start newVector_start) hrun)).size_le (by decide)

end Ds
end InfinityLabs
