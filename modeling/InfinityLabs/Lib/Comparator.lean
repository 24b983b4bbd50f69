import Mathlib.Data.List.Pairwise
import Mathlib.Tactic.Common

/-!
# Comparators

A comparator answers with a negative, a zero or a positive number.  The laws are those
of a total preorder: the sign turns with the arguments, and what is not above is
transitive.  Elements that compare as zero are equal for the order, and need not be
equal otherwise.
-/

namespace InfinityLabs
namespace Lib

universe u

/-- A comparison function with the laws of a total preorder. -/
structure Comparator (α : Type u) where
  cmp : α → α → Int
  swap : ∀ a b, cmp a b < 0 ↔ 0 < cmp b a
  trans : ∀ a b c, cmp a b ≤ 0 → cmp b c ≤ 0 → cmp a c ≤ 0

namespace Comparator

variable {α : Type u} (C : Comparator α) {a b c : α}

/-- An element is equal to itself. -/
theorem refl (a : α) : C.cmp a a = 0 := by
  have h := C.swap a a
  omega

/-- What is not below is at most as high the other way round. -/
theorem le_swap : C.cmp a b ≤ 0 ↔ 0 ≤ C.cmp b a := by
  have h := C.swap b a
  omega

/-- Equality turns around. -/
theorem eq_swap : C.cmp a b = 0 ↔ C.cmp b a = 0 := by
  have h := C.swap a b
  have h' := C.swap b a
  omega

variable {C}

/-- Below and not above. -/
theorem lt_of_lt_of_le (hab : C.cmp a b < 0) (hbc : C.cmp b c ≤ 0) : C.cmp a c < 0 := by
  by_contra hac
  have hca : C.cmp c a ≤ 0 := C.le_swap.mpr (Int.not_lt.mp hac)
  have hba := C.trans b c a hbc hca
  have hswap := C.swap a b
  omega

/-- Not above and below. -/
theorem lt_of_le_of_lt (hab : C.cmp a b ≤ 0) (hbc : C.cmp b c < 0) : C.cmp a c < 0 := by
  by_contra hac
  have hca : C.cmp c a ≤ 0 := C.le_swap.mpr (Int.not_lt.mp hac)
  have hcb := C.trans c a b hca hab
  have hswap := C.swap b c
  omega

/-- Below is transitive. -/
theorem lt_trans (hab : C.cmp a b < 0) (hbc : C.cmp b c < 0) : C.cmp a c < 0 :=
  lt_of_lt_of_le hab (Int.le_of_lt hbc)

/-- Equality is transitive. -/
theorem eq_trans (hab : C.cmp a b = 0) (hbc : C.cmp b c = 0) : C.cmp a c = 0 := by
  have hac := C.trans a b c (Int.le_of_eq hab) (Int.le_of_eq hbc)
  have hca := C.trans c b a (Int.le_of_eq (C.eq_swap.mp hbc)) (Int.le_of_eq (C.eq_swap.mp hab))
  exact Int.le_antisymm hac (C.le_swap.mp hca)

variable (C)

/-- A list is sorted when each element is below all that follow it. -/
def Sorted (l : List α) : Prop :=
  l.Pairwise fun a b => C.cmp a b < 0

variable {C}

/-- A list is sorted around one of its elements. -/
theorem sorted_append_cons {l r : List α} {x : α} :
    C.Sorted (l ++ x :: r) ↔
      C.Sorted l ∧ C.Sorted r ∧ (∀ y ∈ l, C.cmp y x < 0) ∧ ∀ y ∈ r, C.cmp x y < 0 := by
  rw [Sorted, List.pairwise_append, List.pairwise_cons]
  constructor
  · rintro ⟨hl, ⟨hx, hr⟩, hlr⟩
    exact ⟨hl, hr, fun y hy => hlr y hy x List.mem_cons_self, hx⟩
  · rintro ⟨hl, hr, hlx, hx⟩
    refine ⟨hl, ⟨hx, hr⟩, fun y hy z hz => ?_⟩
    rcases List.mem_cons.mp hz with rfl | hz
    · exact hlx y hy
    · exact lt_trans (hlx y hy) (hx z hz)

/-- No two elements of a sorted list are equal. -/
theorem Sorted.eq_of_eq {l : List α} (hl : C.Sorted l) {x y : α} (hx : x ∈ l) (hy : y ∈ l)
    (heq : C.cmp x y = 0) : x = y := by
  induction l with
  | nil => cases hx
  | cons z l ih =>
      obtain ⟨hz, hl⟩ := List.pairwise_cons.mp hl
      rcases List.mem_cons.mp hx with rfl | hxl
      · rcases List.mem_cons.mp hy with rfl | hyl
        · rfl
        · have hlt := hz y hyl
          omega
      · rcases List.mem_cons.mp hy with rfl | hyl
        · have hlt := hz x hxl
          have hswap := C.swap y x
          omega
        · exact ih hl hxl hyl

/-! ## Putting in and taking out -/

variable (C)

/-- `l'` is `l` with `d` put between the elements below and the elements above it. -/
def Placed (d : α) (l l' : List α) : Prop :=
  ∃ below above, l = below ++ above ∧ l' = below ++ d :: above ∧
    (∀ y ∈ below, C.cmp y d < 0) ∧ ∀ y ∈ above, C.cmp d y < 0

/-- The elements of the list that are not equal to `d`. -/
def without (d : α) (l : List α) : List α :=
  l.filter fun y => decide (C.cmp d y ≠ 0)

variable {C} {d x : α} {l l' r r' : List α}

/-- An element is put into the first part of a list. -/
theorem Placed.append_right (h : C.Placed d l l') (hx : C.cmp d x < 0)
    (hr : ∀ y ∈ r, C.cmp x y < 0) : C.Placed d (l ++ x :: r) (l' ++ x :: r) := by
  obtain ⟨below, above, rfl, rfl, hbelow, habove⟩ := h
  refine ⟨below, above ++ x :: r, by simp, by simp, hbelow, fun y hy => ?_⟩
  rcases List.mem_append.mp hy with hy | hy
  · exact habove y hy
  · rcases List.mem_cons.mp hy with rfl | hy
    · exact hx
    · exact lt_trans hx (hr y hy)

/-- An element is put into the last part of a list. -/
theorem Placed.append_left (h : C.Placed d r r') (hx : C.cmp x d < 0)
    (hl : ∀ y ∈ l, C.cmp y x < 0) : C.Placed d (l ++ x :: r) (l ++ x :: r') := by
  obtain ⟨below, above, rfl, rfl, hbelow, habove⟩ := h
  refine ⟨l ++ x :: below, above, by simp, by simp, fun y hy => ?_, habove⟩
  rcases List.mem_append.mp hy with hy | hy
  · exact lt_trans (hl y hy) hx
  · rcases List.mem_cons.mp hy with rfl | hy
    · exact hx
    · exact hbelow y hy

/-- A sorted list stays sorted. -/
theorem Placed.sorted (h : C.Placed d l l') (hl : C.Sorted l) : C.Sorted l' := by
  obtain ⟨below, above, rfl, rfl, hbelow, habove⟩ := h
  have happend := List.pairwise_append.mp hl
  exact sorted_append_cons.mpr ⟨happend.1, happend.2.1, hbelow, habove⟩

/-- One element has come in. -/
theorem Placed.perm (h : C.Placed d l l') : l'.Perm (d :: l) := by
  obtain ⟨below, above, rfl, rfl, -, -⟩ := h
  exact List.perm_middle

/-- A sorted list stays sorted. -/
theorem Sorted.without (hl : C.Sorted l) (d : α) : C.Sorted (C.without d l) :=
  List.Pairwise.filter _ hl

/-- Nothing is taken out of elements that are not equal. -/
theorem without_eq_self (hl : ∀ y ∈ l, C.cmp d y ≠ 0) : C.without d l = l :=
  List.filter_eq_self.mpr fun y hy => decide_eq_true (hl y hy)

/-- An element below the middle is taken out of the first part. -/
theorem without_of_lt (hx : C.cmp d x < 0) (hr : ∀ y ∈ r, C.cmp x y < 0) :
    C.without d (l ++ x :: r) = C.without d l ++ x :: r := by
  have hright : C.without d (x :: r) = x :: r := by
    apply without_eq_self
    intro y hy
    rcases List.mem_cons.mp hy with rfl | hy
    · exact Int.ne_of_lt hx
    · exact Int.ne_of_lt (lt_trans hx (hr y hy))
  calc C.without d (l ++ x :: r) = C.without d l ++ C.without d (x :: r) :=
        List.filter_append _ _
    _ = C.without d l ++ x :: r := by rw [hright]

/-- An element above the middle is taken out of the last part. -/
theorem without_of_gt (hx : 0 < C.cmp d x) (hl : ∀ y ∈ l, C.cmp y x < 0) :
    C.without d (l ++ x :: r) = l ++ x :: C.without d r := by
  have hleft : C.without d l = l := by
    apply without_eq_self
    intro y hy
    have hyd := lt_trans (hl y hy) ((C.swap x d).mpr hx)
    exact Int.ne_of_gt ((C.swap y d).mp hyd)
  have hmiddle : C.without d (x :: r) = x :: C.without d r :=
    List.filter_cons_of_pos (decide_eq_true (Int.ne_of_gt hx))
  calc C.without d (l ++ x :: r) = C.without d l ++ C.without d (x :: r) :=
        List.filter_append _ _
    _ = l ++ x :: C.without d r := by rw [hmiddle, hleft]

/-- The middle itself is taken out. -/
theorem without_of_eq (hx : C.cmp d x = 0) (hl : ∀ y ∈ l, C.cmp y x < 0)
    (hr : ∀ y ∈ r, C.cmp x y < 0) : C.without d (l ++ x :: r) = l ++ r := by
  have hleft : C.without d l = l := by
    apply without_eq_self
    intro y hy
    have hyd := lt_of_lt_of_le (hl y hy) (Int.le_of_eq (C.eq_swap.mp hx))
    exact Int.ne_of_gt ((C.swap y d).mp hyd)
  have hright : C.without d r = r := by
    apply without_eq_self
    intro y hy
    exact Int.ne_of_lt (lt_of_le_of_lt (Int.le_of_eq hx) (hr y hy))
  have hmiddle : C.without d (x :: r) = C.without d r :=
    List.filter_cons_of_neg (by simpa using hx)
  calc C.without d (l ++ x :: r) = C.without d l ++ C.without d (x :: r) :=
        List.filter_append _ _
    _ = l ++ r := by rw [hmiddle, hleft, hright]

/-! ## Lists with equal elements -/

variable (C)

/-- A list is ordered when no element is above one that follows it. -/
def Ordered (l : List α) : Prop :=
  l.Pairwise fun a b => C.cmp a b ≤ 0

/-- `l'` is `l` with `d` put before the first element that is not below it. -/
def PlacedFirst (d : α) (l l' : List α) : Prop :=
  ∃ below above, l = below ++ above ∧ l' = below ++ d :: above ∧
    (∀ y ∈ below, C.cmp y d < 0) ∧ ∀ y ∈ above, C.cmp d y ≤ 0

variable {C}

/-- Elements that follow one that is not below `d` are not below it either. -/
theorem Ordered.le_of_head (h : C.Ordered (x :: r)) (hx : 0 ≤ C.cmp x d) :
    ∀ y ∈ x :: r, C.cmp d y ≤ 0 := by
  have hdx : C.cmp d x ≤ 0 := C.le_swap.mpr hx
  intro y hy
  rcases List.mem_cons.mp hy with rfl | hy
  · exact hdx
  · exact C.trans d x y hdx (List.rel_of_pairwise_cons h hy)

/-- An ordered list stays ordered. -/
theorem PlacedFirst.ordered (h : C.PlacedFirst d l l') (hl : C.Ordered l) : C.Ordered l' := by
  obtain ⟨below, above, rfl, rfl, hbelow, habove⟩ := h
  obtain ⟨hleft, hright, hacross⟩ := List.pairwise_append.mp hl
  refine List.pairwise_append.mpr ⟨hleft, List.pairwise_cons.mpr ⟨habove, hright⟩, ?_⟩
  intro y hy z hz
  rcases List.mem_cons.mp hz with rfl | hz
  · exact Int.le_of_lt (hbelow y hy)
  · exact hacross y hy z hz

/-- A list of at most one element is ordered. -/
theorem ordered_of_length_le_one {l : List α} (h : l.length ≤ 1) : C.Ordered l := by
  cases l with
  | nil => exact .nil
  | cons a l =>
      obtain rfl : l = [] := List.length_eq_zero_iff.mp (by simpa using h)
      exact List.pairwise_singleton _ a

/-- Ordered lists on both sides of an element make an ordered list. -/
theorem Ordered.append_cons (hl : C.Ordered l) (hr : C.Ordered r)
    (hlx : ∀ y ∈ l, C.cmp y x ≤ 0) (hxr : ∀ y ∈ r, C.cmp x y ≤ 0) : C.Ordered (l ++ x :: r) := by
  refine List.pairwise_append.mpr ⟨hl, List.pairwise_cons.mpr ⟨hxr, hr⟩, ?_⟩
  intro y hy z hz
  rcases List.mem_cons.mp hz with rfl | hz
  · exact hlx y hy
  · exact C.trans y x z (hlx y hy) (hxr z hz)

/-- One element has come in. -/
theorem PlacedFirst.perm (h : C.PlacedFirst d l l') : l'.Perm (d :: l) := by
  obtain ⟨below, above, rfl, rfl, -, -⟩ := h
  exact List.perm_middle

end Comparator

/-- The elements in the order of their images. -/
def Comparator.comap {α β : Type u} (C : Comparator β) (f : α → β) : Comparator α where
  cmp a b := C.cmp (f a) (f b)
  swap a b := C.swap (f a) (f b)
  trans a b c := C.trans (f a) (f b) (f c)

/-- The natural numbers in their order. -/
def natural : Comparator Nat where
  cmp a b := (a : Int) - b
  swap a b := by omega
  trans a b c := by omega

end Lib
end InfinityLabs
