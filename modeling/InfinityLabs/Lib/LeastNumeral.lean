import InfinityLabs.Lib.Numerals
import Mathlib.Data.List.Infix

/-!
# The least numeral that is left

Some digits of a numeral are taken out and the others keep their order.  Where a digit is followed
by a lower one and those in front of it do not fall, it can be taken out: whatever keeps it has
something no higher without it.  Digits that do not fall are best kept from the front on.

The digits are elements with a weight.
-/

namespace InfinityLabs
namespace Lib

variable {α : Type} {f : α → Nat} {b k : Nat} {front rest word kept other : List α} {x c : α}

/-- The number of some elements. -/
def weightValue (b : Nat) (f : α → Nat) (word : List α) : Nat := numeralValue b (word.map f)

/-- What is left of a word when `k` elements are taken out. -/
structure LeavesOut (k : Nat) (word kept : List α) : Prop where
  sub : kept.Sublist word
  length : kept.length + k = word.length

/-- What is left has the least number there is. -/
structure IsLeastLeft (b : Nat) (f : α → Nat) (k : Nat) (word kept : List α) : Prop where
  left : LeavesOut k word kept
  least : ∀ other, LeavesOut k word other → weightValue b f kept ≤ weightValue b f other

/-- The elements do not fall. -/
def Rising (f : α → Nat) (word : List α) : Prop := word.Pairwise fun x y => f x ≤ f y

/-! ## Elements that do not fall -/

/-- The first elements are the lowest, place by place. -/
theorem Rising.take_le (h : Rising f word) (hsub : kept.Sublist word) :
    List.Forall₂ (· ≤ ·) ((word.take kept.length).map f) (kept.map f) := by
  induction word generalizing kept with
  | nil =>
      rw [List.sublist_nil.mp hsub]
      exact .nil
  | cons a word ih =>
      obtain ⟨ha, hword⟩ := List.pairwise_cons.mp h
      cases kept with
      | nil => exact .nil
      | cons y kept =>
          rw [List.length_cons, List.take_succ_cons, List.map_cons, List.map_cons]
          refine .cons ?_ (ih hword ?_)
          · rcases List.mem_cons.mp (hsub.mem List.mem_cons_self) with rfl | hy
            · exact Nat.le_refl _
            · exact ha y hy
          · exact hsub.of_cons_cons

/-- **Taking out from the end** leaves the least number. -/
theorem Rising.isLeastLeft (h : Rising f word) (hk : k ≤ word.length) :
    IsLeastLeft b f k word (word.take (word.length - k)) where
  left := ⟨List.take_sublist _ _, by rw [List.length_take]; omega⟩
  least other hother := by
    have hlength : other.length = word.length - k := by have := hother.length; omega
    rw [← hlength]
    exact numeralValue_le_of_forall₂ (h.take_le hother.sub)

theorem isLeastLeft_zero (word : List α) : IsLeastLeft b f 0 word word where
  left := ⟨List.Sublist.refl word, rfl⟩
  least other hother := by
    rw [hother.sub.eq_of_length hother.length]

/-! ## Taking out a digit in front of a lower one -/

/-- What is left without the digit is left from the whole word. -/
theorem LeavesOut.of_without (h : LeavesOut k (front ++ rest) kept) :
    LeavesOut (k + 1) (front ++ x :: rest) kept where
  sub := h.sub.trans (List.Sublist.append (List.Sublist.refl front) (List.sublist_cons_self x rest))
  length := by
    have hlength := h.length
    rw [List.length_append] at hlength ⊢
    rw [List.length_cons]
    omega

/-- Behind the same elements the lower one gives no higher number, whatever follows. -/
theorem weightValue_exchange (hb : 1 < b) (hlower : f c < f x) {us vs : List α}
    (hweight : ∀ y ∈ us, f y < b) (hlength : us.length = vs.length) :
    weightValue b f (front ++ c :: us) ≤ weightValue b f (front ++ x :: vs) := by
  unfold weightValue
  rw [List.map_append, List.map_append, List.map_cons, List.map_cons]
  refine numeralValue_le_of_lt hb hlower (fun y hy => ?_)
    (by rw [List.length_map, List.length_map, hlength])
  obtain ⟨z, hz, rfl⟩ := List.mem_map.mp hy
  exact hweight z hz

/-- What keeps everything behind the digit has left something out in front of it, so that one more
of the first elements is no higher than the digit. -/
theorem Rising.weightValue_le (hrising : Rising f (front ++ [x])) (hsub : kept.Sublist front)
    (hlength : kept.length < front.length) :
    weightValue b f (front.take (kept.length + 1) ++ rest) ≤
      weightValue b f (kept ++ x :: rest) := by
  have hbegin := hrising.take_le (hsub.append (List.Sublist.refl [x]))
  rw [List.length_append, List.length_singleton,
    List.take_append_of_le_length (by omega)] at hbegin
  have hle := @numeralValue_append_le b _ _ (numeralValue_le_of_forall₂ hbegin) (rest.map f)
  rw [← List.map_append, ← List.map_append, List.append_assoc] at hle
  exact hle

/-- Whatever is left of the whole word has something no higher without the digit. -/
theorem exists_without (hb : 1 < b) (hweight : ∀ y ∈ c :: rest, f y < b) (hlower : f c < f x)
    (hrising : Rising f (front ++ [x])) (h : LeavesOut (k + 1) (front ++ x :: c :: rest) kept) :
    ∃ other, LeavesOut k (front ++ c :: rest) other ∧
      weightValue b f other ≤ weightValue b f kept := by
  obtain ⟨hsub, hlength⟩ := h
  rw [List.length_append, List.length_cons, List.length_cons] at hlength
  obtain ⟨first, second, rfl, hfirst, hsecond⟩ := List.sublist_append_iff.mp hsub
  rw [List.length_append] at hlength
  have hrest : ∀ us : List α, us.Sublist rest → ∀ y ∈ us, f y < b := fun us hus y hy =>
    hweight y (List.mem_cons_of_mem c (hus.mem hy))
  have hleft : ∀ us : List α, us.Sublist rest →
      first.length + us.length + k = front.length + rest.length →
      LeavesOut k (front ++ c :: rest) (first ++ c :: us) := by
    intro us hus hsame
    refine ⟨hfirst.append (hus.cons_cons c), ?_⟩
    rw [List.length_append, List.length_append, List.length_cons, List.length_cons]
    omega
  rcases List.sublist_cons_iff.mp hsecond with hskip | ⟨third, rfl, hthird⟩
  · refine ⟨first ++ second, ⟨hfirst.append hskip, ?_⟩, Nat.le_refl _⟩
    rw [List.length_append, List.length_append, List.length_cons]
    omega
  · rw [List.length_cons] at hlength
    rcases List.sublist_cons_iff.mp hthird with hskip | ⟨last, rfl, hlast⟩
    · exact ⟨first ++ c :: third, hleft third hskip (by omega),
        weightValue_exchange hb hlower (hrest third hskip) rfl⟩
    · rw [List.length_cons] at hlength
      by_cases hroom : last.length < rest.length
      case pos =>
        have htake : (rest.take (last.length + 1)).length = last.length + 1 := by
          rw [List.length_take]
          omega
        have hkept := List.take_sublist (last.length + 1) rest
        exact ⟨first ++ c :: rest.take (last.length + 1), hleft _ hkept (by omega),
          weightValue_exchange hb hlower (hrest _ hkept) (by rw [htake, List.length_cons])⟩
      case neg =>
        -- then something in front is taken out, and the first ones may be kept instead
        have hall := hlast.length_le
        have htake : (front.take (first.length + 1)).length = first.length + 1 := by
          rw [List.length_take]
          omega
        refine ⟨front.take (first.length + 1) ++ c :: last,
          ⟨(List.take_sublist _ _).append (hlast.cons_cons c), ?_⟩,
          hrising.weightValue_le hfirst (by omega)⟩
        rw [List.length_append, List.length_append, List.length_cons, List.length_cons, htake]
        omega

/-- **Taking out** a digit in front of a lower one, where those in front of it do not fall. -/
theorem IsLeastLeft.of_without (hb : 1 < b) (hweight : ∀ y ∈ c :: rest, f y < b)
    (hlower : f c < f x) (hrising : Rising f (front ++ [x])) (h : IsLeastLeft b f k (front ++ c :: rest) kept) :
    IsLeastLeft b f (k + 1) (front ++ x :: c :: rest) kept where
  left := h.left.of_without
  least other hother := by
    obtain ⟨without, hwithout, hle⟩ := exists_without hb hweight hlower hrising hother
    exact Nat.le_trans (h.least without hwithout) hle

end Lib
end InfinityLabs
