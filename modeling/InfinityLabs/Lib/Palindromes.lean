import InfinityLabs.Lib.Sections
import Mathlib.Data.List.Palindrome
import Mathlib.Tactic.Common

/-!
# Palindromes in a text

A section of a text is a palindrome if it is the same from both sides.  Sections around one centre
lie in each other: the one that cannot be made longer there is the longest.
-/

namespace InfinityLabs
namespace Lib

variable {α : Type} {s w : List α} {a b a' b' k n : Nat}

/-- From `a` up to `b` the text is the same from both sides. -/
structure Mirrored (s : List α) (a b : Nat) : Prop where
  inside : b ≤ s.length
  same : ∀ i j, a ≤ i → a ≤ j → i + j + 1 = a + b → s[i]? = s[j]?

namespace Mirrored

/-- One more place on both sides. -/
theorem grow (h : Mirrored s (a + 1) b) (hb : b < s.length) (hsame : s[a]? = s[b]?) :
    Mirrored s a (b + 1) where
  inside := hb
  same i j hi hj hsum := by
    by_cases hfirst : i = a
    case pos =>
      obtain rfl : j = b := by omega
      rw [hfirst, hsame]
    case neg =>
      by_cases hlast : j = a
      case pos =>
        obtain rfl : i = b := by omega
        rw [hlast, hsame]
      case neg => exact h.same i j (by omega) (by omega) (by omega)

/-- **The longest around a centre**: a section that ends at the text's end or between two places
that differ lies around every other one. -/
theorem le_of_end (hend : a = 0 ∨ b = s.length ∨ s[a - 1]? ≠ s[b]?) (hab : a ≤ b + 1)
    (h : Mirrored s a' b') (hcentre : a' + b' = a + b) : a ≤ a' := by
  by_contra hlt
  have hinside := h.inside
  have hsame := h.same (a - 1) b (by omega) (by omega) (by omega)
  rcases hend with hzero | hlength | hdiffer
  · omega
  · omega
  · exact hdiffer hsame

end Mirrored

/-- A section of the text is a palindrome if it is the same from both sides. -/
theorem mirrored_iff_palindrome (h : a + n ≤ s.length) :
    Mirrored s a (a + n) ↔ (sectionAt s a n).Palindrome := by
  have hlength := length_sectionAt h
  rw [List.Palindrome.iff_reverse_eq]
  constructor
  · intro hmirror
    refine List.ext_getElem? fun i => ?_
    by_cases hi : i < n
    case pos =>
      rw [List.getElem?_reverse (by omega), hlength, getElem?_sectionAt, getElem?_sectionAt,
        if_pos (by omega), if_pos hi]
      exact hmirror.same _ _ (by omega) (by omega) (by omega)
    case neg =>
      rw [List.getElem?_eq_none (by rw [List.length_reverse]; omega),
        List.getElem?_eq_none (by omega)]
  · intro hreverse
    refine ⟨h, fun i j hi hj hsum => ?_⟩
    obtain ⟨i, rfl⟩ := Nat.exists_eq_add_of_le hi
    have hplace := congrArg (fun w => w[i]?) hreverse
    rw [List.getElem?_reverse (by omega), hlength, getElem?_sectionAt, getElem?_sectionAt,
      if_pos (by omega), if_pos (by omega)] at hplace
    rw [← hplace]
    congr 1
    omega

/-- The whole text. -/
theorem mirrored_iff_palindrome_whole : Mirrored s 0 s.length ↔ s.Palindrome := by
  have hwhole := @mirrored_iff_palindrome _ s 0 s.length (Nat.le_of_eq (Nat.zero_add _))
  rwa [Nat.zero_add, sectionAt_zero] at hwhole

/-- A palindrome in the text, and none is longer. -/
structure IsLongestPalindrome (s w : List α) : Prop where
  part : w <:+: s
  palindrome : w.Palindrome
  longest : ∀ v, v <:+: s → v.Palindrome → v.length ≤ w.length

end Lib
end InfinityLabs
