import Mathlib.Data.List.Count
import Mathlib.Data.List.Infix
import Mathlib.Tactic.Common

/-!
# Sections of a text

A contiguous part of a text is what stands at some place, as many elements as it has.  The sections
of one length overlap: the next one drops its first element and takes one more at its end.
-/

namespace InfinityLabs
namespace Lib

variable {α : Type} {s w : List α} {i k n : Nat}

/-- The `n` elements from the place `i` on. -/
def sectionAt (s : List α) (i n : Nat) : List α := (s.drop i).take n

theorem length_sectionAt (h : i + n ≤ s.length) : (sectionAt s i n).length = n := by
  rw [sectionAt, List.length_take, List.length_drop]
  omega

theorem getElem?_sectionAt (j : Nat) :
    (sectionAt s i n)[j]? = if j < n then s[i + j]? else none := by
  rw [sectionAt, List.getElem?_take, List.getElem?_drop]

theorem sectionAt_zero (s : List α) : sectionAt s 0 s.length = s := by
  rw [sectionAt, List.drop_zero, List.take_length]

theorem infix_of_sectionAt (s : List α) (i n : Nat) : sectionAt s i n <:+: s :=
  (List.take_prefix n _).isInfix.trans (List.drop_suffix i s).isInfix

/-- A part of the text is a section. -/
theorem exists_sectionAt (h : w <:+: s) :
    ∃ i, i + w.length ≤ s.length ∧ w = sectionAt s i w.length := by
  obtain ⟨front, behind, rfl⟩ := h
  refine ⟨front.length, by simp, ?_⟩
  rw [sectionAt, List.append_assoc, List.drop_left, List.take_left]

/-- The section at the next place. -/
theorem cons_sectionAt_succ (h : i + n < s.length) :
    s[i] :: sectionAt s (i + 1) n = sectionAt s i n ++ [s[i + n]] := by
  have hlast : n < (s.drop i).length := by
    rw [List.length_drop]
    omega
  have hget : (s.drop i)[n] = s[i + n] := List.getElem_drop
  have hmore : (s.drop i).take (n + 1) = sectionAt s i n ++ [s[i + n]] := by
    rw [List.take_succ_eq_append_getElem hlast, hget, sectionAt]
  rw [← hmore, List.drop_eq_getElem_cons (by omega), List.take_succ_cons, sectionAt]

/-! ## Counting sections -/

/-- The sections of one length at the first places. -/
def sections (s : List α) (n k : Nat) : List (List α) :=
  (List.range k).map fun i => sectionAt s i n

theorem sections_succ : sections s n (k + 1) = sections s n k ++ [sectionAt s k n] := by
  rw [sections, List.range_succ, List.map_append, List.map_singleton, sections]

theorem mem_sections : w ∈ sections s n k ↔ ∃ i < k, sectionAt s i n = w := by
  simp [sections]

variable [DecidableEq α]

/-- A section that is counted more than once stands at two places. -/
theorem two_le_count_sections :
    2 ≤ (sections s n k).count w ↔
      ∃ i j, i < j ∧ j < k ∧ sectionAt s i n = w ∧ sectionAt s j n = w := by
  induction k with
  | zero => simp [sections]
  | succ k ih =>
      rw [sections_succ, List.count_append, List.count_singleton]
      by_cases hlast : sectionAt s k n = w
      case neg =>
        rw [if_neg (by simpa using hlast), Nat.add_zero, ih]
        constructor
        · rintro ⟨i, j, hij, hj, hi, hjw⟩
          exact ⟨i, j, hij, by omega, hi, hjw⟩
        · rintro ⟨i, j, hij, hj, hi, hjw⟩
          refine ⟨i, j, hij, ?_, hi, hjw⟩
          have hne : j ≠ k := fun h => hlast (by rw [← h, hjw])
          omega
      case pos =>
        have hone : 1 ≤ (sections s n k).count w ↔ ∃ i < k, sectionAt s i n = w := by
          rw [← mem_sections]
          exact List.count_pos_iff
        rw [if_pos (by simpa using hlast), Nat.add_le_add_iff_right (n := 1), hone]
        constructor
        · rintro ⟨i, hi, hiw⟩
          exact ⟨i, k, hi, Nat.lt_succ_self k, hiw, hlast⟩
        · rintro ⟨i, j, hij, hj, hi, -⟩
          exact ⟨i, by omega, hi⟩

end Lib
end InfinityLabs
