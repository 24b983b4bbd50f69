import InfinityLabs.Lib.ListParts
import Mathlib.Algebra.BigOperators.Intervals
import Mathlib.Algebra.GroupWithZero.Nat
import Mathlib.Tactic.Common

/-!
# Chunks

A length is cut into `count` chunks.  Each takes the rounded quotient, and the last one takes
what is left over.
-/

namespace InfinityLabs
namespace Lib

/-- Where chunk `i` begins. -/
def chunkStart (length count i : Nat) : Nat :=
  i * (length / count)

/-- Where chunk `i` ends. -/
def chunkEnd (length count i : Nat) : Nat :=
  if i = count - 1 then length else (i + 1) * (length / count)

section Bounds

variable {length count i j k : Nat}

/-- The chunks before one of them do not take more than there is. -/
theorem mul_div_le_length (hi : i ≤ count) : i * (length / count) ≤ length :=
  Nat.le_trans (Nat.mul_le_mul_right _ hi) (Nat.mul_div_le length count)

theorem chunkStart_le (hi : i < count) : chunkStart length count i ≤ length :=
  mul_div_le_length (Nat.le_of_lt hi)

theorem chunkEnd_le (hi : i < count) : chunkEnd length count i ≤ length := by
  unfold chunkEnd
  split
  · exact Nat.le_refl length
  · exact mul_div_le_length hi

theorem chunkStart_le_chunkEnd (hi : i < count) :
    chunkStart length count i ≤ chunkEnd length count i := by
  unfold chunkEnd
  split
  · exact chunkStart_le hi
  · exact Nat.mul_le_mul_right _ (Nat.le_succ i)

/-- A chunk ends where the next one begins. -/
theorem chunkEnd_eq (hi : i + 1 < count) :
    chunkEnd length count i = chunkStart length count (i + 1) :=
  if_neg (by omega)

/-- A chunk ends before the later ones begin. -/
theorem chunkEnd_le_chunkStart (hij : i < j) (hj : j < count) :
    chunkEnd length count i ≤ chunkStart length count j := by
  unfold chunkEnd
  rw [if_neg (by omega)]
  exact Nat.mul_le_mul_right _ hij

/-- Some chunk holds a position. -/
theorem exists_chunk (hcount : 0 < count) (hk : k < length) :
    ∃ i, i < count ∧ chunkStart length count i ≤ k ∧ k < chunkEnd length count i := by
  by_cases hlast : (count - 1) * (length / count) ≤ k
  case pos =>
    refine ⟨count - 1, by omega, hlast, ?_⟩
    unfold chunkEnd
    rwa [if_pos rfl]
  case neg =>
    have hpos : 0 < length / count := by
      apply Nat.pos_of_ne_zero
      intro hzero
      rw [hzero] at hlast
      omega
    have hlt : k / (length / count) < count - 1 :=
      (Nat.div_lt_iff_lt_mul hpos).mpr (Nat.not_le.mp hlast)
    refine ⟨k / (length / count), by omega, Nat.div_mul_le_self k _, ?_⟩
    unfold chunkEnd
    rw [if_neg (by omega), Nat.mul_comm]
    exact Nat.lt_mul_div_succ k hpos

/-- One chunk only holds a position. -/
theorem chunk_unique (hi : i < count) (hj : j < count)
    (hki : chunkStart length count i ≤ k ∧ k < chunkEnd length count i)
    (hkj : chunkStart length count j ≤ k ∧ k < chunkEnd length count j) : i = j := by
  rcases Nat.lt_trichotomy i j with hlt | heq | hlt
  · have hle : chunkEnd length count i ≤ chunkStart length count j :=
      chunkEnd_le_chunkStart hlt hj
    omega
  · exact heq
  · have hle : chunkEnd length count j ≤ chunkStart length count i :=
      chunkEnd_le_chunkStart hlt hi
    omega

/-- The start of a chunk does not wrap. -/
theorem chunkStart_mod {m : Nat} (hi : i < count) (hlength : length < m) :
    i * (length / count) % m = chunkStart length count i :=
  Nat.mod_eq_of_lt (Nat.lt_of_le_of_lt (chunkStart_le hi) hlength)

/-- Nor does its end. -/
theorem chunkEnd_mod {m : Nat} (hi : i < count) (hlength : length < m) :
    (if i = count - 1 then length else (i + 1) * (length / count) % m) =
      chunkEnd length count i := by
  rw [Nat.mod_eq_of_lt (Nat.lt_of_le_of_lt (mul_div_le_length hi) hlength)]
  rfl

/-- Every position lies in exactly one of the chunks, however they are written down. -/
theorem exists_unique_chunk {start stop : Nat → Nat} (hcount : 0 < count)
    (hstart : ∀ i < count, start i = chunkStart length count i)
    (hstop : ∀ i < count, stop i = chunkEnd length count i) (hk : k < length) :
    ∃ i, (i < count ∧ start i ≤ k ∧ k < stop i) ∧
      ∀ j, j < count → start j ≤ k → k < stop j → j = i := by
  obtain ⟨i, hi, hlow, hhigh⟩ := exists_chunk hcount hk
  refine ⟨i, ⟨hi, ?_, ?_⟩, fun j hj hlow' hhigh' => ?_⟩
  · rwa [hstart i hi]
  · rwa [hstop i hi]
  · rw [hstart j hj] at hlow'
    rw [hstop j hj] at hhigh'
    exact chunk_unique hj hi ⟨hlow', hhigh'⟩ ⟨hlow, hhigh⟩

/-- A sum up to a chunk, chunk by chunk. -/
theorem sum_chunks_before (f : Nat → Nat) (hi : i < count) :
    ∑ c ∈ Finset.range i, ∑ k ∈ Finset.Ico (chunkStart length count c) (chunkEnd length count c),
      f k = ∑ k ∈ Finset.Ico 0 (chunkStart length count i), f k := by
  induction i with
  | zero => simp [chunkStart]
  | succ i ih =>
      rw [Finset.sum_range_succ, ih (by omega), chunkEnd_eq hi]
      refine Finset.sum_Ico_consecutive _ (Nat.zero_le _) ?_
      rw [← chunkEnd_eq hi]
      exact chunkStart_le_chunkEnd (by omega)

/-- A sum over a length, chunk by chunk. -/
theorem sum_chunks (f : Nat → Nat) (hcount : 0 < count) :
    ∑ c ∈ Finset.range count,
      ∑ k ∈ Finset.Ico (chunkStart length count c) (chunkEnd length count c), f k =
        ∑ k ∈ Finset.Ico 0 length, f k := by
  have hlast : chunkEnd length count (count - 1) = length := if_pos rfl
  have hsplit := Finset.sum_range_succ (fun c => ∑ k ∈ Finset.Ico (chunkStart length count c)
    (chunkEnd length count c), f k) (count - 1)
  rw [Nat.sub_add_cancel hcount] at hsplit
  rw [hsplit, sum_chunks_before f (by omega), hlast]
  exact Finset.sum_Ico_consecutive _ (Nat.zero_le _) (chunkStart_le (by omega))

end Bounds

/-! ## Cutting a list -/

section Parts

variable {α : Type}

/-- The lengths of the chunks. -/
def chunkWidths (length count : Nat) : List Nat :=
  List.replicate (count - 1) (length / count) ++ [length - (count - 1) * (length / count)]

/-- A list is cut into parts of given lengths. -/
theorem exists_parts (widths : List Nat) (l : List α) (hsum : widths.sum = l.length) :
    ∃ parts : List (List α), parts.flatten = l ∧ parts.map List.length = widths := by
  induction widths generalizing l with
  | nil => exact ⟨[], by simpa [eq_comm] using hsum, rfl⟩
  | cons w widths ih =>
      rw [List.sum_cons] at hsum
      obtain ⟨parts, hflatten, hlengths⟩ := ih (l.drop w) (by rw [List.length_drop]; omega)
      refine ⟨l.take w :: parts, ?_, ?_⟩
      · rw [List.flatten_cons, hflatten, List.take_append_drop]
      · rw [List.map_cons, hlengths, List.length_take_of_le (by omega)]

/-- What the parts before one of them take together. -/
theorem length_flatten_take (parts : List (List α)) (i : Nat) :
    (parts.take i).flatten.length = ((parts.map List.length).take i).sum := by
  rw [List.length_flatten, ← List.map_take]

variable {length count i : Nat}

theorem sum_take_chunkWidths (hi : i < count) :
    ((chunkWidths length count).take i).sum = chunkStart length count i := by
  unfold chunkWidths chunkStart
  rw [List.take_append_of_le_length (by simp; omega), List.take_replicate, List.sum_replicate_nat,
    Nat.min_eq_left (by omega)]

theorem sum_chunkWidths (hcount : 0 < count) : (chunkWidths length count).sum = length := by
  have hle : (count - 1) * (length / count) ≤ length := mul_div_le_length (by omega)
  unfold chunkWidths
  rw [List.sum_append, List.sum_replicate_nat, List.sum_singleton]
  omega

theorem sum_take_succ_chunkWidths (hi : i < count) :
    ((chunkWidths length count).take (i + 1)).sum = chunkEnd length count i := by
  unfold chunkEnd
  by_cases hlast : i = count - 1
  case pos =>
    rw [if_pos hlast, List.take_of_length_le (by simp [chunkWidths]; omega),
      sum_chunkWidths (by omega)]
  case neg =>
    rw [if_neg hlast, sum_take_chunkWidths (by omega)]
    rfl

variable {parts : List (List α)}

/-- There is one part for every chunk. -/
theorem length_parts (hcount : 0 < count)
    (hwidths : parts.map List.length = chunkWidths length count) : parts.length = count := by
  rw [← List.length_map (f := List.length), hwidths]
  simp [chunkWidths]
  omega

/-- A part lies where its chunk does. -/
theorem exists_part (hi : i < count)
    (hwidths : parts.map List.length = chunkWidths length count) :
    ∃ before p after, parts = before ++ p :: after ∧ before.length = i ∧
      chunkStart length count i = before.flatten.length ∧
      chunkEnd length count i = before.flatten.length + p.length := by
  have hstart := length_flatten_take parts i
  have hend := length_flatten_take parts (i + 1)
  rw [hwidths, sum_take_chunkWidths hi] at hstart
  rw [hwidths, sum_take_succ_chunkWidths hi] at hend
  have hlt : i < parts.length := by rwa [length_parts (by omega) hwidths]
  obtain ⟨before, p, after, rfl, rfl⟩ := exists_append_cons_of_lt hlt
  rw [List.take_left] at hstart
  rw [List.take_length_add_append] at hend
  exact ⟨before, p, after, rfl, rfl, hstart.symm, by simpa using hend.symm⟩

/-- The chunk of a list. -/
def chunk (l : List α) (count i : Nat) : List α :=
  (l.drop (chunkStart l.length count i)).take
    (chunkEnd l.length count i - chunkStart l.length count i)

end Parts

end Lib
end InfinityLabs
