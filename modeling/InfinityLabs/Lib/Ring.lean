import InfinityLabs.Lib.ListParts
import Mathlib.Data.List.Rotate
import Mathlib.Tactic.Common

/-!
# A list read and written around its end

Positions in a list that is a ring are counted from some place on and continue at the begin when
the end is reached: reading there is reading the rotated list.  A copy of elements that wraps
around is two copies of parts that do not.
-/

namespace InfinityLabs
namespace Lib

variable {α : Type}

/-- The elements take the places from `i` on. -/
def overwrite (l : List α) (i : Nat) (bytes : List α) : List α :=
  l.take i ++ bytes ++ l.drop (i + bytes.length)

/-- The elements take the places from `i` on, and continue at the begin. -/
def overwriteRing (l : List α) (i : Nat) (bytes : List α) : List α :=
  overwrite (overwrite l i (bytes.take (l.length - i))) 0 (bytes.drop (l.length - i))

variable {l bytes : List α} {i n : Nat}

theorem overwrite_length (h : i + bytes.length ≤ l.length) :
    (overwrite l i bytes).length = l.length := by
  simp only [overwrite, List.length_append, List.length_take, List.length_drop]
  omega

theorem overwrite_nil (l : List α) (i : Nat) : overwrite l i [] = l := by
  simp [overwrite]

/-! ## Reading -/

/-- A part that does not reach the end. -/
theorem take_rotate_of_le (hi : i ≤ l.length) (hn : n ≤ l.length - i) :
    (l.rotate i).take n = (l.drop i).take n := by
  rw [List.rotate_eq_drop_append_take hi, List.take_append_of_le_length]
  rwa [List.length_drop]

/-- A part that continues at the begin. -/
theorem take_rotate_of_ge (hi : i ≤ l.length) (hn : l.length - i ≤ n) (hle : n ≤ l.length) :
    (l.rotate i).take n = l.drop i ++ l.take (n - (l.length - i)) := by
  rw [List.rotate_eq_drop_append_take hi, List.take_append, List.length_drop,
    List.take_of_length_le (by rwa [List.length_drop]), List.take_take, Nat.min_eq_left (by omega)]

/-- What is left behind a part is the same part of the ring from a later place. -/
theorem drop_take_rotate {size : Nat} (hn : n ≤ size) (hsize : size ≤ l.length) :
    (l.rotate ((i + n) % l.length)).take (size - n) = ((l.rotate i).take size).drop n := by
  have hlength : (l.rotate i).length = l.length := List.length_rotate ..
  rw [List.rotate_mod, ← List.rotate_rotate, List.rotate_eq_drop_append_take (by omega),
    List.take_append_of_le_length (by rw [List.length_drop]; omega), List.drop_take]

/-! ## Writing -/

/-- What overwriting makes of the parts of a list. -/
theorem overwrite_split (l₁ : List α) {l₂ : List α} (h : l₂.length = bytes.length)
    (l₃ : List α) :
    overwrite (l₁ ++ (l₂ ++ l₃)) l₁.length bytes = l₁ ++ (bytes ++ l₃) := by
  have hdrop : (l₁ ++ (l₂ ++ l₃)).drop (l₁.length + bytes.length) = l₃ := by
    rw [← List.append_assoc, ← h, ← List.length_append, List.drop_left]
  rw [overwrite, hdrop, List.take_left, List.append_assoc]

/-- What is written behind a part that was written makes one part with it. -/
theorem overwrite_overwrite (hi : i ≤ l.length) (bytes' : List α) :
    overwrite (overwrite l i bytes) (i + bytes.length) bytes' =
      overwrite l i (bytes ++ bytes') := by
  have hdone : (l.take i ++ bytes).length = i + bytes.length := by
    rw [List.length_append, List.length_take, Nat.min_eq_left hi]
  have htake : (overwrite l i bytes).take (i + bytes.length) = l.take i ++ bytes :=
    List.take_left' hdone
  have hdrop : (overwrite l i bytes).drop (i + bytes.length + bytes'.length) =
      l.drop (i + bytes.length + bytes'.length) := by
    rw [overwrite, ← List.drop_drop, List.drop_left' hdone, List.drop_drop]
  rw [overwrite, htake, hdrop, overwrite, List.length_append]
  simp only [Nat.add_assoc, List.append_assoc]

/-- Elements that do not reach the end. -/
theorem overwriteRing_of_le (hn : bytes.length ≤ l.length - i) :
    overwriteRing l i bytes = overwrite l i bytes := by
  rw [overwriteRing, List.take_of_length_le hn, List.drop_of_length_le hn, overwrite_nil]

/-- Seen from the place of writing, the elements are written at the begin. -/
theorem rotate_overwriteRing (hi : i ≤ l.length) (hn : bytes.length ≤ l.length) :
    (overwriteRing l i bytes).rotate i = bytes ++ (l.rotate i).drop bytes.length := by
  by_cases hfit : bytes.length ≤ l.length - i
  · -- the elements take the place of a part `q` behind `i`
    obtain ⟨p, q, r, rfl, rfl, hq⟩ := exists_range (Nat.le_add_right i bytes.length)
      (by omega : i + bytes.length ≤ l.length)
    have hlength : q.length = bytes.length := Nat.add_left_cancel hq
    rw [overwriteRing_of_le hfit, overwrite_split p hlength, List.rotate_append_length_eq,
      List.rotate_append_length_eq, List.append_assoc, List.append_assoc, ← hlength,
      List.drop_left]
  · -- they fill the part `q` behind `i`, and take the place of a part `p₁` of what is before
    obtain ⟨p, q, rfl, rfl⟩ : ∃ p q, l = p ++ q ∧ p.length = i :=
      ⟨l.take i, l.drop i, (List.take_append_drop i l).symm, List.length_take_of_le hi⟩
    rw [List.length_append] at hn hfit
    obtain ⟨b, c, rfl, hb⟩ : ∃ b c, bytes = b ++ c ∧ b.length = q.length :=
      ⟨bytes.take q.length, bytes.drop q.length, (List.take_append_drop _ bytes).symm,
        List.length_take_of_le (by omega)⟩
    rw [List.length_append] at hn hfit
    obtain ⟨p₁, p₂, rfl, hp₁⟩ : ∃ p₁ p₂, p = p₁ ++ p₂ ∧ p₁.length = c.length :=
      ⟨p.take c.length, p.drop c.length, (List.take_append_drop _ p).symm,
        List.length_take_of_le (by omega)⟩
    have hcount : ((p₁ ++ p₂) ++ q).length - (p₁ ++ p₂).length = b.length := by
      rw [List.length_append, Nat.add_sub_cancel_left, hb]
    have hinner : overwrite ((p₁ ++ p₂) ++ q) (p₁ ++ p₂).length b = (p₁ ++ p₂) ++ b := by
      have hsplit := overwrite_split (p₁ ++ p₂) hb.symm []
      rwa [List.append_nil, List.append_nil] at hsplit
    have houter : overwrite ((p₁ ++ p₂) ++ b) 0 c = (c ++ p₂) ++ b := by
      have hsplit := overwrite_split [] hp₁ (p₂ ++ b)
      rwa [List.nil_append, List.nil_append, ← List.append_assoc, ← List.append_assoc] at hsplit
    have hlength : (p₁ ++ p₂).length = (c ++ p₂).length := by
      rw [List.length_append, List.length_append, hp₁]
    have hdrop : (q ++ (p₁ ++ p₂)).drop (b ++ c).length = p₂ := by
      rw [List.length_append, hb, ← hp₁, ← List.length_append, ← List.append_assoc,
        List.drop_left]
    rw [overwriteRing, hcount, List.take_left, List.drop_left, hinner, houter, hlength,
      List.rotate_append_length_eq, ← hlength, List.rotate_append_length_eq, hdrop,
      List.append_assoc]

/-- Writing keeps the length. -/
theorem overwriteRing_length (hi : i ≤ l.length) (hn : bytes.length ≤ l.length) :
    (overwriteRing l i bytes).length = l.length := by
  have hcount := congrArg List.length (rotate_overwriteRing hi hn)
  rw [List.length_rotate, List.length_append, List.length_drop, List.length_rotate] at hcount
  omega

/-- The part behind the elements that are written. -/
theorem take_rotate_overwriteRing {size : Nat} (hi : i < l.length)
    (hroom : size + bytes.length ≤ l.length) :
    ((overwriteRing l ((i + size) % l.length) bytes).rotate i).take (size + bytes.length) =
      (l.rotate i).take size ++ bytes := by
  have hpos : 0 < l.length := Nat.lt_of_le_of_lt (Nat.zero_le i) hi
  have hplace : (i + size) % l.length ≤ l.length := Nat.le_of_lt (Nat.mod_lt _ hpos)
  have hback : ∀ l' : List α, l'.length = l.length →
      l'.rotate i = (l'.rotate ((i + size) % l.length)).rotate (l.length - size) := by
    intro l' hl'
    rw [List.rotate_rotate, ← List.rotate_mod l' (_ + _), hl', Nat.mod_add_mod,
      show i + size + (l.length - size) = i + l.length by omega, Nat.add_mod_right,
      Nat.mod_eq_of_lt hi]
  rw [hback _ (overwriteRing_length hplace (by omega)), hback l rfl,
    rotate_overwriteRing hplace (by omega)]
  generalize hrotate : l.rotate ((i + size) % l.length) = r
  have hr : r.length = l.length := by rw [← hrotate, List.length_rotate]
  -- `z` is what is stored, and the elements take the place of `x` behind it
  obtain ⟨x, y, z, rfl, hx, hy⟩ := exists_range (by omega : bytes.length ≤ l.length - size)
    (by omega : l.length - size ≤ r.length)
  rw [List.length_append, List.length_append] at hr
  have hz : z.length = size := by omega
  have hwritten : (bytes ++ (x ++ (y ++ z)).drop bytes.length).rotate (l.length - size) =
      z ++ (bytes ++ y) := by
    rw [← hx, List.drop_left, ← List.append_assoc, ← hy, hx, ← List.length_append,
      List.rotate_append_length_eq]
  have hstored : (x ++ (y ++ z)).rotate (l.length - size) = z ++ (x ++ y) := by
    rw [← List.append_assoc, ← hy, ← List.length_append, List.rotate_append_length_eq]
  rw [hwritten, hstored, ← hz, List.take_left, ← List.length_append, ← List.append_assoc,
    List.take_left]

end Lib
end InfinityLabs
