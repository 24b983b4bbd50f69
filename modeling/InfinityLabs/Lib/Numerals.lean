import Mathlib.Algebra.Group.Nat.Defs
import Mathlib.Data.List.Forall2
import Mathlib.Data.Nat.Digits.Defs

/-!
# Numerals

The digits of a number to a base, the highest first.  A reader multiplies what it has by the base
and adds the next digit; of two numerals of one length, the lower one has the lower digit where
they first differ.
-/

namespace InfinityLabs
namespace Lib

variable {b d : Nat} {ds es : List Nat}

/-- The number of a numeral, its highest digit first. -/
def numeralValue (b : Nat) (ds : List Nat) : Nat := Nat.ofDigits b ds.reverse

@[simp] theorem numeralValue_nil : numeralValue b [] = 0 := rfl

theorem numeralValue_append :
    numeralValue b (ds ++ es) = numeralValue b ds * b ^ es.length + numeralValue b es := by
  unfold numeralValue
  rw [List.reverse_append, Nat.ofDigits_append, List.length_reverse, Nat.add_comm, Nat.mul_comm]

/-- A further digit is read. -/
theorem numeralValue_concat : numeralValue b (ds ++ [d]) = numeralValue b ds * b + d := by
  rw [numeralValue_append, List.length_singleton, Nat.pow_one]
  simp [numeralValue]

theorem numeralValue_cons :
    numeralValue b (d :: ds) = d * b ^ ds.length + numeralValue b ds := by
  rw [← List.singleton_append, numeralValue_append]
  simp [numeralValue]

theorem numeralValue_lt (hb : 1 < b) (hdigits : ∀ d ∈ ds, d < b) :
    numeralValue b ds < b ^ ds.length := by
  have hlt := Nat.ofDigits_lt_base_pow_length hb
    fun d hd => hdigits d (List.mem_reverse.mp hd)
  rwa [List.length_reverse] at hlt

/-- Further digits do not make a number lower. -/
theorem numeralValue_le_append (hb : 0 < b) :
    numeralValue b ds ≤ numeralValue b (ds ++ es) := by
  rw [numeralValue_append]
  exact Nat.le_add_right_of_le (Nat.le_mul_of_pos_right _ (Nat.pow_pos hb))

/-- A numeral is zero if all its digits are. -/
theorem numeralValue_eq_zero (hb : 0 < b) : numeralValue b ds = 0 ↔ ∀ d ∈ ds, d = 0 := by
  induction ds with
  | nil => simp
  | cons d ds ih =>
      have hpow : b ^ ds.length ≠ 0 := Nat.ne_of_gt (Nat.pow_pos hb)
      rw [numeralValue_cons, Nat.add_eq_zero_iff, Nat.mul_eq_zero, ih, List.forall_mem_cons]
      simp only [hpow, or_false]

/-! ## Comparing numerals of one length -/

theorem numeralValue_le_of_forall₂ (h : List.Forall₂ (· ≤ ·) ds es) :
    numeralValue b ds ≤ numeralValue b es := by
  induction h with
  | nil => exact Nat.le_refl _
  | cons hd hrest ih =>
      rw [numeralValue_cons, numeralValue_cons, hrest.length_eq]
      exact Nat.add_le_add (Nat.mul_le_mul_right _ hd) ih

/-- The first digit in which they differ decides. -/
theorem numeralValue_le_of_lt {us vs : List Nat} {e : Nat} (hb : 1 < b) (hde : d < e)
    (hus : ∀ x ∈ us, x < b) (hlength : us.length = vs.length) :
    numeralValue b (ds ++ d :: us) ≤ numeralValue b (ds ++ e :: vs) := by
  have hlt := numeralValue_lt hb hus
  have hstep : d * b ^ us.length + b ^ us.length ≤ e * b ^ us.length := by
    rw [← Nat.succ_mul]
    exact Nat.mul_le_mul_right _ hde
  rw [numeralValue_append, numeralValue_append, numeralValue_cons, numeralValue_cons,
    List.length_cons, List.length_cons, ← hlength]
  omega

theorem numeralValue_append_le (h : numeralValue b ds ≤ numeralValue b es) (us : List Nat) :
    numeralValue b (ds ++ us) ≤ numeralValue b (es ++ us) := by
  rw [numeralValue_append, numeralValue_append]
  exact Nat.add_le_add_right (Nat.mul_le_mul_right _ h) _

/-- Leading zeros do not count. -/
theorem numeralValue_dropWhile (ds : List Nat) :
    numeralValue b (ds.dropWhile (· = 0)) = numeralValue b ds := by
  induction ds with
  | nil => rfl
  | cons d ds ih =>
      by_cases hd : d = 0
      case pos =>
        rw [List.dropWhile_cons_of_pos (by simpa using hd), ih, hd, numeralValue_cons, Nat.zero_mul,
          Nat.zero_add]
      case neg => rw [List.dropWhile_cons_of_neg (by simpa using hd)]

/-! ## Decimal texts -/

/-- The digits of a number; zero has one. -/
def decimalDigits (n : Nat) : List Nat := if n = 0 then [0] else (Nat.digits 10 n).reverse

/-- The byte of a digit. -/
def digitByte (d : Nat) : UInt8 := UInt8.ofNat (0x30 + d)

/-- The decimal text of a number. -/
def decimalBytes (n : Nat) : List UInt8 := (decimalDigits n).map digitByte

theorem toNat_digitByte (hd : d < 10) : (digitByte d).toNat = 0x30 + d := by
  rw [digitByte, UInt8.toNat_ofNat']
  omega

/-- The digits are those of the number. -/
theorem numeralValue_decimalDigits (n : Nat) : numeralValue 10 (decimalDigits n) = n := by
  rw [decimalDigits, numeralValue]
  split
  next hzero =>
    subst hzero
    rfl
  next => rw [List.reverse_reverse, Nat.ofDigits_digits]

theorem decimalDigits_lt {n : Nat} (hd : d ∈ decimalDigits n) : d < 10 := by
  rw [decimalDigits] at hd
  split at hd
  · rw [List.mem_singleton.mp hd]
    decide
  · exact Nat.digits_lt_base (by decide) (List.mem_reverse.mp hd)

theorem decimalDigits_ne_nil (n : Nat) : decimalDigits n ≠ [] := by
  rw [decimalDigits]
  split
  next => exact List.cons_ne_nil 0 []
  next hn =>
    intro hnil
    exact hn (Nat.digits_eq_nil_iff_eq_zero.mp (List.reverse_eq_nil_iff.mp hnil))

/-- The digits of the number of a numeral are those behind its leading zeros. -/
theorem decimalDigits_numeralValue (hdigits : ∀ d ∈ ds, d < 10) :
    decimalDigits (numeralValue 10 ds) =
      if ds.dropWhile (· = 0) = [] then [0] else ds.dropWhile (· = 0) := by
  have hrest : ∀ d ∈ ds.dropWhile (· = 0), d < 10 := fun d hd =>
    hdigits d ((List.dropWhile_sublist _).mem hd)
  have hhead := List.head?_dropWhile_not (fun d : Nat => decide (d = 0)) ds
  rw [← numeralValue_dropWhile, decimalDigits]
  cases hdrop : ds.dropWhile (· = 0) with
  | nil => rfl
  | cons d es =>
      rw [hdrop] at hrest
      simp only [hdrop, List.head?_cons, decide_eq_false_iff_not] at hhead
      have hpos : numeralValue 10 (d :: es) ≠ 0 := by
        rw [ne_eq, numeralValue_eq_zero (by decide)]
        exact fun h => hhead (h d List.mem_cons_self)
      rw [if_neg hpos, if_neg (List.cons_ne_nil d es), numeralValue,
        Nat.digits_ofDigits 10 (by decide) _ (fun x hx => hrest x (List.mem_reverse.mp hx)),
        List.reverse_reverse]
      intro hne
      rw [List.getLast_reverse]
      exact hhead

end Lib
end InfinityLabs
