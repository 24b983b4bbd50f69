import InfinityLabs.Lib.CInts
import InfinityLabs.Lib.Numerals
import InfinityLabs.Recursion.SubstringSearch

/-!
# Reading a number to a base

`AtoiBase` of `c/ws9/ex.c`: whitespace, a sign, and the digits that are valid in the base, with a
test before every digit that keeps the result within `long`.

The sign is an `int` and the digit an `unsigned int`, so that their product is unsigned: behind a
minus sign every digit but zero is added as a number close to 2^32, and the result is positive.
Numbers without a minus sign are read as they should be.

`long` has 64 bits and `int` 32, as where the code was written; characters are told apart as in
the "C" locale.
-/

namespace InfinityLabs
namespace Exercises

open Lib
open Sorting.MtQuickSort (CString)
open Recursion (inMemory)

namespace AtoiBase

/-! ## Types and characters of C -/

/-- `LONG_MAX`. -/
def longMax : Int := 2 ^ 63 - 1

/-- `LONG_MIN`. -/
def longMin : Int := -2 ^ 63

/-- The result of an operation on `long`. -/
def toLong (x : Int) : Except Trap Int :=
  if longMin ≤ x ∧ x ≤ longMax then .ok x else .error .overflow

/-- `x / y` on `long`. -/
def divLong (x y : Int) : Except Trap Int :=
  if y = 0 then .error .divisionByZero else toLong (x.tdiv y)

/-- The value of an operation on `unsigned int`. -/
def toUnsigned (x : Int) : Int := x % 2 ^ 32

def isspace (c : UInt8) : Bool := decide (c = 0x20 ∨ 0x09 ≤ c ∧ c ≤ 0x0D)

def isdigit (c : UInt8) : Bool := decide (0x30 ≤ c ∧ c ≤ 0x39)

def isalpha (c : UInt8) : Bool :=
  decide (0x41 ≤ c ∧ c ≤ 0x5A ∨ 0x61 ≤ c ∧ c ≤ 0x7A)

def toupper (c : UInt8) : UInt8 := if 0x61 ≤ c ∧ c ≤ 0x7A then c - 0x20 else c

/-- `'-'`. -/
def minus : UInt8 := 0x2D

/-- `'+'`. -/
def plus : UInt8 := 0x2B

/-! ## The code -/

/-- `WillOverflow`. -/
def willOverflow (result digit base sign : Int) : Except Trap Bool := do
  if sign > 0 then
    pure (decide (result > (← divLong (← toLong (longMax - digit)) base)))
  else
    pure (decide (result < (← divLong (← toLong (longMin + digit)) base)))

/-- Leading spaces are skipped. -/
def skipSpaces : List UInt8 → Except Trap (List UInt8)
  | [] => .error .outOfBounds
  | c :: text => if isspace c then skipSpaces text else .ok (c :: text)

/-- The sign, and the text behind it. -/
def readSign : List UInt8 → Except Trap (Int × List UInt8)
  | [] => .error .outOfBounds
  | c :: text =>
      if c = minus then .ok (-1, text)
      else if c = plus then .ok (1, text)
      else .ok (1, c :: text)

/-- The digit of a character; other characters end the loop. -/
def digitOf (ch : UInt8) : Option Nat :=
  if isdigit ch then some (ch.toNat - 0x30)
  else if isalpha ch then some ((toupper ch).toNat - 0x41 + 10)
  else none

/-- The result behind the loop. -/
def resultOf (result : Int) (hasDigits : Bool) : Int :=
  if hasDigits then result else 0

/-- The loop over the characters. -/
def readDigits (base : Nat) (sign : Int) : List UInt8 → Int → Bool → Except Trap Int
  | [], _, _ => .error .outOfBounds
  | ch :: text, result, hasDigits =>
      if ch = 0 then .ok (resultOf result hasDigits)
      else
        match digitOf ch with
        | none => .ok (resultOf result hasDigits)
        | some digit =>
            if digit ≥ base then .ok (resultOf result hasDigits)
            else do
              if ← willOverflow result digit base sign then
                pure (if sign > 0 then longMax else longMin)
              else
                let product ← toLong (result * base)
                let result ← toLong (product + toUnsigned (sign * digit))
                readDigits base sign text result true

/-- `AtoiBase`; the text is `none` for `NULL`. -/
def atoiBase (text : Option (List UInt8)) (base : Nat) : Except Trap Int :=
  match text with
  | none => .ok 0
  | some text =>
      if base < 2 ∨ base > 36 then .ok 0
      else do
        let text ← skipSpaces text
        let (sign, text) ← readSign text
        readDigits base sign text 0 false

/-! ## Numerals in a text -/

/-- The characters that stand for a digit. -/
def digitChars (d : Nat) : List UInt8 :=
  if d < 10 then [UInt8.ofNat (0x30 + d)]
  else [UInt8.ofNat (0x41 + (d - 10)), UInt8.ofNat (0x61 + (d - 10))]

/-- Space, tabulator, line feed, vertical tabulator, form feed and carriage return. -/
def whitespace : List UInt8 := [0x20, 0x09, 0x0A, 0x0B, 0x0C, 0x0D]

/-- Whitespace, a sign if there is one, and digits that are valid in the base with their
values. -/
structure Numeral (base : Nat) where
  blanks : List UInt8
  sign : List UInt8
  digits : List UInt8
  values : List Nat
  isBlank : ∀ c ∈ blanks, c ∈ whitespace
  isSign : sign = [] ∨ sign = [minus] ∨ sign = [plus]
  isDigit : List.Forall₂ (fun c d => d < base ∧ c ∈ digitChars d) digits values

namespace Numeral

variable {base : Nat}

def text (x : Numeral base) : List UInt8 := x.blanks ++ (x.sign ++ x.digits)

/-- The signed value; without digits it is 0. -/
def value (x : Numeral base) : Int :=
  if x.sign = [minus] then -(numeralValue base x.values : Int) else numeralValue base x.values

/-- The longest numeral the text begins with. -/
structure IsLongest (x : Numeral base) (s : List UInt8) : Prop where
  begins : x.text <+: s
  longest : ∀ y : Numeral base, y.text <+: s → y.text.length ≤ x.text.length

end Numeral

/-- The nearest value of `long`. -/
def clamp (x : Int) : Int := max longMin (min longMax x)

/-! ## Telling characters apart -/

/-- Every character of a digit is read as this digit. -/
theorem digitOf_of_mem {c : UInt8} {d : Nat} (hd : d < 36) (hc : c ∈ digitChars d) :
    digitOf c = some d := by
  have hall : ∀ d < 36, (digitChars d).all (fun c => decide (digitOf c = some d)) = true := by
    decide
  exact of_decide_eq_true (List.all_eq_true.mp (hall d hd) c hc)

theorem eq_ofNat {c : UInt8} {n : Nat} (h : c.toNat = n) : c = UInt8.ofNat n := by
  rw [← h, UInt8.ofNat_toNat]

/-- The digit of a letter is that of the letter or of its capital. -/
theorem mem_digitChars_of_isalpha {c : UInt8} (h : isalpha c = true) :
    c ∈ digitChars ((toupper c).toNat - 0x41 + 10) := by
  simp only [isalpha, decide_eq_true_eq, UInt8.le_iff_toNat_le] at h
  simp at h
  rw [digitChars, if_neg (by omega), List.mem_pair]
  by_cases hlower : 0x61 ≤ c ∧ c ≤ 0x7A
  case pos =>
    have hle : 0x20 ≤ c := UInt8.le_trans (by decide) hlower.1
    have hupper : (toupper c).toNat = c.toNat - 0x20 := by
      rw [toupper, if_pos hlower, UInt8.toNat_sub_of_le _ _ hle]
      rfl
    simp only [UInt8.le_iff_toNat_le] at hlower
    simp at hlower
    exact Or.inr (eq_ofNat (by omega))
  case neg =>
    have hupper : toupper c = c := if_neg hlower
    simp only [UInt8.le_iff_toNat_le] at hlower
    simp at hlower
    rw [hupper]
    exact Or.inl (eq_ofNat (by omega))

theorem mem_digitChars {c : UInt8} {d : Nat} (h : digitOf c = some d) : c ∈ digitChars d := by
  unfold digitOf at h
  split at h
  next hdigit =>
    simp only [isdigit, decide_eq_true_eq, UInt8.le_iff_toNat_le] at hdigit
    simp at hdigit
    obtain rfl := Option.some.inj h
    rw [digitChars, if_pos (by omega), List.mem_singleton]
    exact eq_ofNat (by omega)
  next =>
    split at h
    next halpha =>
      obtain rfl := Option.some.inj h
      exact mem_digitChars_of_isalpha halpha
    next => cases h

theorem isspace_iff {c : UInt8} : isspace c = true ↔ c ∈ whitespace := by
  constructor
  · intro h
    simp only [isspace, decide_eq_true_eq, UInt8.le_iff_toNat_le] at h
    rcases h with rfl | h
    · decide
    · simp at h
      have hnat : c.toNat ∈ [0x09, 0x0A, 0x0B, 0x0C, 0x0D] := by simp; omega
      have hmem := List.mem_map_of_mem (f := UInt8.ofNat) hnat
      rw [UInt8.ofNat_toNat] at hmem
      exact List.mem_cons_of_mem _ hmem
  · intro h
    have hall : whitespace.all isspace = true := by decide
    exact List.all_eq_true.mp hall c h

/-- No character of a digit ends a text, is skipped or is a sign. -/
theorem digitChars_apart {c : UInt8} {d : Nat} (hd : d < 36) (hc : c ∈ digitChars d) :
    c ≠ 0 ∧ isspace c = false ∧ c ≠ minus ∧ c ≠ plus := by
  have hall : ∀ d < 36, (digitChars d).all (fun c =>
      decide (c ≠ 0 ∧ isspace c = false ∧ c ≠ minus ∧ c ≠ plus)) = true := by
    decide
  exact of_decide_eq_true (List.all_eq_true.mp (hall d hd) c hc)

theorem signs_apart : minus ≠ 0 ∧ plus ≠ 0 ∧ isspace minus = false ∧ isspace plus = false := by
  decide

/-! ## Whitespace and the sign -/

variable {blanks digits text rest : List UInt8} {values seen : List Nat} {base d : Nat}
  {c : UInt8} {result : Int} {hasDigits : Bool}

theorem skipSpaces_append (h : ∀ c ∈ blanks, c ∈ whitespace) (text : List UInt8) :
    skipSpaces (blanks ++ text) = skipSpaces text := by
  induction blanks with
  | nil => rfl
  | cons c blanks ih =>
      rw [List.forall_mem_cons] at h
      rw [List.cons_append, skipSpaces, if_pos (isspace_iff.mpr h.1), ih h.2]

theorem skipSpaces_stop (h : isspace c = false) : skipSpaces (c :: text) = .ok (c :: text) := by
  rw [skipSpaces, h, if_neg Bool.false_ne_true]

/-! ## The digits -/

/-- The loop stops in front of this text. -/
def StopsAt (base : Nat) (rest : List UInt8) : Prop :=
  ∀ c ∈ rest.head?, ∀ d < base, c ∉ digitChars d

theorem readDigits_stop {sign : Int} (hstop : StopsAt base rest)
    (hresult : hasDigits = false → result = 0) :
    readDigits base sign (rest ++ [0]) result hasDigits = .ok result := by
  have hend : resultOf result hasDigits = result := by
    cases hasDigits with
    | true => rfl
    | false => rw [hresult rfl]; rfl
  cases rest with
  | nil => rw [List.nil_append, readDigits, if_pos rfl, hend]
  | cons c rest =>
      rw [List.cons_append, readDigits]
      split
      · rw [hend]
      · cases hdigit : digitOf c with
        | none => simp only [hend]
        | some digit =>
            have hlarge : digit ≥ base := by
              by_contra hlt
              exact hstop c rfl digit (Nat.lt_of_not_le hlt) (mem_digitChars hdigit)
            simp only [if_pos hlarge, hend]

/-- A digit is tested and read. -/
theorem readDigits_digit {sign : Int} (hbase : base ≤ 36) (hd : d < base)
    (hc : c ∈ digitChars d) :
    readDigits base sign (c :: text) result hasDigits = (do
      if ← willOverflow result d base sign then pure (if sign > 0 then longMax else longMin)
      else
        let product ← toLong (result * base)
        let result ← toLong (product + toUnsigned (sign * d))
        readDigits base sign text result true) := by
  have hd36 : d < 36 := Nat.lt_of_lt_of_le hd hbase
  rw [readDigits, if_neg (digitChars_apart hd36 hc).1, digitOf_of_mem hd36 hc]
  simp only [if_neg (Nat.not_le_of_lt hd)]

/-! ## Without a minus sign -/

/-- The test before a digit. -/
theorem willOverflow_one (hbase : 0 < base) (hd : d < 36) :
    willOverflow result d base 1 = .ok (decide (longMax < result * base + d)) := by
  have hroom : toLong (longMax - d) = .ok (longMax - d) :=
    if_pos (by unfold longMin longMax; omega)
  have hnonneg : 0 ≤ longMax - (d : Int) := by unfold longMax; omega
  have hquotient : toLong ((longMax - d).tdiv base) = .ok ((longMax - d) / base) := by
    rw [Int.tdiv_eq_ediv_of_nonneg hnonneg]
    have hle := Int.ediv_le_self (base : Int) hnonneg
    have hge := Int.ediv_nonneg hnonneg (Int.natCast_nonneg base)
    exact if_pos (by unfold longMin longMax at *; omega)
  have hiff : result > (longMax - d) / base ↔ longMax < result * base + d := by
    rw [gt_iff_lt, Int.ediv_lt_iff_lt_mul (by omega)]
    omega
  rw [willOverflow, if_pos Int.one_pos, hroom, trap_ok_bind, divLong, if_neg (by omega),
    hquotient, trap_ok_bind]
  simp only [hiff]
  rfl

theorem readDigits_one (hbase : base ≤ 36) (hd : d < base) (hc : c ∈ digitChars d)
    (hresult : 0 ≤ result) :
    readDigits base 1 (c :: text) result hasDigits =
      if longMax < result * base + d then .ok longMax
      else readDigits base 1 text (result * base + d) true := by
  have hunsigned : toUnsigned (1 * d) = d := by unfold toUnsigned; omega
  have hproduct : 0 ≤ result * base := Int.mul_nonneg hresult (Int.natCast_nonneg base)
  rw [readDigits_digit hbase hd hc, willOverflow_one (by omega) (by omega), trap_ok_bind]
  by_cases hover : longMax < result * base + d
  case pos =>
    simp only [hover, decide_true, if_true, if_pos Int.one_pos]
    rfl
  case neg =>
    have hfits : toLong (result * base) = .ok (result * base) :=
      if_pos (by unfold longMin longMax at *; omega)
    have hsum : toLong (result * base + d) = .ok (result * base + d) :=
      if_pos (by unfold longMin longMax at *; omega)
    simp only [hover, decide_false, if_false, Bool.false_eq_true, hunsigned, hfits, hsum,
      trap_ok_bind]

/-- **Without a minus sign** the loop finds the number of all digits, or the largest `long`. -/
theorem readDigits_plus (hbase : base ≤ 36)
    (hdigits : List.Forall₂ (fun c d => d < base ∧ c ∈ digitChars d) digits values)
    (hstop : StopsAt base rest) (hseen : (numeralValue base seen : Int) ≤ longMax)
    (hhas : hasDigits = false → numeralValue base seen = 0) :
    readDigits base 1 (digits ++ (rest ++ [0])) (numeralValue base seen) hasDigits =
      .ok (min longMax (numeralValue base (seen ++ values))) := by
  induction hdigits generalizing seen hasDigits with
  | nil =>
      rw [List.nil_append, List.append_nil, Int.min_eq_right hseen]
      exact readDigits_stop hstop fun h => by rw [hhas h]; rfl
  | @cons c d digits values hdigit _ ih =>
      have hnext : (numeralValue base (seen ++ [d]) : Int) = numeralValue base seen * base + d := by
        rw [numeralValue_concat]
        push_cast
        rfl
      rw [List.cons_append, readDigits_one hbase hdigit.1 hdigit.2 (Int.natCast_nonneg _), ← hnext,
        List.append_cons seen d values]
      split
      next hover =>
        have hbehind := @numeralValue_le_append base (seen ++ [d]) values (by omega)
        rw [Int.min_eq_left (by omega)]
      next hover => exact ih (Int.not_lt.mp hover) fun h => by cases h

/-! ## Behind a minus sign -/

theorem willOverflow_minus (hresult : 0 ≤ result) (hd : d < 36) (hbase : 0 < base) :
    willOverflow result d base (-1) = .ok false := by
  have hsign : ¬ (-1 : Int) > 0 := by decide
  have hroom : toLong (longMin + d) = .ok (longMin + d) :=
    if_pos (by unfold longMin longMax; omega)
  have hneg : longMin + (d : Int) ≤ 0 := by unfold longMin; omega
  have hnonneg : 0 ≤ -(longMin + (d : Int)) := by omega
  -- the quotient of a number below zero is not above it
  have hquotient : (longMin + (d : Int)).tdiv base = -(-(longMin + (d : Int)) / base) := by
    rw [← Int.tdiv_eq_ediv_of_nonneg hnonneg, ← Int.neg_tdiv, Int.neg_neg]
  have hle := Int.ediv_le_self (base : Int) hnonneg
  have hge := Int.ediv_nonneg hnonneg (Int.natCast_nonneg base)
  have hfits : toLong ((longMin + d).tdiv base) = .ok ((longMin + d).tdiv base) :=
    if_pos (by rw [hquotient]; unfold longMin longMax at *; omega)
  rw [willOverflow, if_neg hsign, hroom, trap_ok_bind, divLong, if_neg (by omega), hfits,
    trap_ok_bind, decide_eq_false (by omega)]
  rfl

/-- The digit is added as an unsigned number, which keeps the result from falling. -/
theorem readDigits_neg_one (hbase : base ≤ 36) (hd : d < base) (hc : c ∈ digitChars d)
    (hresult : 0 ≤ result) :
    readDigits base (-1) (c :: text) result hasDigits = (do
      let product ← toLong (result * base)
      let result ← toLong (product + toUnsigned (-1 * d))
      readDigits base (-1) text result true) := by
  rw [readDigits_digit hbase hd hc, willOverflow_minus hresult (by omega) (by omega), trap_ok_bind]
  simp only [Bool.false_eq_true, if_false]

/-- The unsigned product of the sign and a digit. -/
theorem toUnsigned_neg_one (hd : d < 36) :
    toUnsigned (-1 * d) = if d = 0 then 0 else 2 ^ 32 - (d : Int) := by
  unfold toUnsigned
  split <;> omega

theorem eq_of_toLong_bind {x r : Int} {f : Int → Except Trap Int} (h : (toLong x >>= f) = .ok r) :
    f x = .ok r := by
  unfold toLong at h
  split at h
  · exact h
  · cases h

/-- A result above zero stays above it. -/
theorem readDigits_pos (hbase : base ≤ 36)
    (hdigits : List.Forall₂ (fun c d => d < base ∧ c ∈ digitChars d) digits values)
    (hstop : StopsAt base rest) (hresult : 0 < result) {r : Int}
    (h : readDigits base (-1) (digits ++ (rest ++ [0])) result true = .ok r) : 0 < r := by
  induction hdigits generalizing result with
  | nil =>
      rw [List.nil_append, readDigits_stop hstop (fun h => by cases h)] at h
      cases h
      exact hresult
  | @cons c d digits values hdigit _ ih =>
      rw [List.cons_append, readDigits_neg_one hbase hdigit.1 hdigit.2 (by omega)] at h
      have hnext := eq_of_toLong_bind (eq_of_toLong_bind h)
      have hproduct : 0 < result * base := Int.mul_pos hresult (by omega)
      rw [toUnsigned_neg_one (by omega)] at hnext
      exact ih (by split <;> omega) hnext

/-- **Behind a minus sign** zeros are read as zero, and a result with another digit is positive. -/
theorem readDigits_minus (hbase : base ≤ 36)
    (hdigits : List.Forall₂ (fun c d => d < base ∧ c ∈ digitChars d) digits values)
    (hstop : StopsAt base rest) (hasDigits : Bool) :
    ((∀ d ∈ values, d = 0) →
      readDigits base (-1) (digits ++ (rest ++ [0])) 0 hasDigits = .ok 0) ∧
    ((∃ d ∈ values, d ≠ 0) →
      ∀ r, readDigits base (-1) (digits ++ (rest ++ [0])) 0 hasDigits = .ok r → 0 < r) := by
  induction hdigits generalizing hasDigits with
  | nil =>
      refine ⟨fun _ => readDigits_stop hstop fun _ => rfl, ?_⟩
      rintro ⟨d, hd, -⟩
      cases hd
  | @cons c d digits values hdigit hdigits ih =>
      have hzero : toLong (0 * base) = .ok 0 := by rw [Int.zero_mul]; rfl
      have hstep := @readDigits_neg_one (digits ++ (rest ++ [0])) base d c 0 hasDigits hbase
        hdigit.1 hdigit.2 (Int.le_refl 0)
      rw [hzero, trap_ok_bind, toUnsigned_neg_one (by omega), Int.zero_add] at hstep
      rw [List.cons_append, hstep]
      by_cases hd : d = 0
      case pos =>
        have hread : toLong 0 = .ok 0 := rfl
        rw [if_pos hd, hread, trap_ok_bind]
        obtain ⟨hall, hsome⟩ := ih true
        refine ⟨fun h => hall fun e he => h e (List.mem_cons_of_mem d he), fun h => hsome ?_⟩
        obtain ⟨e, he, hne⟩ := h
        exact ⟨e, (List.mem_cons.mp he).resolve_left fun heq => hne (heq.trans hd), hne⟩
      case neg =>
        rw [if_neg hd]
        refine ⟨fun hall => absurd (hall d List.mem_cons_self) hd, fun _ r hr => ?_⟩
        exact readDigits_pos hbase hdigits hstop (by omega) (eq_of_toLong_bind hr)

/-! ## The longest numeral -/

namespace Numeral

/-- A text begins with some longest numeral. -/
theorem exists_isLongest (base : Nat) (s : List UInt8) : ∃ x : Numeral base, x.IsLongest s := by
  classical
  let HasLength (n : Nat) : Prop := ∃ y : Numeral base, y.text <+: s ∧ y.text.length = n
  have hempty : HasLength 0 :=
    ⟨⟨[], [], [], [], by simp, Or.inl rfl, .nil⟩, List.nil_prefix, rfl⟩
  obtain ⟨x, hx, hlength⟩ := Nat.findGreatest_spec (Nat.zero_le s.length) hempty
  refine ⟨x, hx, fun y hy => ?_⟩
  rw [hlength]
  exact Nat.le_findGreatest hy.length_le ⟨y, hy, rfl⟩

variable {x : Numeral base}

/-- A longest numeral does not go on with the next character. -/
theorem IsLongest.not_extended (h : x.IsLongest (x.text ++ c :: rest)) (y : Numeral base) :
    y.text ≠ x.text ++ [c] := by
  intro hy
  have hle := h.longest y ⟨rest, by rw [hy, List.append_assoc, List.singleton_append]⟩
  rw [hy, List.length_append, List.length_singleton] at hle
  omega

theorem IsLongest.stopsAt (h : x.IsLongest (x.text ++ rest)) : StopsAt base rest := by
  intro c hc d hd hmem
  obtain ⟨behind, rfl⟩ : ∃ behind, rest = c :: behind := by
    cases rest with
    | nil => cases hc
    | cons c' behind => exact ⟨behind, by rw [Option.mem_some.mp hc]⟩
  refine h.not_extended ⟨x.blanks, x.sign, x.digits ++ [c], x.values ++ [d], x.isBlank, x.isSign,
    List.rel_append x.isDigit (.cons ⟨hd, hmem⟩ .nil)⟩ ?_
  simp [text]

/-- The whitespace ends where the numeral says. -/
theorem IsLongest.skipSpaces (hbase : base ≤ 36) (h : x.IsLongest (x.text ++ rest)) :
    AtoiBase.skipSpaces (x.sign ++ (x.digits ++ (rest ++ [0]))) =
      .ok (x.sign ++ (x.digits ++ (rest ++ [0]))) := by
  rcases hsign : x.sign with _ | ⟨c, sign⟩
  · have hdigit := x.isDigit
    rcases hdigits : x.digits with _ | ⟨c, digits⟩
    · rcases rest with _ | ⟨c, rest⟩
      · exact skipSpaces_stop (by decide)
      · apply skipSpaces_stop
        by_contra hblank
        rw [Bool.not_eq_false, isspace_iff] at hblank
        refine h.not_extended ⟨x.blanks ++ [c], [], [], [], ?_, Or.inl rfl, .nil⟩ ?_
        · simpa [or_imp, forall_and] using ⟨x.isBlank, hblank⟩
        · simp [text, hsign, hdigits]
    · rw [hdigits] at hdigit
      obtain ⟨d, _, hd, -, -⟩ := List.forall₂_cons_left_iff.mp hdigit
      exact skipSpaces_stop (digitChars_apart (by omega) hd.2).2.1
  · have hmark : c = minus ∨ c = plus := by
      rcases x.isSign with hnone | hminus | hplus
      · rw [hsign] at hnone
        cases hnone
      · rw [hsign] at hminus
        exact Or.inl (List.cons.inj hminus).1
      · rw [hsign] at hplus
        exact Or.inr (List.cons.inj hplus).1
    rcases hmark with rfl | rfl
    · exact skipSpaces_stop signs_apart.2.2.1
    · exact skipSpaces_stop signs_apart.2.2.2

/-- So does the sign. -/
theorem IsLongest.readSign (hbase : base ≤ 36) (h : x.IsLongest (x.text ++ rest)) :
    AtoiBase.readSign (x.sign ++ (x.digits ++ (rest ++ [0]))) =
      .ok (if x.sign = [minus] then -1 else 1, x.digits ++ (rest ++ [0])) := by
  have hstop : ∀ {c : UInt8} (text : List UInt8), c ≠ minus → c ≠ plus →
      AtoiBase.readSign (c :: text) = .ok (1, c :: text) := by
    intro c text hminus hplus
    rw [AtoiBase.readSign, if_neg hminus, if_neg hplus]
  rcases x.isSign with hnone | hminus | hplus
  · rw [hnone, List.nil_append, if_neg (by simp)]
    have hdigit := x.isDigit
    rcases hdigits : x.digits with _ | ⟨c, digits⟩
    · rcases rest with _ | ⟨c, rest⟩
      · exact hstop [] (by decide) (by decide)
      · -- a sign here would make the numeral longer
        have hmark : ∀ m, m = minus ∨ m = plus → c ≠ m := by
          rintro m hm rfl
          refine h.not_extended ⟨x.blanks, [c], [], [], x.isBlank, Or.inr ?_, .nil⟩ ?_
          · simpa using hm
          · simp [text, hnone, hdigits]
        exact hstop _ (hmark minus (Or.inl rfl)) (hmark plus (Or.inr rfl))
    · rw [hdigits] at hdigit
      obtain ⟨d, _, hd, -, -⟩ := List.forall₂_cons_left_iff.mp hdigit
      have hapart := digitChars_apart (show d < 36 by omega) hd.2
      exact hstop _ hapart.2.2.1 hapart.2.2.2
  · rw [hminus, if_pos rfl]
    rfl
  · rw [hplus, if_neg (by decide)]
    rfl

end Numeral

/-- The digits are read from the longest numeral. -/
theorem atoiBase_eq_readDigits {s : CString} {x : Numeral base} (hlow : 2 ≤ base)
    (hbase : base ≤ 36) (hs : s.chars = x.text ++ rest) (h : x.IsLongest s.chars) :
    atoiBase (some (inMemory s)) base =
      readDigits base (if x.sign = [minus] then -1 else 1) (x.digits ++ (rest ++ [0])) 0 false := by
  rw [hs] at h
  have hmemory : inMemory s = x.blanks ++ (x.sign ++ (x.digits ++ (rest ++ [0]))) := by
    simp [inMemory, hs, Numeral.text]
  simp only [atoiBase]
  rw [if_neg (by omega), hmemory, skipSpaces_append x.isBlank, h.skipSpaces hbase, trap_ok_bind,
    h.readSign hbase, trap_ok_bind]

/-- **`AtoiBase`** returns the value of the longest numeral, held within `long`, exactly if there is
no minus sign in front of a digit other than zero. -/
theorem atoiBase_eq_clamp_iff (s : CString) (base : Nat) (hlow : 2 ≤ base) (hbase : base ≤ 36) :
    (∃ x : Numeral base, x.IsLongest s.chars) ∧
      ∀ x : Numeral base, x.IsLongest s.chars →
        (atoiBase (some (inMemory s)) base = .ok (clamp x.value) ↔
          (x.sign ≠ [minus] ∨ ∀ d ∈ x.values, d = 0)) := by
  refine ⟨Numeral.exists_isLongest base s.chars, fun x hx => ?_⟩
  obtain ⟨rest, hrest⟩ := hx.begins
  have hstop : StopsAt base rest := (hrest ▸ hx : x.IsLongest (x.text ++ rest)).stopsAt
  rw [atoiBase_eq_readDigits hlow hbase hrest.symm hx, Numeral.value]
  by_cases hsign : x.sign = [minus]
  case neg =>
    have hplus := @readDigits_plus x.digits rest x.values [] base false hbase x.isDigit hstop
      (by unfold longMax; simp) fun _ => rfl
    rw [numeralValue_nil, List.nil_append, Int.natCast_zero] at hplus
    have hclamp :
        clamp (numeralValue base x.values) = min longMax (numeralValue base x.values) := by
      unfold clamp longMin longMax
      omega
    rw [if_neg hsign, if_neg hsign, hplus, hclamp]
    exact ⟨fun _ => Or.inl hsign, fun _ => rfl⟩
  case pos =>
    obtain ⟨hzeros, hothers⟩ := readDigits_minus hbase x.isDigit hstop false
    rw [if_pos hsign, if_pos hsign]
    by_cases hall : ∀ d ∈ x.values, d = 0
    case pos =>
      have hvalue : numeralValue base x.values = 0 := (numeralValue_eq_zero (by omega)).mpr hall
      rw [hzeros hall, hvalue]
      exact ⟨fun _ => Or.inr hall, fun _ => rfl⟩
    case neg =>
      have hpos : 0 < numeralValue base x.values :=
        Nat.pos_of_ne_zero fun h => hall ((numeralValue_eq_zero (by omega)).mp h)
      have hother : ∃ d ∈ x.values, d ≠ 0 := by
        by_contra hnone
        exact hall fun d hd => by_contra fun hne => hnone ⟨d, hd, hne⟩
      refine ⟨fun heq => ?_, fun h => absurd (h.resolve_left fun hne => hne hsign) hall⟩
      have hresult := hothers hother _ heq
      unfold clamp longMin longMax at hresult
      omega

/-- The text "7" is read as 7. -/
theorem atoiBase_eq_clamp_iff_seven : ∃ x : Numeral 10, x.IsLongest [0x37] ∧ clamp x.value = 7 ∧
    atoiBase (some [0x37, 0]) 10 = .ok (clamp x.value) := by
  let x : Numeral 10 := ⟨[], [], [0x37], [7], by simp, Or.inl rfl,
    .cons ⟨by decide, by decide⟩ .nil⟩
  have hx : x.IsLongest [0x37] := ⟨List.prefix_rfl, fun y hy => hy.length_le⟩
  have hresult := (atoiBase_eq_clamp_iff ⟨[0x37], by decide⟩ 10 (by decide) (by decide)).2 x hx
  exact ⟨x, hx, by decide, hresult.mpr (Or.inl (by decide))⟩

/-- The text "-5" is read as 2^32 - 5. -/
theorem atoiBase_minus_five : ∃ x : Numeral 10, x.IsLongest [minus, 0x35] ∧ clamp x.value = -5 ∧
    atoiBase (some [minus, 0x35, 0]) 10 = .ok 4294967291 := by
  let x : Numeral 10 := ⟨[], [minus], [0x35], [5], by simp, Or.inr (Or.inl rfl),
    .cons ⟨by decide, by decide⟩ .nil⟩
  exact ⟨x, ⟨List.prefix_rfl, fun y hy => hy.length_le⟩, by decide, by decide⟩

end AtoiBase
end Exercises
end InfinityLabs
